import SeClient.Targets

/-!
# http URIs

The absolute URIs of RFC 3986 with the scheme `http` or `https` and a host, as the texts of their
parts with what these stand for.
-/

namespace SeClient

/-! ## Characters and escapes -/

/-- A hexadecimal digit of value `v`, a letter in either case. -/
def HexDig (c : UInt8) (v : ℕ) : Prop :=
  (v < 10 ∧ c.toNat = 48 + v) ∨ (10 ≤ v ∧ v < 16 ∧ (c.toNat = 87 + v ∨ c.toNat = 55 + v))

instance (c : UInt8) (v : ℕ) : Decidable (HexDig c v) := inferInstanceAs (Decidable (_ ∨ _))

/-- A text of characters and escapes, with the bytes it stands for. -/
inductive Spells (p : UInt8 → Prop) : CString → CString → Prop
  | nil : Spells p [] []
  | char {c : UInt8} {s d : CString} (hc : p c) (h : Spells p s d) : Spells p (c :: s) (c :: d)
  | escape {x y : UInt8} {a b : ℕ} {s d : CString} (hx : HexDig x a) (hy : HexDig y b)
    (h : Spells p s d) : Spells p (37 :: x :: y :: s) (UInt8.ofNat (16 * a + b) :: d)

/-- A text with its value. -/
structure Encoded (p : UInt8 → Prop) where
  text : CString
  value : CString
  spells : Spells p text value

/-- Nothing is escaped. -/
def Encoded.Plain {p : UInt8 → Prop} (e : Encoded p) : Prop := (37 : UInt8) ∉ e.text

/-- The value is a C string. -/
def Encoded.Nonzero {p : UInt8 → Prop} (e : Encoded p) : Prop := (0 : UInt8) ∉ e.value

/-- The characters of a registered name: those of a path but `/`, `:` and `@`. -/
def NameChar (c : UInt8) : Prop := PathChar c ∧ c ≠ 47 ∧ c ≠ 58 ∧ c ≠ 64

/-- The characters of a query: those of a path, and `?`. -/
def QueryChar (c : UInt8) : Prop := PathChar c ∨ c = 63

instance : DecidablePred NameChar := fun _ => inferInstanceAs (Decidable (_ ∧ _))

instance : DecidablePred QueryChar := fun _ => inferInstanceAs (Decidable (_ ∨ _))

/-! ## Hosts -/

/-- The `dec-octet`s of an IPv4 address. -/
structure Octets where
  a : UInt8
  b : UInt8
  c : UInt8
  d : UInt8
deriving DecidableEq, Repr

namespace Octets

def text (o : Octets) : CString :=
  decimalText o.a.toNat ++ 46 :: (decimalText o.b.toNat ++
    46 :: (decimalText o.c.toNat ++ 46 :: decimalText o.d.toNat))

def value (o : Octets) : UInt32 :=
  UInt32.ofNat (((o.a.toNat * 256 + o.b.toNat) * 256 + o.c.toNat) * 256 + o.d.toNat)

end Octets

/-- The digits of a group, from the last to the first. -/
inductive HexDigits : CString → ℕ → Prop
  | nil : HexDigits [] 0
  | snoc {s : CString} {c : UInt8} {n v : ℕ} (h : HexDigits s n) (hc : HexDig c v) :
    HexDigits (s ++ [c]) (16 * n + v)

/-- A group of an IPv6 address, `h16`. -/
structure H16 where
  text : CString
  value : ℕ
  digits : HexDigits text value
  nonempty : text ≠ []
  short : text.length ≤ 4

/-- The two bytes of a group. -/
def groupBytes (x : ℕ) : List UInt8 := [UInt8.ofNat (x >>> 8), UInt8.ofNat x]

/-- What is written of parts between colons. -/
def colons : List CString → CString
  | [] => []
  | [s] => s
  | s :: t :: l => s ++ 58 :: colons (t :: l)

/-- An IPv6 address: the groups in front of a `::`, those behind it if there is one, and an IPv4
address in the place of the last two. -/
structure Ipv6Text where
  left : List H16
  right : Option (List H16)
  last : Option Octets
  fits : match right with
    | none => left.length + 2 * last.toList.length = 8
    | some right => left.length + right.length + 2 * last.toList.length ≤ 7

namespace Ipv6Text

def text (a : Ipv6Text) : CString :=
  match a.right with
  | none => colons (a.left.map H16.text ++ a.last.toList.map Octets.text)
  | some right => colons (a.left.map H16.text) ++
      58 :: 58 :: colons (right.map H16.text ++ a.last.toList.map Octets.text)

/-- The bytes of an address in the place of two groups. -/
def lastBytes (a : Ipv6Text) : List UInt8 := a.last.toList.flatMap fun o => [o.a, o.b, o.c, o.d]

/-- The sixteen bytes of an address. -/
def value (a : Ipv6Text) : List UInt8 :=
  let left := a.left.flatMap fun g => groupBytes g.value
  let right := (a.right.getD []).flatMap (fun g => groupBytes g.value) ++ a.lastBytes
  left ++ List.replicate (16 - left.length - right.length) 0 ++ right

end Ipv6Text

/-- A host.  A text that is an IPv4 address is no registered name. -/
inductive UriHost
  | ipv4 (o : Octets)
  | ipv6 (a : Ipv6Text)
  | name (n : Encoded NameChar) (h : ∀ o : Octets, n.text ≠ o.text)

def UriHost.text : UriHost → CString
  | ipv4 o => o.text
  | ipv6 a => 91 :: (a.text ++ [93])
  | name n _ => n.text

/-! ## URIs -/

/-- The lower case of a letter. -/
def lower (c : UInt8) : UInt8 := if 65 ≤ c ∧ c ≤ 90 then c + 32 else c

/-- The name of the scheme. -/
def schemeText (secure : Bool) : CString :=
  if secure then chars ['h', 't', 't', 'p', 's'] else chars ['h', 't', 't', 'p']

/-- An absolute http or https URI with a host. -/
structure HttpUri where
  secure : Bool
  scheme : CString
  host : UriHost
  /-- The digits behind the colon. -/
  port : Option CString
  path : Encoded PathChar
  query : Option (Encoded QueryChar)
  schemeName : scheme.map lower = schemeText secure
  portDigits : ∀ ds ∈ port, ∀ c ∈ ds, digit c = true
  pathAbsolute : ∀ c ∈ path.text.head?, c = 47

namespace HttpUri

/-- What follows the host. -/
def queryText (u : HttpUri) : CString :=
  match u.query with
  | none => []
  | some q => 63 :: q.text

def portText (u : HttpUri) : CString :=
  match u.port with
  | none => []
  | some ds => 58 :: ds

/-- What follows the host. -/
def tail (u : HttpUri) : CString := u.portText ++ (u.path.text ++ u.queryText)

def text (u : HttpUri) : CString := u.scheme ++ 58 :: 47 :: 47 :: (u.host.text ++ u.tail)

/-- The port, that of the scheme where there are no digits. -/
def portNumber (u : HttpUri) : ℕ :=
  match u.port with
  | none | some [] => if u.secure then 443 else 80
  | some ds => decimal ds

/-- There are no escapes. -/
def Plain (u : HttpUri) : Prop :=
  (∀ n h, u.host = .name n h → n.Plain) ∧ u.path.Plain ∧ ∀ q ∈ u.query, q.Plain

end HttpUri

end SeClient
