import SeClient.HostAddresses

/-!
# http URIs, parsed

What `parse_uri` makes of the URIs of `Rfc3986.lean`.
-/

namespace SeClient

/-! ## Texts with escapes -/

section Texts
variable {p : UInt8 → Prop} {s d q data : CString} {c : UInt8} {fuel : ℕ}

theorem pchar_escape {x y : UInt8} {a b : ℕ} (hx : HexDig x a) (hy : HexDig y b) :
    pchar (37 :: x :: y :: data) = some (UInt8.ofNat (16 * a + b), data) := by
  have ha := (hex4_iff x a).mpr hx
  have hb := (hex4_iff y b).mpr hy
  have hcopied : ¬copied 37 = true := by decide
  rw [pchar, if_neg hcopied, if_pos rfl, ha, hb, Option.bind_some, Option.map_some,
    shift_digit (hex4_lt ha) (hex4_lt hb)]

/-- A path or a query is decoded. -/
theorem component_spells {query : Bool} (h : Spells p s d)
    (hp : ∀ c, p c → PathChar c ∨ c = 63 ∧ query = true)
    (hq : ∀ c ∈ q.head?, c = 63 ∧ query = false) (hfuel : s.length < fuel) :
    componentLoop query fuel (s ++ q) = some (d, q) := by
  induction h generalizing fuel with
  | nil =>
    obtain ⟨k, rfl⟩ : ∃ k, fuel = k + 1 := ⟨fuel - 1, (Nat.sub_add_cancel hfuel).symm⟩
    cases q with
    | nil => rfl
    | cons c q =>
      obtain ⟨rfl, rfl⟩ := hq c rfl
      rfl
  | @char c s d hc h ih =>
    rw [List.length_cons] at hfuel
    obtain ⟨k, rfl⟩ : ∃ k, fuel = k + 1 := ⟨fuel - 1, (Nat.sub_add_cancel (by omega)).symm⟩
    rw [List.cons_append, componentLoop]
    rcases hp c hc with hc | ⟨rfl, rfl⟩
    · have hchar : pchar (c :: (s ++ q)) = some (c, s ++ q) := if_pos ((copied_iff c).mpr hc)
      rw [if_neg fun h => hc.not_end.1 (Or.inl h), if_neg fun h => hc.not_end.1 (Or.inr h), hchar,
        Option.bind_some]
      dsimp only
      rw [ih (by omega)]
      rfl
    · rw [if_pos rfl, if_pos rfl, ih (by omega)]
      rfl
  | @escape x y a b s d hx hy h ih =>
    rw [List.length_cons, List.length_cons, List.length_cons] at hfuel
    obtain ⟨k, rfl⟩ : ∃ k, fuel = k + 1 := ⟨fuel - 1, (Nat.sub_add_cancel (by omega)).symm⟩
    have hquestion : ¬(37 : UInt8) = 63 := by decide
    have hend : ¬((37 : UInt8) = 0 ∨ ws 37 = true) := by decide
    rw [List.cons_append, List.cons_append, List.cons_append, componentLoop, if_neg hquestion,
      if_neg hend, pchar_escape hx hy, Option.bind_some]
    dsimp only
    rw [ih (by omega)]
    rfl

/-- A registered name is decoded. -/
theorem hostLoop_spells (data : CString) (h : Spells NameChar s d)
    (hfuel : (s ++ data).length ≤ fuel) :
    ∃ k, data.length ≤ k ∧
      hostLoop fuel (s ++ data) = (d ++ (hostLoop k data).1, (hostLoop k data).2) := by
  induction h generalizing fuel with
  | nil => exact ⟨fuel, hfuel, rfl⟩
  | @char c s d hc h ih =>
    rw [List.cons_append, List.length_cons] at hfuel
    obtain ⟨k, rfl⟩ : ∃ k, fuel = k + 1 := ⟨fuel - 1, (Nat.sub_add_cancel (by omega)).symm⟩
    obtain ⟨j, hj, hrun⟩ := ih (show _ ≤ k by omega)
    have hchar : pchar (c :: (s ++ data)) = some (c, s ++ data) := if_pos ((copied_iff c).mpr hc.1)
    have hgoes : ¬((c :: (s ++ data)).head? = some 64 ∨ (c :: (s ++ data)).head? = some 58) := by
      rintro (h | h)
      · exact hc.2.2.2 (Option.some.inj h)
      · exact hc.2.2.1 (Option.some.inj h)
    refine ⟨j, hj, ?_⟩
    rw [List.cons_append, hostLoop, if_neg hgoes, hchar]
    dsimp only
    rw [hrun, List.cons_append]
  | @escape x y a b s d hx hy h ih =>
    rw [List.cons_append, List.cons_append, List.cons_append, List.length_cons, List.length_cons,
      List.length_cons] at hfuel
    obtain ⟨k, rfl⟩ : ∃ k, fuel = k + 1 := ⟨fuel - 1, (Nat.sub_add_cancel (by omega)).symm⟩
    obtain ⟨j, hj, hrun⟩ := ih (show _ ≤ k by omega)
    have hgoes : ¬((37 :: x :: y :: (s ++ data)).head? = some 64 ∨
        (37 :: x :: y :: (s ++ data)).head? = some 58) := by
      rintro (h | h)
      · exact absurd (Option.some.inj h) (by decide)
      · exact absurd (Option.some.inj h) (by decide)
    refine ⟨j, hj, ?_⟩
    rw [List.cons_append, List.cons_append, List.cons_append, hostLoop, if_neg hgoes,
      pchar_escape hx hy]
    dsimp only
    rw [hrun, List.cons_append]

end Texts

/-! ## The front of a URI -/

namespace HttpUri
variable (u : HttpUri)

/-- The path and the query. -/
def rest : CString := u.path.text ++ u.queryText

theorem scheme_alpha : ∃ c s, u.scheme = c :: s ∧ ∀ d ∈ u.scheme, alpha d = true := by
  have hlower : ∀ c : UInt8, lower c ∈ chars ['h', 't', 'p', 's'] → alpha c = true := by
    apply forall_byte
    decide +kernel
  have hletters : ∀ secure, ∀ d ∈ schemeText secure, d ∈ chars ['h', 't', 'p', 's'] := by decide
  have hne : ∀ secure, schemeText secure ≠ [] := by decide
  obtain ⟨c, s, hs⟩ : ∃ c s, u.scheme = c :: s := by
    refine List.exists_cons_of_ne_nil fun hnil => hne u.secure ?_
    rw [← u.schemeName, hnil]
    rfl
  refine ⟨c, s, hs, fun d hd => hlower d (hletters u.secure _ ?_)⟩
  rw [← u.schemeName]
  exact List.mem_map_of_mem hd

theorem schemeLoop_alpha {s : CString} (data : CString) (h : ∀ d ∈ s, alpha d = true) :
    schemeLoop (s ++ 58 :: data) = some (s, data) := by
  have hcolon : ∀ c : UInt8, alpha c = true → c ≠ 58 := by
    apply forall_byte
    decide +kernel
  induction s with
  | nil => rfl
  | cons c s ih =>
    obtain ⟨hc, hs⟩ := List.forall_mem_cons.mp h
    rw [List.cons_append, schemeLoop, if_neg (hcolon c hc), if_pos (Or.inl hc), ih hs]
    rfl

/-- The scheme is read, and the host follows. -/
theorem uriFront_scheme (uri : Uri) (data : CString) :
    uriFront uri (u.scheme ++ 58 :: 47 :: 47 :: data) =
      (parseHost { uri with scheme := some u.scheme, port := schemePort u.scheme uri.port }
        data).map some := by
  have hslash : ∀ c : UInt8, alpha c = true → c ≠ 47 := by
    apply forall_byte
    decide +kernel
  obtain ⟨c, s, hs, halpha⟩ := u.scheme_alpha
  have hloop := schemeLoop_alpha (47 :: 47 :: data) halpha
  have hc : alpha c = true := halpha c (by rw [hs]; exact List.mem_cons_self)
  rw [hs, List.cons_append] at hloop ⊢
  unfold uriFront
  dsimp only
  rw [if_neg (hslash c hc), if_pos hc, hloop]
  rfl

theorem uriFront_text (uri : Uri) : uriFront uri u.text =
    (parseHost { uri with scheme := some u.scheme, port := schemePort u.scheme uri.port }
      (u.host.text ++ u.tail)).map some :=
  u.uriFront_scheme uri _

theorem rest_head : ∀ c ∈ u.rest.head?, c = 47 ∨ c = 63 := by
  intro c hc
  unfold rest at hc
  cases hpath : u.path.text with
  | nil =>
    rw [hpath, List.nil_append] at hc
    unfold queryText at hc
    cases hquery : u.query with
    | none =>
      rw [hquery] at hc
      exact absurd hc.symm (Option.some_ne_none _)
    | some q =>
      rw [hquery] at hc
      exact Or.inr (Option.some.inj hc).symm
  | cons d s =>
    rw [hpath] at hc
    refine Or.inl (u.pathAbsolute c ?_)
    rw [hpath]
    exact hc

theorem tail_head : ∀ c ∈ u.tail.head?, c = 58 ∨ c = 47 ∨ c = 63 := by
  intro c hc
  unfold tail portText at hc
  cases hport : u.port with
  | none =>
    rw [hport] at hc
    exact Or.inr (u.rest_head c hc)
  | some ds =>
    rw [hport] at hc
    exact Or.inl (Option.some.inj hc).symm

theorem rest_notDigit : NotDigit u.rest := by
  intro c hc
  rcases u.rest_head c hc with rfl | rfl <;> decide

theorem tail_hostEnd : HostEnd u.tail := by
  intro c hc
  rcases u.tail_head c hc with rfl | rfl | rfl <;> decide

/-- The port that is read, that of the scheme where there are no digits. -/
def portRead (port : ℤ) : ℤ :=
  match u.port with
  | none | some [] => port
  | some ds => intValue ds

/-- Without a colon there is no port. -/
theorem hostPort_end {uri : Uri} {data : CString} (h : ∀ c ∈ data.head?, c ≠ 58) :
    hostPort uri data = (uri, data) := by
  unfold hostPort
  split
  · exact absurd rfl (h 58 rfl)
  · rfl

theorem hostPort_tail (uri : Uri) (hhost : ∀ a ∈ uri.host, a.setPort uri.port = a) :
    hostPort uri u.tail = ({ uri with
      port := u.portRead uri.port
      host := uri.host.map fun a => a.setPort (u.portRead uri.port) }, u.rest) := by
  have hsame : uri.host.map (fun a => a.setPort uri.port) = uri.host := by
    cases h : uri.host with
    | none => rfl
    | some a => exact congrArg some (hhost a h)
  have htail : u.tail = u.portText ++ u.rest := rfl
  unfold portText at htail
  unfold portRead
  cases hport : u.port with
  | none =>
    rw [hport] at htail
    rw [htail]
    dsimp only
    rw [hsame, List.nil_append]
    refine hostPort_end fun c hc => ?_
    rcases u.rest_head c hc with rfl | rfl <;> decide
  | some ds =>
    rw [hport] at htail
    rw [htail]
    dsimp only
    rw [List.cons_append]
    cases ds with
    | nil =>
      rw [List.nil_append, hostPort, number_notDigit u.rest_notDigit]
      rfl
    | cons c ds =>
      have hdigits := u.portDigits (c :: ds) hport
      rw [hostPort, number_eq hdigits (List.cons_ne_nil c ds) u.rest_notDigit]
      rfl

theorem parsePath_rest (uri : Uri) : parsePath uri u.rest = some { uri with
    path := upToNul u.path.value
    query := u.query.map fun q => upToNul q.value } := by
  have hquery : ∀ c ∈ u.queryText.head?, c = 63 ∧ false = false := by
    unfold queryText
    cases u.query with
    | none => exact fun c hc => absurd hc.symm (Option.some_ne_none c)
    | some q => exact fun c hc => ⟨(Option.some.inj hc).symm, rfl⟩
  have hpath : componentLoop false (u.rest.length + 1) u.rest = some (u.path.value, u.queryText) :=
    component_spells u.path.spells (fun c hc => Or.inl hc) hquery (by
      unfold rest
      rw [List.length_append]
      omega)
  unfold parsePath
  rw [hpath, Option.bind_eq_bind, Option.bind_some]
  unfold queryText
  cases u.query with
  | none => rfl
  | some q =>
    have hloop : componentLoop true (q.text.length + 1) (q.text ++ []) = some (q.value, []) :=
      component_spells q.spells (fun c hc => hc.imp id fun h => ⟨h, rfl⟩)
        (fun c hc => absurd hc.symm (Option.some_ne_none c)) (Nat.lt_succ_self _)
    rw [List.append_nil] at hloop
    show (componentLoop true (q.text.length + 1) q.text).bind _ = _
    rw [hloop]
    rfl

/-! ## Hosts -/

/-- The hosts `parse_host` finds: a name is no text that begins as an IPv4 address, and ends at a
colon if a path follows. -/
def HostRead : Prop :=
  match u.host with
  | .ipv4 _ => True
  | .ipv6 a => a.Handled
  | .name n _ => parseIpv4 n.text = none ∧ (u.port = none → u.path.text = [])

/-- The address that is read. -/
def address (port : ℤ) : Option Address :=
  match u.host with
  | .ipv4 o => some (.ipv4 o.value (UInt16.ofInt port))
  | .ipv6 a => some (.ipv6 a.value (UInt16.ofInt port))
  | .name _ _ => none

/-- The name that is read. -/
def hostString : Option CString :=
  match u.host with
  | .name n _ => if n.value = [] then none else some (upToNul n.value)
  | _ => none

/-- What `parse_uri` stores. -/
def parsed (port : ℤ) : Uri where
  scheme := some u.scheme
  name := u.hostString
  path := upToNul u.path.value
  query := u.query.map fun q => upToNul q.value
  host := u.address (u.portRead port)
  port := u.portRead port

theorem parseAddress_bracket {data : CString} (port : ℤ) (h : ∀ c ∈ data.head?, c ≠ 91) :
    parseAddress port data =
      some ((parseIpv4 data).map fun r => (.ipv4 r.1 (UInt16.ofInt port), r.2)) := by
  unfold parseAddress
  split
  · exact absurd rfl (h 91 rfl)
  · rfl

theorem Octets.head (o : Octets) (data : CString) : ∀ c ∈ (o.text ++ data).head?, c ≠ 91 := by
  have hdigit : ∀ c : UInt8, digit c = true → c ≠ 91 := by
    apply forall_byte
    decide +kernel
  obtain ⟨hd, hne⟩ := decimalText_digits o.a.toNat
  obtain ⟨d, s, hs⟩ := List.exists_cons_of_ne_nil hne
  unfold Octets.text
  rw [hs]
  intro c hc
  rw [← Option.some.inj hc]
  exact hdigit d (hd d (by rw [hs]; exact List.mem_cons_self))

theorem parseAddress_ipv4 (o : Octets) (port : ℤ) :
    parseAddress port (o.text ++ u.tail) =
      some (some (.ipv4 o.value (UInt16.ofInt port), u.tail)) := by
  rw [parseAddress_bracket port (Octets.head o u.tail), parseIpv4_octets o u.tail_hostEnd]
  rfl

theorem parseAddress_ipv6 (a : Ipv6Text) (port : ℤ) :
    parseAddress port (91 :: (a.text ++ [93]) ++ u.tail) = some (if a.Handled then
      some (.ipv6 a.value (UInt16.ofInt port), u.tail) else none) := by
  rw [List.cons_append, List.append_assoc, List.singleton_append]
  unfold parseAddress
  dsimp only
  rw [a.parseIpv6_text u.tail]
  by_cases h : a.Handled
  · rw [if_pos h, if_pos h]
    rfl
  · rw [if_neg h, if_neg h]
    rfl

/-- The first character of a name, or of what follows it. -/
theorem name_head {n : Encoded NameChar} : ∀ c ∈ (n.text ++ u.tail).head?, c ≠ 91 := by
  have hname : ∀ c : UInt8, NameChar c → c ≠ 91 := by
    apply forall_byte
    decide +kernel
  obtain ⟨text, value, hspells⟩ := n
  cases hspells with
  | nil =>
    intro c hc
    rcases u.tail_head c hc with rfl | rfl | rfl <;> decide
  | char hchar h =>
    intro c hc
    rw [← Option.some.inj hc]
    exact hname _ hchar
  | escape hx hy h =>
    intro c hc
    rw [← Option.some.inj hc]
    decide

theorem parseAddress_name {n : Encoded NameChar} (port : ℤ) :
    parseAddress port (n.text ++ u.tail) = some ((parseIpv4 n.text).map fun r =>
      (.ipv4 r.1 (UInt16.ofInt port), r.2 ++ u.tail)) := by
  rw [parseAddress_bracket port u.name_head, parseIpv4_append n.text u.tail_hostEnd]
  cases parseIpv4 n.text with
  | none => rfl
  | some r => rfl

/-- The name ends in front of a colon, or of a query. -/
theorem hostLoop_tail (h : u.port = none → u.path.text = []) (k : ℕ) :
    hostLoop k u.tail = ([], u.tail) := by
  have hhead : ∀ c ∈ u.tail.head?, c = 58 ∨ c = 63 := by
    unfold tail portText
    cases hport : u.port with
    | some ds => exact fun c hc => Or.inl (Option.some.inj hc).symm
    | none =>
      rw [h hport]
      unfold queryText
      cases u.query with
      | none => exact fun c hc => absurd hc.symm (Option.some_ne_none c)
      | some q => exact fun c hc => Or.inr (Option.some.inj hc).symm
  cases k with
  | zero => rfl
  | succ k =>
    cases htail : u.tail with
    | nil => rfl
    | cons c data =>
      rw [htail] at hhead
      rcases hhead c rfl with rfl | rfl
      · exact if_pos (Or.inr rfl)
      · rfl

/-- The name behind the bars. -/
theorem hostName_name {n : Encoded NameChar} {uri : Uri}
    (hip : parseIpv4 n.text = none) (hend : u.port = none → u.path.text = []) :
    hostName uri (n.text ++ u.tail) = some (if n.value = [] then uri
      else { uri with name := some (upToNul n.value) }, u.tail) := by
  obtain ⟨k, -, hloop⟩ := hostLoop_spells u.tail n.spells (Nat.le_refl _)
  rw [u.hostLoop_tail hend, List.append_nil] at hloop
  unfold hostName
  rw [u.parseAddress_name, hip]
  dsimp only [Option.map_some, Option.map_none]
  rw [hloop]

/-- **A host that is read** is followed by its port. -/
theorem parseHost_text {uri : Uri} (hname : uri.name = none) (hhost : uri.host = none)
    (h : u.HostRead) : parseHost uri (u.host.text ++ u.tail) = some ({ uri with
      name := u.hostString
      host := u.address (u.portRead uri.port)
      port := u.portRead uri.port }, u.rest) := by
  unfold HostRead at h
  unfold parseHost hostString address UriHost.text
  cases hkind : u.host with
  | ipv4 o =>
    have hset : ∀ a ∈ some (Address.ipv4 o.value (UInt16.ofInt uri.port)),
        a.setPort uri.port = a := fun a ha => by
      rw [← Option.some.inj ha]
      rfl
    dsimp only
    rw [hostName, u.parseAddress_ipv4 o uri.port]
    dsimp only [Option.map_some]
    rw [u.hostPort_tail _ hset, hname]
    rfl
  | ipv6 a =>
    have ha : a.Handled := by
      rw [hkind] at h
      exact h
    have hset : ∀ b ∈ some (Address.ipv6 a.value (UInt16.ofInt uri.port)),
        b.setPort uri.port = b := fun b hb => by
      rw [← Option.some.inj hb]
      rfl
    dsimp only
    rw [hostName, u.parseAddress_ipv6 a uri.port, if_pos ha]
    dsimp only [Option.map_some]
    rw [u.hostPort_tail _ hset, hname]
    rfl
  | name n hn =>
    obtain ⟨hip, hend⟩ : parseIpv4 n.text = none ∧ (u.port = none → u.path.text = []) := by
      rw [hkind] at h
      exact h
    dsimp only
    rw [u.hostName_name hip hend]
    dsimp only [Option.map_some]
    have hset : ∀ a ∈ uri.host, a.setPort uri.port = a := fun a ha =>
      absurd (hhost.symm.trans ha).symm (Option.some_ne_none a)
    split_ifs with hnil
    · rw [u.hostPort_tail uri hset, hname, hhost]
      rfl
    · rw [u.hostPort_tail { uri with name := some (upToNul n.value) } hset, hhost]
      rfl

/-- **The URIs that are read.** -/
theorem parseUri_text (last : Uri) (h : u.HostRead) :
    parseUri last u.text = some (some (u.parsed (schemePort u.scheme last.port))) := by
  unfold parseUri
  rw [uriFront_text, parseHost_text u rfl rfl h]
  dsimp only [Option.map_some, Option.bind_some]
  rw [parsePath_rest]
  rfl

end HttpUri

/-! ## Components -/

/-- The number of an address. -/
inductive Ip
  | v4 (ip : UInt32)
  | v6 (ip : List UInt8)
deriving DecidableEq, Repr

def Address.ip : Address → Ip
  | .ipv4 ip _ => .v4 ip
  | .ipv6 ip _ => .v6 ip

/-- The components of a URI. -/
structure UriParts where
  scheme : Option CString
  name : Option CString
  ip : Option Ip
  port : ℤ
  path : CString
  query : Option CString
deriving DecidableEq, Repr

/-- The components `parse_uri` stores. -/
def Uri.parts (uri : Uri) : UriParts where
  scheme := uri.scheme
  name := uri.name
  ip := uri.host.map Address.ip
  port := uri.port
  path := uri.path
  query := uri.query

namespace HttpUri
variable (u : HttpUri)

/-- The components of a text, a name or an address, and the path and the query decoded. -/
def parts : UriParts where
  scheme := some u.scheme
  name := match u.host with
    | .name n _ => if n.text = [] then none else some n.value
    | _ => none
  ip := match u.host with
    | .ipv4 o => some (.v4 o.value)
    | .ipv6 a => some (.v6 a.value)
    | .name _ _ => none
  port := u.portNumber
  path := u.path.value
  query := u.query.map Encoded.value

/-- **`parse_uri` returns the components**, whatever the `Uri` held before. -/
def Parses : Prop :=
  ∀ last : Uri, ∃ uri, parseUri last u.text = some (some uri) ∧ uri.parts = u.parts

/-- The port is read: the scheme is written in lower case, or there are digits, and their number
is an `int`. -/
def PortRead : Prop :=
  (u.scheme = schemeText u.secure ∨ ∃ ds ∈ u.port, ds ≠ []) ∧ u.portNumber < 2 ^ 31

/-- No escape stands for a NUL. -/
def Strings : Prop :=
  (∀ n h, u.host = .name n h → n.Nonzero) ∧ u.path.Nonzero ∧ ∀ q ∈ u.query, q.Nonzero

theorem upToNul_iff {s : CString} : upToNul s = s ↔ (0 : UInt8) ∉ s := by
  unfold upToNul
  rw [List.takeWhile_eq_self_iff]
  constructor
  · intro h hzero
    exact of_decide_eq_true (h 0 hzero) rfl
  · rintro h c hc
    refine decide_eq_true ?_
    rintro rfl
    exact h hc

theorem schemePort_scheme (port : ℤ) : schemePort u.scheme port =
    if u.scheme = schemeText u.secure then (if u.secure then 443 else 80) else port := by
  have hlower : ∀ s, (schemeText s).map lower = schemeText s := by decide
  have hdiffer : schemeText true ≠ schemeText false := by decide
  have hname := u.schemeName
  show (if u.scheme = schemeText false then 80 else if u.scheme = schemeText true then 443
    else port) = _
  by_cases hscheme : u.scheme = schemeText u.secure
  · rw [if_pos hscheme, hscheme]
    cases u.secure with
    | false => rfl
    | true => exact (if_neg hdiffer).trans (if_pos rfl)
  · -- a scheme in lower case is the one it is the name of
    have hother : ∀ s, u.scheme ≠ schemeText s := by
      rintro s hs
      rw [hs, hlower] at hname
      exact hscheme (hs.trans hname)
    rw [if_neg hscheme, if_neg (hother false), if_neg (hother true)]

/-- The port, where digits are missing too. -/
theorem portRead_iff :
    (∀ port, u.portRead (schemePort u.scheme port) = u.portNumber) ↔ u.PortRead := by
  have hdefault : (if u.secure then 443 else 80) < 2 ^ 31 := by split_ifs <;> decide
  have hscheme : (∀ port, schemePort u.scheme port = ((if u.secure then 443 else 80 : ℕ) : ℤ)) ↔
      u.scheme = schemeText u.secure := by
    constructor
    · intro h
      by_contra hne
      have hport := h ((if u.secure then 443 else 80 : ℕ) + 1)
      rw [schemePort_scheme, if_neg hne] at hport
      omega
    · intro h port
      rw [schemePort_scheme, if_pos h]
      split_ifs <;> rfl
  unfold portRead PortRead portNumber
  cases hport : u.port with
  | none =>
    dsimp only
    rw [hscheme]
    constructor
    · exact fun h => ⟨Or.inl h, hdefault⟩
    · rintro ⟨h | ⟨ds, hds, -⟩, -⟩
      · exact h
      · exact absurd hds.symm (Option.some_ne_none ds)
  | some ds =>
    cases ds with
    | nil =>
      dsimp only
      rw [hscheme]
      constructor
      · exact fun h => ⟨Or.inl h, hdefault⟩
      · rintro ⟨h | ⟨ds, hds, hne⟩, -⟩
        · exact h
        · exact absurd (Option.some.inj hds).symm hne
    | cons c ds =>
      have hvalue := intValue_iff (u.portDigits (c :: ds) hport)
      dsimp only
      constructor
      · exact fun h => ⟨Or.inr ⟨_, rfl, List.cons_ne_nil c ds⟩, hvalue.mp (h 0)⟩
      · exact fun h _ => hvalue.mpr h.2

/-- A text stands for nothing only if it is empty. -/
theorem spells_nil {p : UInt8 → Prop} {s d : CString} (h : Spells p s d) : s = [] ↔ d = [] := by
  cases h with
  | nil => exact Iff.rfl
  | char => exact iff_of_false (List.cons_ne_nil _ _) (List.cons_ne_nil _ _)
  | escape => exact iff_of_false (List.cons_ne_nil _ _) (List.cons_ne_nil _ _)

theorem hostString_iff : u.hostString = u.parts.name ↔ ∀ n h, u.host = .name n h → n.Nonzero := by
  unfold hostString parts
  dsimp only
  cases hkind : u.host with
  | ipv4 o => exact iff_of_true rfl fun n h hn => UriHost.noConfusion hn
  | ipv6 a => exact iff_of_true rfl fun n h hn => UriHost.noConfusion hn
  | name n hn =>
    dsimp only
    rw [if_congr (spells_nil n.spells) rfl rfl]
    constructor
    · intro h m hm hmn
      obtain rfl := (UriHost.name.inj hmn).symm
      by_cases hnil : m.value = []
      · unfold Encoded.Nonzero
        rw [hnil]
        exact List.not_mem_nil
      · rw [if_neg hnil, if_neg hnil] at h
        exact upToNul_iff.mp (Option.some.inj h)
    · intro h
      rw [upToNul_iff.mpr (h n hn rfl)]

/-- The components of a URI that is read. -/
theorem parsed_parts (port : ℤ) : (u.parsed port).parts = u.parts ↔
    u.portRead port = u.portNumber ∧ u.Strings := by
  have hip : (u.address (u.portRead port)).map Address.ip = u.parts.ip := by
    unfold address parts
    cases u.host <;> rfl
  have hquery : u.query.map (fun q => upToNul q.value) = u.query.map Encoded.value ↔
      ∀ q ∈ u.query, q.Nonzero := by
    cases u.query with
    | none => exact iff_of_true rfl fun q hq => absurd hq.symm (Option.some_ne_none q)
    | some q =>
      constructor
      · intro h r hr
        rw [← Option.some.inj hr]
        exact upToNul_iff.mp (Option.some.inj h)
      · intro h
        exact congrArg some (upToNul_iff.mpr (h q rfl))
  unfold Strings
  rw [← hostString_iff, ← hquery]
  constructor
  · intro h
    exact ⟨congrArg UriParts.port h, congrArg UriParts.name h,
      upToNul_iff.mp (congrArg UriParts.path h), congrArg UriParts.query h⟩
  · rintro ⟨hport, hname, hpath, hq⟩
    unfold Uri.parts parsed
    dsimp only
    rw [hname, hip, hport, upToNul_iff.mpr hpath, hq]
    rfl

theorem hostName_bracket (uri : Uri) {data : CString}
    (h : parseAddress uri.port (91 :: data) = some none) :
    hostName uri (91 :: data) = some (uri, 91 :: data) := by
  have hbracket : ¬((91 :: data).head? = some 64 ∨ (91 :: data).head? = some 58) := by
    rintro (h | h)
    · exact absurd (Option.some.inj h) (by decide)
    · exact absurd (Option.some.inj h) (by decide)
  have hloop : hostLoop (91 :: data).length (91 :: data) = ([], 91 :: data) := if_neg hbracket
  unfold hostName
  rw [h, Option.map_some]
  dsimp only
  rw [hloop]
  rfl

/-- A bracket that begins no address begins nothing. -/
theorem parseUri_refused (last : Uri) {data : CString}
    (h : parseAddress (schemePort u.scheme last.port) (91 :: data) = some none) :
    parseUri last (u.scheme ++ 58 :: 47 :: 47 :: 91 :: data) = some none := by
  have hname := hostName_bracket
    { scheme := some u.scheme, port := schemePort u.scheme last.port } h
  have hcolon : ∀ c ∈ (91 :: data).head?, c ≠ 58 := by
    intro c hc
    rw [← Option.some.inj hc]
    decide
  unfold parseUri
  rw [u.uriFront_scheme, parseHost, hname, Option.map_some]
  dsimp only
  rw [hostPort_end hcolon]
  rfl

/-- The port and the path leave the name, and an address stays an address. -/
theorem parse_keeps {uri₀ uri uri' : Uri} {data text : CString}
    (hport : hostPort uri₀ data = (uri, text)) (hpath : parsePath uri text = some uri') :
    uri'.name = uri₀.name ∧ (uri'.host = none ↔ uri₀.host = none) := by
  have hfirst : uri.name = uri₀.name ∧ (uri.host = none ↔ uri₀.host = none) := by
    unfold hostPort at hport
    split at hport
    · rw [← (Prod.mk.inj hport).1]
      exact ⟨rfl, Option.map_eq_none_iff⟩
    · rw [← (Prod.mk.inj hport).1]
      exact ⟨rfl, Iff.rfl⟩
  obtain ⟨⟨d, r⟩, -, h⟩ := Option.bind_eq_some_iff.mp hpath
  dsimp only at h
  split at h
  · obtain ⟨_, -, h⟩ := Option.bind_eq_some_iff.mp h
    rw [← Option.some.inj h]
    exact hfirst
  · rw [← Option.some.inj h]
    exact hfirst

/-- A path that the name has swallowed. -/
theorem upToNul_longer (v w : CString) : upToNul (v ++ 47 :: w) ≠ v := by
  intro h
  have hzero : (0 : UInt8) ∉ v := by
    rw [← h]
    intro hmem
    have hne := List.mem_takeWhile_imp (p := fun c : UInt8 => decide (c ≠ 0)) hmem
    exact of_decide_eq_true hne rfl
  have hall : ∀ c ∈ v, decide (c ≠ 0) = true := fun c hc => decide_eq_true fun hc₀ =>
    hzero (hc₀ ▸ hc)
  unfold upToNul at h
  rw [List.takeWhile_append_of_pos hall] at h
  exact absurd (List.append_right_eq_self.mp h) (List.cons_ne_nil 47 _)

/-- **A host that is not read** loses the URI or its components. -/
theorem parses_hostRead (h : u.Parses) : u.HostRead := by
  obtain ⟨uri, hparse, hparts⟩ := h {}
  obtain ⟨front, hfront, hmap⟩ := Option.map_eq_some_iff.mp hparse
  obtain ⟨⟨uri₁, text⟩, rfl, hpath⟩ := Option.bind_eq_some_iff.mp hmap
  rw [uriFront_text] at hfront
  obtain ⟨r, hhost, hr⟩ := Option.map_eq_some_iff.mp hfront
  obtain rfl := Option.some.inj hr
  obtain ⟨⟨uri₀, last⟩, hname, hport⟩ := Option.map_eq_some_iff.mp hhost
  obtain ⟨hkeep, hkeepHost⟩ := parse_keeps hport hpath
  unfold HostRead
  cases hkind : u.host with
  | ipv4 o => trivial
  | ipv6 a =>
    by_contra hnot
    have hrefused : parseAddress (schemePort u.scheme 0) (u.host.text ++ u.tail) = some none := by
      rw [hkind, UriHost.text, u.parseAddress_ipv6 a, if_neg hnot]
    rw [hkind] at hrefused
    have hnone := u.parseUri_refused {} hrefused
    rw [HttpUri.text, hkind] at hparse
    exact absurd (Option.some.inj (hnone.symm.trans hparse)).symm (Option.some_ne_none uri)
  | name n hn =>
    rw [hkind, UriHost.text, hostName, u.parseAddress_name] at hname
    have hip : parseIpv4 n.text = none := by
      cases hread : parseIpv4 n.text with
      | none => rfl
      | some r =>
        rw [hread] at hname
        obtain ⟨rfl, -⟩ := Prod.mk.inj (Option.some.inj hname)
        have hnone := congrArg UriParts.ip hparts
        unfold parts at hnone
        rw [hkind] at hnone
        have hhost₀ := hkeepHost.mp (Option.map_eq_none_iff.mp hnone)
        exact absurd hhost₀ (Option.some_ne_none _)
    refine ⟨hip, fun hnone => ?_⟩
    by_contra hne
    rw [hip] at hname
    obtain ⟨c, s, hs⟩ := List.exists_cons_of_ne_nil hne
    have hc : c = 47 := u.pathAbsolute c (by rw [hs]; rfl)
    subst hc
    have htail : u.tail = 47 :: (s ++ u.queryText) := by
      unfold tail portText
      rw [hnone, hs]
      rfl
    obtain ⟨k, hk, hloop⟩ := hostLoop_spells u.tail n.spells (Nat.le_refl _)
    obtain ⟨k, rfl⟩ : ∃ j, k = j + 1 := by
      rw [htail, List.length_cons] at hk
      exact ⟨k - 1, (Nat.sub_add_cancel (by omega)).symm⟩
    have hslash : hostLoop (k + 1) u.tail =
        (47 :: (hostLoop k (s ++ u.queryText)).1, (hostLoop k (s ++ u.queryText)).2) := by
      rw [htail]
      rfl
    rw [hslash] at hloop
    dsimp only [Option.map_some, Option.map_none] at hname
    rw [hloop] at hname
    dsimp only at hname
    have hcons : n.value ++ 47 :: (hostLoop k (s ++ u.queryText)).1 ≠ [] := by
      intro hnil
      exact absurd (List.append_eq_nil_iff.mp hnil).2 (List.cons_ne_nil _ _)
    rw [if_neg hcons] at hname
    obtain ⟨rfl, -⟩ := Prod.mk.inj (Option.some.inj hname)
    have hnames := congrArg UriParts.name hparts
    unfold parts at hnames
    rw [hkind] at hnames
    dsimp only [Uri.parts] at hnames
    rw [hkeep] at hnames
    dsimp only at hnames
    split_ifs at hnames
    exact upToNul_longer _ _ (Option.some.inj hnames)

/-- **URIs whose components are returned.** -/
theorem parses_iff : u.Parses ↔ u.HostRead ∧ u.PortRead ∧ u.Strings := by
  constructor
  · intro h
    have hhost := u.parses_hostRead h
    have hparts : ∀ port, (u.parsed (schemePort u.scheme port)).parts = u.parts := by
      intro port
      obtain ⟨uri, hparse, hparts⟩ := h { port := port }
      rw [u.parseUri_text _ hhost] at hparse
      rw [Option.some.inj (Option.some.inj hparse)]
      exact hparts
    refine ⟨hhost, u.portRead_iff.mp fun port => ?_, ?_⟩
    · exact ((u.parsed_parts _).mp (hparts port)).1
    · exact ((u.parsed_parts _).mp (hparts 0)).2
  · rintro ⟨hhost, hport, hstrings⟩ last
    refine ⟨_, u.parseUri_text last hhost, (u.parsed_parts _).mpr ⟨?_, hstrings⟩⟩
    exact u.portRead_iff.mpr hport last.port

end HttpUri

end SeClient
