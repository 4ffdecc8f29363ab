import Mathlib.Data.List.TakeWhile
import SeClient.XmlToken

/-!
# URIs

`uri.c` and the parsers of addresses it calls (`address.c`).  A URI is decoded in place, behind
the text that is still to be read, so the functions below return what is decoded and what
remains.

`parse_ipv6` stores an address in 16 bytes.  A result `none` of a function below is that it
stores more; inside of it another `none` is the `NULL` by which the source tells that there is
no URI.
-/

namespace SeClient

/-! ## Addresses -/

/-- `hex4` -/
def hex4 (c : UInt8) : Option ℕ :=
  if 48 ≤ c ∧ c ≤ 57 then some (c.toNat - 48)
  else if 97 ≤ c ∧ c ≤ 102 then some (c.toNat - 97 + 10)
  else if 65 ≤ c ∧ c ≤ 70 then some (c.toNat - 65 + 10)
  else none

/-- The loop of `hex16`, after `n` digits. -/
def hex16Loop : ℕ → ℕ → ℕ → CString → Option (ℕ × CString)
  | 0, _, x, data => some (x, data)
  | left + 1, n, x, data =>
    match data.head?.bind hex4 with
    | some y => hex16Loop left (n + 1) (x <<< 4 + y) data.tail
    | none => if 1 ≤ n then some (x, data) else none

/-- `hex16` -/
def hex16 (data : CString) : Option (ℕ × CString) := hex16Loop 4 0 0 data

/-- `ipv6_input` -/
def ipv6Input (c : UInt8) : ℕ := if c = 58 then 0 else if c = 93 then 1 else 2

/-- `ipv6_state` -/
def ipv6State : List ℕ := [1, 7, 5, 2, 7, 7, 7, 8, 3, 4, 8, 7, 7, 7, 3, 6, 9, 7, 2, 7, 5]

/-- The variables of `parse_ipv6`: `addr` is what is stored, and `gap` how much of it stands
before the `::`. -/
structure Ipv6Parser where
  state : ℕ := 0
  n : ℕ := 0
  m : ℕ := 0
  addr : List UInt8 := []
  gap : ℕ := 0
deriving DecidableEq, Repr

/-- A group of the address is stored. -/
def Ipv6Parser.group (p : Ipv6Parser) (data : CString) : Option (Option (Ipv6Parser × CString)) :=
  match hex16 data with
  | none => some none
  | some (x, rest) =>
    if p.addr.length < 16 then
      some (some ({ p with n := p.n + 1, addr := p.addr ++ [UInt8.ofNat (x >>> 8), UInt8.ofNat x] },
        rest))
    else none

/-- The loop of `parse_ipv6`. -/
def ipv6Loop : ℕ → Ipv6Parser → CString → Option (Option (List UInt8 × CString))
  | 0, _, _ => some none
  | _, _, [] => some none
  | fuel + 1, p, c :: data =>
    let state := ipv6State.getD (p.state * 3 + ipv6Input c) 7
    let p' := { p with state := state }
    let next := fun g => match g with
      | none => none
      | some none => some none
      | some (some (p, data)) => ipv6Loop fuel p data
    match state with
    | 2 => ipv6Loop fuel { p' with gap := p.addr.length } data
    | 3 => next (Ipv6Parser.group { p' with m := p.m + 1 } (c :: data))
    | 5 => next (p'.group (c :: data))
    | 7 => some none
    | 8 =>
      -- what follows the gap moves to the end of the address
      some (some (p.addr.take p.gap ++ List.replicate (16 - 2 * p.n) 0 ++ p.addr.drop p.gap, data))
    | 9 => some (if p.n = 8 then some (p.addr, data) else none)
    | 4 => if p.n = 6 then some none else ipv6Loop fuel p' data
    | 6 => if p.n = 8 then some none else ipv6Loop fuel p' data
    | _ => ipv6Loop fuel p' data

/-- `parse_ipv6` -/
def parseIpv6 : CString → Option (Option (List UInt8 × CString))
  | 91 :: data => ipv6Loop data.length {} data
  | _ => some none

/-- The loop of `parse_ipv4`, with `left` numbers to come after this one. -/
def ipv4Loop : ℕ → ℤ → CString → Option (UInt32 × CString)
  | left, x, data =>
    match number data with
    | none => none
    | some (y, rest) =>
      if y ≤ 255 then
        let x := UInt32.ofInt x <<< 8 ||| UInt32.ofInt y
        match left, rest with
        | 0, rest => some (x, rest)
        | left + 1, 46 :: rest => ipv4Loop left (x.toNat : ℤ) rest
        | _ + 1, _ => none
      else none

/-- `parse_ipv4` -/
def parseIpv4 (data : CString) : Option (UInt32 × CString) := ipv4Loop 3 0 data

/-- `Address` -/
inductive Address
  | ipv4 (ip : UInt32) (port : UInt16)
  | ipv6 (ip : List UInt8) (port : UInt16)
deriving DecidableEq, Repr

/-- `parse_address` -/
def parseAddress (port : ℤ) (data : CString) : Option (Option (Address × CString)) :=
  match data with
  | 91 :: _ => (parseIpv6 data).map fun r =>
    r.map fun (ip, rest) => (.ipv6 ip (UInt16.ofInt port), rest)
  | _ => some ((parseIpv4 data).map fun (ip, rest) => (.ipv4 ip (UInt16.ofInt port), rest))

/-- `set_port` -/
def Address.setPort : Address → ℤ → Address
  | .ipv4 ip _, port => .ipv4 ip (UInt16.ofInt port)
  | .ipv6 ip _, port => .ipv6 ip (UInt16.ofInt port)

/-! ## Parsing -/

/-- `Uri` -/
structure Uri where
  scheme : Option CString := none
  name : Option CString := none
  path : CString := []
  query : Option CString := none
  host : Option Address := none
  port : ℤ := 0
deriving DecidableEq, Repr

/-- What a string is up to its end. -/
def upToNul (s : CString) : CString := s.takeWhile (· ≠ 0)

/-- `alpha` -/
def alpha (c : UInt8) : Bool := (97 ≤ c ∧ c ≤ 122) ∨ (65 ≤ c ∧ c ≤ 90)

/-- The characters `pchar` copies. -/
def copied (c : UInt8) : Bool :=
  alpha c ∨ (38 ≤ c ∧ c ≤ 59) ∨ c = 61 ∨ c = 33 ∨ c = 36 ∨ c = 64 ∨ c = 95 ∨ c = 126

/-- `pchar` -/
def pchar : CString → Option (UInt8 × CString)
  | [] => none
  | c :: data =>
    if copied c then some (c, data)
    else if c = 37 then
      match data with
      | x :: y :: data =>
        (hex4 x).bind fun x => (hex4 y).map fun y => (UInt8.ofNat (x <<< 4 ||| y), data)
      | _ => none
    else none

/-- The loop of `parse_host`: the name, and what it ends at. -/
def hostLoop : ℕ → CString → CString × CString
  | 0, data => ([], data)
  | fuel + 1, data =>
    if data.head? = some 64 ∨ data.head? = some 58 then ([], data)
    else
      match pchar data with
      | none => ([], data)
      | some (b, rest) => let (name, last) := hostLoop fuel rest; (b :: name, last)

/-- The first half of `parse_host`: an address, or a name where there is none. -/
def hostName (uri : Uri) (data : CString) : Option (Uri × CString) :=
  (parseAddress uri.port data).map fun r =>
    match r with
    | some (address, last) => ({ uri with host := some address }, last)
    | none =>
      let (name, last) := hostLoop data.length data
      (if name = [] then uri else { uri with name := some (upToNul name) }, last)

/-- The second half of `parse_host`: the port after a colon. -/
def hostPort (uri : Uri) : CString → Uri × CString
  | 58 :: data =>
    -- number_q
    let (port, data) := (number data).getD (uri.port, data)
    ({ uri with port := port, host := uri.host.map fun a => a.setPort port }, data)
  | data => (uri, data)

/-- `parse_host` -/
def parseHost (uri : Uri) (data : CString) : Option (Uri × CString) :=
  (hostName uri data).map fun (uri, last) => hostPort uri last

/-- The loop of states 6 and 7 of `parse_uri`: a path ends at a `?`, which a query may contain,
and both copy a `/` as `pchar` does. -/
def componentLoop (query : Bool) : ℕ → CString → Option (CString × CString)
  | 0, _ => none
  | _ + 1, [] => some ([], [])
  | fuel + 1, c :: data =>
    if c = 63 then
      if query then (componentLoop query fuel data).map fun (s, rest) => (c :: s, rest)
      else some ([], c :: data)
    else if c = 0 ∨ ws c then some ([], c :: data)
    else
      (pchar (c :: data)).bind fun (b, rest) =>
        (componentLoop query fuel rest).map fun (s, rest) => (b :: s, rest)

/-- States 5 to 7 of `parse_uri`: the path and the query. -/
def parsePath (uri : Uri) (data : CString) : Option Uri := do
  let (path, rest) ← componentLoop false (data.length + 1) data
  match rest with
  | 63 :: rest =>
    let (query, _) ← componentLoop true (rest.length + 1) rest
    some { uri with path := upToNul path, query := some (upToNul query) }
  | _ => some { uri with path := upToNul path, query := none }

/-- State 1 of `parse_uri`: the scheme, and what follows its colon. -/
def schemeLoop : CString → Option (CString × CString)
  | [] => none
  | c :: data =>
    if c = 58 then some ([], data)
    else if alpha c ∨ digit c ∨ c = 43 ∨ c = 45 ∨ c = 46 then
      (schemeLoop data).map fun (s, rest) => (c :: s, rest)
    else none

/-- The port of a scheme. -/
def schemePort (scheme : CString) (port : ℤ) : ℤ :=
  if scheme = chars ['h', 't', 't', 'p'] then 80
  else if scheme = chars ['h', 't', 't', 'p', 's'] then 443
  else port

/-- States 2 to 4 of `parse_uri`: the host after `//`, and the text of the path. -/
def hierPart (uri : Uri) : CString → Option (Uri × CString)
  | 47 :: 47 :: data => parseHost uri data
  | data => some (uri, data)

/-- States 0 to 4 of `parse_uri`. -/
def uriFront (uri : Uri) (data : CString) : Option (Option (Uri × CString)) :=
  match data with
  | [] => some none
  | c :: _ =>
    if c = 47 then
      if uri.scheme = none then some none else (hierPart uri data).map some
    else if alpha c then
      match schemeLoop data with
      | none => some none
      | some (scheme, rest) =>
        let port := schemePort scheme uri.port
        (hierPart { uri with scheme := some scheme, port := port } rest).map some
    else some none

/-- `parse_uri` -/
def parseUri (uri : Uri) (data : CString) : Option (Option Uri) :=
  (uriFront { uri with name := none, path := [], query := none, host := none } data).map fun r =>
    r.bind fun (uri, text) => parsePath uri text

/-- `uri_parse` -/
def uriParse (uri : Uri) (href : CString) (length : ℕ) : Option (Option Uri) :=
  if href.length > length then some none else parseUri uri href

/-- What `http_parse_uri` takes from a connection. -/
def connUri (secure : Bool) : Uri :=
  if secure then { scheme := some (chars ['h', 't', 't', 'p', 's']), port := 443 }
  else { scheme := some (chars ['h', 't', 't', 'p']), port := 80 }

/-- `http_parse_uri`, on a connection. -/
def httpParseUri (secure : Bool) (href : CString) (length : ℕ) : Option (Option Uri) :=
  uriParse (connUri secure) href length

/-- `request_target`, with the `Uri` of the last message. -/
def requestTargetUri (uri : Uri) (data : CString) : Option (Option Uri) :=
  if data.length > 255 then some none
  else if data.head? = some 47 then
    some (parsePath { uri with name := none, path := [], query := none, host := none } data)
  else parseUri uri data

end SeClient
