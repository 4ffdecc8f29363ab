import Mathlib.Data.Nat.Digits.Lemmas
import SeClient.Targets
import SeClient.UriWriting

/-!
# The buffers of requests

`get_seq` writes the URI of a request into 64 bytes, `http_get` and `http_delete` write the request
into 256, and nothing compares what is written with the room there is.  What is written is as wide
as the name of the Stub, the numbers of the query, the address of the host and the `Accept` field
are together.
-/

namespace SeClient

/-! ## What a request is made of -/

/-- `struct tm`, as the date shows it. -/
structure Tm where
  weekday : Fin 7
  day : Fin 32
  month : Fin 12
  year : ℤ
  hour : Fin 24
  minute : Fin 60
  second : Fin 61

/-- `%a` -/
def weekdayText : Fin 7 → CString
  | 0 => chars ['S', 'u', 'n']
  | 1 => chars ['M', 'o', 'n']
  | 2 => chars ['T', 'u', 'e']
  | 3 => chars ['W', 'e', 'd']
  | 4 => chars ['T', 'h', 'u']
  | 5 => chars ['F', 'r', 'i']
  | 6 => chars ['S', 'a', 't']

/-- `%b` -/
def monthText : Fin 12 → CString
  | 0 => chars ['J', 'a', 'n']
  | 1 => chars ['F', 'e', 'b']
  | 2 => chars ['M', 'a', 'r']
  | 3 => chars ['A', 'p', 'r']
  | 4 => chars ['M', 'a', 'y']
  | 5 => chars ['J', 'u', 'n']
  | 6 => chars ['J', 'u', 'l']
  | 7 => chars ['A', 'u', 'g']
  | 8 => chars ['S', 'e', 'p']
  | 9 => chars ['O', 'c', 't']
  | 10 => chars ['N', 'o', 'v']
  | 11 => chars ['D', 'e', 'c']

/-- `%d`, `%H`, `%M` and `%S` -/
def twoDigits (n : ℕ) : CString := [UInt8.ofNat (48 + n / 10), UInt8.ofNat (48 + n % 10)]

/-- `http_date` -/
def httpDate (tm : Tm) : CString :=
  chars ['D', 'a', 't', 'e', ':', ' '] ++ weekdayText tm.weekday ++ chars [',', ' '] ++
    twoDigits tm.day ++ chars [' '] ++ monthText tm.month ++ chars [' '] ++
    decimalText tm.year ++ chars [' '] ++ twoDigits tm.hour ++ chars [':'] ++
    twoDigits tm.minute ++ chars [':'] ++ twoDigits tm.second ++
    chars [' ', 'G', 'M', 'T', '\r', '\n']

/-- `se_media` -/
inductive SeMedia
  | xml
  | exi

/-- What `new_conn` says is accepted. -/
def SeMedia.accept : SeMedia → CString
  | .xml => chars ['a', 'p', 'p', 'l', 'i', 'c', 'a', 't', 'i', 'o', 'n', '/', 's', 'e', 'p', '+',
      'x', 'm', 'l', ';', ' ', 'l', 'e', 'v', 'e', 'l', '=', '-', 'S', '1']
  | .exi => chars ['a', 'p', 'p', 'l', 'i', 'c', 'a', 't', 'i', 'o', 'n', '/', 's', 'e', 'p', '-',
      'e', 'x', 'i', ';', ' ', 'l', 'e', 'v', 'e', 'l', '=', '-', 'S', '1', ',', ' ',
      'a', 'p', 'p', 'l', 'i', 'c', 'a', 't', 'i', 'o', 'n', '/', 's', 'e', 'p', '+',
      'x', 'm', 'l', ';', ' ', 'l', 'e', 'v', 'e', 'l', '=', '-', 'S', '1']

/-- The texts of a request on a connection of `new_conn` to a host. -/
def requestTexts (media : SeMedia) (host : Address) (tm : Tm) : RequestTexts where
  version := chars ['H', 'T', 'T', 'P', '/', '1', '.', '1']
  date := httpDate tm
  host := writeAddressPort host
  accept := media.accept

/-- `http_delete`: what is written, `none` when it does not fit `buffer`. -/
def httpDelete (r : RequestTexts) (uri : CString) : Option CString :=
  let text := httpRequest r uri (chars ['D', 'E', 'L', 'E', 'T', 'E']) ++ [13, 10]
  if text.length < 256 then some text else none

/-- The buffers suffice for the requests of a Stub: for that of `count` items from `offset` on, and
for its deletion. -/
def BuffersSuffice (name : CString) (offset count : ℤ) (media : SeMedia) (host : Address)
    (tm : Tm) : Prop :=
  (∃ uri, seqUri name offset count = some uri ∧ httpGet (requestTexts media host tm) uri ≠ none) ∧
    httpDelete (requestTexts media host tm) name ≠ none

/-! ## Widths -/

/-- The width of a number in decimal. -/
def decimalWidth (z : ℤ) : ℕ := (if z < 0 then 1 else 0) + (Nat.log 10 z.natAbs + 1)

/-- The width of the query: as that of `?s=` and `&l=`, or `?l=`, and the numbers behind them. -/
def queryWidth (offset count : ℤ) : ℕ :=
  if count = 0 then 0
  else if offset ≠ 0 then 6 + decimalWidth offset + decimalWidth (min count 255)
  else 3 + decimalWidth (min count 255)

/-- The width of hexadecimal groups, with the colons between them. -/
def groupsWidth (groups : List ℕ) : ℕ :=
  (groups.map fun x => Nat.log 16 x + 2).sum - 1

/-- The width of an IPv6 address: that of the groups in front of the first zeros, that of the groups
behind them, and two colons, unless there are groups in front only. -/
def ipv6Width (groups : List ℕ) : ℕ :=
  let left := groups.takeWhile (· ≠ 0)
  let right := (groups.dropWhile (· ≠ 0)).dropWhile (· = 0)
  groupsWidth left + (if right = [] ∧ left ≠ [] then 0 else 2) + groupsWidth right

/-- The width of an address. -/
def hostWidth : Address → ℕ
  | .ipv4 ip _ => decimalWidth (ip >>> 8 >>> 8 >>> 8).toUInt8.toNat +
      decimalWidth (ip >>> 8 >>> 8).toUInt8.toNat + decimalWidth (ip >>> 8).toUInt8.toNat +
      decimalWidth ip.toUInt8.toNat + 3
  | .ipv6 ip _ => ipv6Width (hostGroups ip) + 2

/-- The width of an address and its port. -/
def addressWidth (host : Address) : ℕ := hostWidth host + 1 + decimalWidth host.port.toNat

/-- The width of the `Accept` field. -/
def SeMedia.width : SeMedia → ℕ
  | .xml => 30
  | .exi => 62

/-- The sums of the widths are within the buffers: 63 bytes for a URI with a query, and 255 for
the requests, of which `GET` takes 68 for the rest and `DELETE` three more. -/
def WidthsFit (name : CString) (offset count : ℤ) (media : SeMedia) (host : Address) (tm : Tm) :
    Prop :=
  (count ≠ 0 → name.length + queryWidth offset count ≤ 63) ∧
    name.length + queryWidth offset count + addressWidth host + media.width +
      decimalWidth tm.year + 68 ≤ 255 ∧
    name.length + addressWidth host + media.width + decimalWidth tm.year + 71 ≤ 255

section
variable {name uri method : CString} {offset count : ℤ} {media : SeMedia} {host : Address} {tm : Tm}

theorem length_decimalText (z : ℤ) : (decimalText z).length = decimalWidth z := by
  have hdigits : (if z.natAbs = 0 then [48] else
      (Nat.digits 10 z.natAbs).reverse.map fun d => UInt8.ofNat (48 + d)).length =
      Nat.log 10 z.natAbs + 1 := by
    by_cases hz : z.natAbs = 0
    · rw [if_pos hz, hz, Nat.log_zero_right]
      rfl
    · rw [if_neg hz, List.length_map, List.length_reverse, Nat.length_digits 10 _ (by decide) hz]
  unfold decimalText decimalWidth
  dsimp only
  by_cases hneg : z < 0
  · rw [if_pos hneg, if_pos hneg, List.length_cons, hdigits, Nat.add_comm]
  · rw [if_neg hneg, if_neg hneg, hdigits, Nat.zero_add]

theorem length_seqQuery (offset count : ℤ) :
    (seqQuery offset count).length = queryWidth offset count := by
  unfold seqQuery queryWidth
  by_cases hcount : count = 0
  · rw [if_pos hcount, if_pos hcount]
    rfl
  · rw [if_neg hcount, if_neg hcount]
    dsimp only
    by_cases hoffset : offset ≠ 0
    · rw [if_pos hoffset, if_pos hoffset]
      simp only [List.length_append, length_decimalText]
      simp only [chars, List.length_map, List.length_cons, List.length_nil]
      omega
    · rw [if_neg hoffset, if_neg hoffset, List.length_append, length_decimalText]
      rfl

/-! ### Addresses -/

theorem length_hexText (x : ℕ) : (hexText x).length = Nat.log 16 x + 1 := by
  unfold hexText
  by_cases hx : x = 0
  · rw [if_pos hx, hx, Nat.log_zero_right]
    rfl
  · rw [if_neg hx, List.length_map, List.length_reverse, Nat.length_digits 16 _ (by decide) hx]

theorem length_colons (groups : List ℕ) :
    (colons (groups.map hexText)).length = groupsWidth groups := by
  unfold groupsWidth
  cases groups with
  | nil => rfl
  | cons x groups =>
    rw [List.map_cons, colons_flat, List.length_append, length_hexText, List.length_flatMap,
      List.map_map, List.map_cons, List.sum_cons]
    have hmap : (groups.map ((fun s : CString => (58 :: s).length) ∘ hexText)) =
        groups.map fun x => Nat.log 16 x + 2 := by
      refine List.map_congr_left fun y _ => ?_
      show (58 :: hexText y).length = _
      rw [List.length_cons, length_hexText]
    rw [hmap]
    omega

theorem length_writeIpv6 (ip : List UInt8) :
    (writeIpv6 ip).length = ipv6Width (hostGroups ip) + 2 := by
  have hsplit := List.takeWhile_append_dropWhile (p := fun x : ℕ => decide (x ≠ 0))
    (l := hostGroups ip)
  have hl : ∀ x ∈ (hostGroups ip).takeWhile (· ≠ 0), x ≠ 0 := fun x hx =>
    of_decide_eq_true (List.mem_takeWhile_imp (p := fun x : ℕ => decide (x ≠ 0)) hx)
  unfold ipv6Width
  dsimp only
  rcases zeros_split (hostGroups ip) with hrest | ⟨z, r, hrest, hdrop, hr⟩
  · rw [hrest, List.append_nil] at hsplit
    rw [hrest, hsplit]
    rw [hsplit] at hl
    by_cases hnil : hostGroups ip = []
    · have htext : writeIpv6 ip = [91, 58, 58, 93] := by
        unfold writeIpv6
        rw [hnil]
        rfl
      rw [htext, hnil]
      rfl
    · rw [writeIpv6_full hl hnil, List.length_cons, List.length_append, length_colons,
        if_pos ⟨rfl, hnil⟩]
      rfl
  · rw [hrest] at hsplit
    rw [writeIpv6_gap hsplit.symm hl hr, hdrop]
    split_ifs with hend
    · rw [List.length_cons, List.length_append, length_colons, hend.1]
      rfl
    · simp only [List.length_cons, List.length_append, List.length_nil, length_colons]
      omega

theorem length_writeAddress (host : Address) : (writeAddress host).length = hostWidth host := by
  cases host with
  | ipv4 ip port =>
    unfold writeAddress writeIpv4 hostWidth
    simp only [List.length_append, List.length_cons, length_decimalText]
    omega
  | ipv6 ip port => exact length_writeIpv6 ip

theorem length_writeAddressPort (host : Address) :
    (writeAddressPort host).length = addressWidth host := by
  unfold writeAddressPort addressWidth
  rw [List.length_append, List.length_cons, length_decimalText, length_writeAddress,
    Nat.add_right_comm, Nat.add_assoc]

/-! ### Requests -/

theorem length_httpDate (tm : Tm) : (httpDate tm).length = 33 + decimalWidth tm.year := by
  have hweekday : (weekdayText tm.weekday).length = 3 := by
    generalize tm.weekday = w
    revert w
    decide
  have hmonth : (monthText tm.month).length = 3 := by
    generalize tm.month = w
    revert w
    decide
  unfold httpDate
  simp only [List.length_append, length_decimalText, hweekday, hmonth]
  simp only [chars, twoDigits, List.length_map, List.length_cons, List.length_nil]
  omega

theorem SeMedia.length_accept (media : SeMedia) : media.accept.length = media.width := by
  cases media <;> rfl

theorem length_httpRequest : (httpRequest (requestTexts media host tm) uri method).length =
    method.length + uri.length + addressWidth host + media.width + decimalWidth tm.year + 63 := by
  unfold httpRequest requestLineText requestTexts
  simp only [List.length_append, List.length_cons, length_httpDate, length_writeAddressPort,
    SeMedia.length_accept]
  simp only [chars, List.length_map, List.length_cons, List.length_nil]
  omega

theorem httpGet_fits : httpGet (requestTexts media host tm) uri ≠ none ↔
    uri.length + addressWidth host + media.width + decimalWidth tm.year + 68 ≤ 255 := by
  have hlength : (httpRequest (requestTexts media host tm) uri (chars ['G', 'E', 'T']) ++
      [13, 10]).length = uri.length + addressWidth host + media.width + decimalWidth tm.year + 68 := by
    rw [List.length_append, length_httpRequest]
    simp only [chars, List.length_map, List.length_cons, List.length_nil]
    omega
  unfold httpGet
  dsimp only
  rw [hlength]
  split
  · exact iff_of_true (Option.some_ne_none _) (by omega)
  · exact iff_of_false (fun h => h rfl) (by omega)

theorem httpDelete_fits : httpDelete (requestTexts media host tm) uri ≠ none ↔
    uri.length + addressWidth host + media.width + decimalWidth tm.year + 71 ≤ 255 := by
  have hlength : (httpRequest (requestTexts media host tm) uri
      (chars ['D', 'E', 'L', 'E', 'T', 'E']) ++ [13, 10]).length =
      uri.length + addressWidth host + media.width + decimalWidth tm.year + 71 := by
    rw [List.length_append, length_httpRequest]
    simp only [chars, List.length_map, List.length_cons, List.length_nil]
    omega
  unfold httpDelete
  dsimp only
  rw [hlength]
  split
  · exact iff_of_true (Option.some_ne_none _) (by omega)
  · exact iff_of_false (fun h => h rfl) (by omega)

theorem seqUri_eq_some : seqUri name offset count = some uri ↔
    uri = name ++ seqQuery offset count ∧
      (count ≠ 0 → name.length + queryWidth offset count ≤ 63) := by
  unfold seqUri
  dsimp only
  rw [List.length_append, length_seqQuery]
  split_ifs with h
  · constructor
    · intro huri
      refine ⟨(Option.some.inj huri).symm, fun hcount => ?_⟩
      have := h.resolve_left hcount
      omega
    · rintro ⟨rfl, -⟩
      rfl
  · obtain ⟨hcount, hlong⟩ := not_or.mp h
    refine iff_of_false (fun huri => by cases huri) fun huri => hlong ?_
    have := huri.2 hcount
    omega

/-- **The buffers suffice** exactly where the sums of the widths are within them. -/
theorem buffersSuffice_iff (name : CString) (offset count : ℤ) (media : SeMedia) (host : Address)
    (tm : Tm) : BuffersSuffice name offset count media host tm ↔
      WidthsFit name offset count media host tm := by
  unfold BuffersSuffice WidthsFit
  rw [httpDelete_fits, ← and_assoc]
  refine and_congr ⟨?_, ?_⟩ Iff.rfl
  · rintro ⟨uri, huri, hget⟩
    obtain ⟨rfl, hshort⟩ := seqUri_eq_some.mp huri
    rw [httpGet_fits, List.length_append, length_seqQuery] at hget
    exact ⟨hshort, hget⟩
  · rintro ⟨hshort, hget⟩
    refine ⟨_, seqUri_eq_some.mpr ⟨rfl, hshort⟩, ?_⟩
    rw [httpGet_fits, List.length_append, length_seqQuery]
    exact hget

end

/-- A name of 61 bytes: with `?l=255` the URI takes four bytes more than there are. -/
theorem not_buffersSuffice : ¬BuffersSuffice (47 :: List.replicate 60 97) 0 255 .xml
    (.ipv4 0x7f000001 80) ⟨4, 1, 0, 2026, 12, 0, 0⟩ := by
  rintro ⟨⟨uri, huri, -⟩, -⟩
  have hfits := (seqUri_eq_some.mp huri).2 (by decide)
  have hlog : Nat.log 10 255 = 2 := (Nat.log_eq_iff (Or.inl (by decide))).mpr (by decide)
  have hwidth : queryWidth 0 255 = 3 + (0 + (Nat.log 10 255 + 1)) := rfl
  rw [List.length_cons, List.length_replicate, hwidth, hlog] at hfits
  omega

end SeClient
