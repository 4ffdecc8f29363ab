import SeClient.ExiValues
import SeClient.Strings

/-!
# Values from the bits of an EXI document

What the EXI parser reads from, with the functions of `exi_parse.c`.  `parse_literal` reads as many
characters as the literal has bytes in UTF-8, so that a string may be written beyond its container.
-/

namespace SeClient

namespace InBits
variable (sh : IntShift)

/-- The loop of `parse_binary`. -/
def parseBytes : ℕ → InBits → List UInt8 × InBits
  | 0, p => ([], p)
  | m + 1, p =>
    let (b, p) := p.parseByte
    let (bytes, p) := parseBytes m p
    (b :: bytes, p)

/-- `parse_binary`, into the last bytes of a container of `n`. -/
def parseBinary (p : InBits) (n : ℕ) : ExiScalar InBits :=
  let (m, p) := p.parseUint sh
  let m := m.toNat
  if p.truncated then { ok := false, rest := p }
  else if m > n then { ok := false, invalid := true, rest := p }
  else if p.lacks (if p.bit ≠ 0 then m + 1 else m) then { ok := false, rest := p.truncate }
  else
    let (bytes, p) := parseBytes m p
    { ok := true, value := some (.binary (List.replicate (n - m) 0 ++ bytes)), rest := p }

/-- The bytes that `exi_utf8_length` counts, where it does. -/
def Utf8Length.bytes : Utf8Length → ℕ
  | .done length => length
  | _ => 0

/-- Where the bytes of a literal go, with their NUL, that its container does not hold: one of `n`
bytes, or, where that is 0, one of `m + 1` that is allocated.  With no bytes the pointer is NULL. -/
def literalSpill (n m : ℕ) : Option (List UInt8) → Option Spill
  | none => some .elsewhere
  | some bytes =>
    if n ≠ 0 then
      if n ≤ bytes.length then some (.behind n (bytes.length + 1 - n)) else none
    else if m < bytes.length then some .elsewhere
    else none

theorem literalSpill_none {n m : ℕ} {bytes : List UInt8} :
    literalSpill n m (some bytes) = none ↔ bytes.length < if n ≠ 0 then n else m + 1 := by
  unfold literalSpill
  dsimp only
  split_ifs with hn hbytes hbytes
  · exact ⟨False.elim, fun h => absurd hbytes (Nat.not_le.mpr h)⟩
  · exact ⟨fun _ => Nat.lt_of_not_le hbytes, fun _ => rfl⟩
  · exact ⟨False.elim, fun h => absurd hbytes (by omega)⟩
  · exact ⟨fun _ => by omega, fun _ => rfl⟩

/-- What the literal at this place writes beyond a container of `n` bytes. -/
def spill (p : InBits) (n : ℕ) : Option Spill :=
  let (k, q) := p.parseUint sh
  let k := k.toNat % 2 ^ 32
  if q.truncated ∨ k < 2 then none
  else
    match q.exiUtf8Length 0 (k - 2) with
    | .done m =>
      if n ≠ 0 ∧ m ≥ n then none else literalSpill n m ((q.parseLiteral sh m).map Prod.fst)
    | _ => none

end InBits

namespace ExiInput
variable (sh : IntShift)

/-- The end of `exi_parse_string`, of a literal that its container does not hold. -/
def overrun (p : ExiInput) (name : ℕ) (spill : Spill) : ExiScalar ExiInput :=
  let (k, q) := p.input.parseUint sh
  match q.parseLiteral sh (q.exiUtf8Length 0 (k.toNat % 2 ^ 32 - 2)).bytes with
  | none => { ok := false, spill := some spill, rest := p }
  | some (bytes, q) =>
    let s := bytes.takeWhile (· ≠ 0)
    let locals :=
      if (findTable p.locals name).isSome then p.locals else newStringTable p.locals name
    { ok := true
      value := some (.text s)
      spill := some spill
      rest := { p with
        input := q
        locals := addString locals name s
        globals := p.globals.add s } }

/-- `exi_parse_string`, with what it writes beyond a container of `n` bytes. -/
def storeString (p : ExiInput) (name n : ℕ) : ExiScalar ExiInput :=
  match p.input.spill sh n with
  | some spill => p.overrun sh name spill
  | none =>
    match { p with invalid := false }.exiParseString sh name n with
    | some (s, q) =>
      { ok := s.isSome
        invalid := q.invalid
        value := s.map .text
        rest := { q with invalid := false } }
    | none => { ok := false, rest := p }

/-- **A string is written beyond its container** where its literal says so. -/
theorem exiParseString_isSome (p : ExiInput) (name n : ℕ) :
    (p.exiParseString sh name n).isSome = true ↔ p.input.spill sh n = none := by
  unfold exiParseString InBits.spill
  rcases p.input.parseUint sh with ⟨k, q⟩
  dsimp only
  cases htruncated : q.truncated with
  | true => simp
  | false =>
    have hne : ¬(false = true) := Bool.false_ne_true
    rw [if_neg hne]
    rcases hk : k.toNat % 2 ^ 32 with _ | _ | k
    · rw [if_pos (Or.inr (by omega))]
      exact ⟨fun _ => rfl, fun _ => rfl⟩
    · rw [if_pos (Or.inr (by omega))]
      exact ⟨fun _ => rfl, fun _ => rfl⟩
    · rw [if_neg (by simp), show k + 1 + 1 - 2 = k by omega]
      show (parseLiteralValue sh { p with input := q } p.input name n k).isSome = true ↔ _
      unfold parseLiteralValue
      dsimp only
      cases q.exiUtf8Length 0 k with
      | truncated => exact ⟨fun _ => rfl, fun _ => rfl⟩
      | invalid => exact ⟨fun _ => rfl, fun _ => rfl⟩
      | done m =>
        dsimp only
        by_cases hroom : n ≠ 0 ∧ m ≥ n
        · rw [if_pos hroom, if_pos hroom]
          exact ⟨fun _ => rfl, fun _ => rfl⟩
        · rw [if_neg hroom, if_neg hroom]
          cases q.parseLiteral sh m with
          | none =>
            exact ⟨fun h => absurd h Bool.false_ne_true, fun h => absurd h (Option.some_ne_none _)⟩
          | some r =>
            rw [Option.map_some, InBits.literalSpill_none]
            dsimp only
            by_cases hfits : (if n ≠ 0 then n else m + 1) ≤ r.1.length
            · rw [if_pos hfits]
              exact ⟨fun h => absurd h Bool.false_ne_true, fun h => absurd hfits (by omega)⟩
            · rw [if_neg hfits]
              exact ⟨fun _ => Nat.lt_of_not_le hfits, fun _ => rfl⟩

/-- The literal `é`, of one character and two bytes. -/
example : InBits.spill IntShift.x86 ⟨[3, 0xe9, 0x01, 0], 0, false⟩ 0 = some .elsewhere := by
  decide +kernel

/-- **What `exi_parse_string` returns** where it keeps to its container. -/
theorem storeString_eq {p : ExiInput} {name n : ℕ} {s : Option CString} {q : ExiInput}
    (hvalid : p.invalid = false) (h : p.exiParseString sh name n = some (s, q)) :
    p.storeString sh name n =
      { ok := s.isSome, invalid := q.invalid, value := s.map .text
        rest := { q with invalid := false } } := by
  have hspill := (exiParseString_isSome sh p name n).mp (by rw [h]; rfl)
  have hp : { p with invalid := false } = p := by rw [← hvalid]
  unfold storeString
  rw [hspill]
  dsimp only
  rw [hp, h]

/-- `exi_parse_header`.  What a `schemaId` does that is longer than the 64 bytes it is written to
is `lost`. -/
def exiParseHeader (lost : ExiInput → ExiRead ExiInput) (schemaId : CString) (p : ExiInput) :
    ExiRead ExiInput :=
  let marked := p.input.rest.take 4 = [36, 69, 88, 73]
  let input := if marked then { p.input with rest := p.input.rest.drop 4 } else p.input
  if input.lacks 5 then { ok := false, rest := { p with input := input.truncate } }
  else
    let c := input.byte 0
    let input := { input with rest := input.rest.drop 1 }
    if c = 0xa0 then
      let (x, input) := input.parseBits 6
      let (n, input) := input.parseUint sh
      -- `n` is an `int`: a negative one is below 64, and `parse_literal` counts it down.
      let n := n.toNat % 2 ^ 32
      if n = 1 ∨ n ≥ 2 ^ 31 then lost { p with input := input }
      else if n ≠ 0 ∧ n < 64 then
        match input.parseLiteral sh (n - 2) with
        | none => lost { p with input := input }
        | some (bytes, input) =>
          if bytes.length ≥ 64 then lost { p with input := input }
          else if x = 0xc ∧ bytes.takeWhile (· ≠ 0) = schemaId then
            let (bit, input) := input.parseBit
            { ok := bit ≠ 0, rest := { p with input := input } }
          else { ok := false, invalid := true, rest := { p with input := input } }
      else { ok := false, invalid := true, rest := { p with input := input } }
    else { ok := false, invalid := true, rest := { p with input := input } }

end ExiInput

/-- **The bits of an EXI document.** -/
def exiBits (S : Schema) (sh : IntShift) (lost : ExiInput → ExiRead ExiInput) :
    ExiBits ExiInput where
  bits n p := ((p.input.parseBits n).1, { p with input := (p.input.parseBits n).2 })
  bit p := (p.input.parseBit.1, { p with input := p.input.parseBit.2 })
  integer p := ((p.input.parseInteger sh).1.toInt, { p with input := (p.input.parseInteger sh).2 })
  uint p := ((p.input.parseUint sh).1.toNat, { p with input := (p.input.parseUint sh).2 })
  string i n p := p.storeString sh (S.seName i) n
  binary n p :=
    let r := p.input.parseBinary sh n
    { ok := r.ok, invalid := r.invalid, value := r.value, rest := { p with input := r.rest } }
  truncated p := p.input.truncated
  header := ExiInput.exiParseHeader sh lost S.schemaId
  done p := { p with globals := ⟨none, []⟩, locals := [] }

section Values
variable (S : Schema) (sh : IntShift) (lost : ExiInput → ExiRead ExiInput)

/-- The size of the container in which the string of an entry is stored, 0 for one that is
allocated; `none` for the entries of other types. -/
def SchemaElement.stringSize (se : SchemaElement) : Option ℕ :=
  match se.xsType with
  | .string => some se.xsLength
  | .anyURI => some 0
  | _ => none

/-- What a value writes beyond its container is what a string does. -/
theorem exiValue_spilled {i : ℕ} {p : ExiInput} {spill : Spill} :
    (∃ v, (exiValue S (exiBits S sh lost) i p).stored = .spilled v spill) ↔
      ∃ n, (S.element i).stringSize = some n ∧ p.input.spill sh n = some spill := by
  have hstring : ∀ n, (∃ v, (p.storeString sh (S.seName i) n).read.stored = .spilled v spill) ↔
      p.input.spill sh n = some spill := by
    intro n
    unfold ExiInput.storeString
    cases hspill : p.input.spill sh n with
    | some place =>
      have hplace : (p.overrun sh (S.seName i) place).spill = some place := by
        unfold ExiInput.overrun
        dsimp only
        split <;> rfl
      unfold ExiScalar.read
      dsimp only
      rw [hplace]
      constructor
      · rintro ⟨v, h⟩
        exact congrArg some (Stored.spilled.inj h).2
      · intro h
        exact ⟨_, congrArg _ (Option.some.inj h)⟩
    | none =>
      refine ⟨?_, fun h => absurd h.symm (Option.some_ne_none _)⟩
      rintro ⟨v, h⟩
      dsimp only at h
      split at h
      · rename_i s q hread
        cases s with
        | none => cases h
        | some s => cases h
      · cases h
  unfold SchemaElement.stringSize exiValue
  dsimp only
  cases htype : (S.element i).xsType with
  | string =>
    refine (hstring (S.element i).xsLength).trans ⟨fun h => ⟨_, rfl, h⟩, ?_⟩
    rintro ⟨n, hn, h⟩
    rwa [← Option.some.inj hn] at h
  | anyURI =>
    refine (hstring 0).trans ⟨fun h => ⟨_, rfl, h⟩, ?_⟩
    rintro ⟨n, hn, h⟩
    rwa [← Option.some.inj hn] at h
  | boolean =>
    dsimp only
    constructor
    · rintro ⟨v, h⟩
      split_ifs at h
    · rintro ⟨n, h, -⟩
      cases h
  | hexBinary =>
    dsimp only
    constructor
    · rintro ⟨v, h⟩
      unfold ExiScalar.read at h
      dsimp only [exiBits] at h
      split at h
      · rename_i hspill
        cases hspill
      · cases h
      · cases h
    · rintro ⟨n, h, -⟩
      cases h
  | _ =>
    constructor
    · rintro ⟨v, h⟩
      cases h
    · rintro ⟨n, h, -⟩
      cases h

end Values
end SeClient
