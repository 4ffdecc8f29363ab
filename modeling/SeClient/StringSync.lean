import SeClient.Strings
import Mathlib.Data.List.Nodup
import Mathlib.Data.List.TakeWhile

/-!
# The string tables of the two sides

The encoder enters a string into the table of its element also when it writes a
reference into the global table; the decoder does not.  So the tables stay the same
exactly as long as no string is written under two element names.
-/

namespace SeClient
open Bits

/-- The bits of the reference `i` into a table of `n` strings. -/
def refBits (part i n : ℕ) : List Bool := ofNat 8 part ++ ofNat (bitCount (n - 1)) i

/-- The length field of a literal. -/
def literalLength (s : CString) : UInt64 := (Int32.ofNat (utf8Length s + 2)).toInt64.toUInt64

def charBits (s : CString) : List Bool := s.flatMap (fun c => ofNat 8 c.toNat)

/-- The bits of a literal. -/
def literalBits (s : CString) : List Bool := groupBits 10 (literalLength s).toNat ++ charBits s

theorem groupBits_small {f v : ℕ} (h : v < 128) : groupBits (f + 1) v = ofNat 8 v := by
  rw [groupBits_last (Nat.div_eq_of_lt h), Nat.mod_eq_of_lt h]

theorem charBits_cons {c : UInt8} {s : CString} :
    charBits (c :: s) = ofNat 8 c.toNat ++ charBits s := by
  rw [charBits, List.flatMap_cons, charBits]

theorem length_charBits {s : CString} : (charBits s).length = 8 * s.length := by
  induction s with
  | nil => rfl
  | cons c s ih =>
    rw [charBits_cons, List.length_append, length_ofNat, ih, List.length_cons]
    omega

theorem literalLength_of_lt {s : CString} (hs : utf8Length s + 2 < 2 ^ 31) :
    (literalLength s).toNat = utf8Length s + 2 := by
  have hi : (Int32.ofNat (utf8Length s + 2)).toInt64.toInt = (utf8Length s + 2 : ℕ) := by
    rw [Int32.toInt_toInt64, Int32.toInt_ofNat_of_lt hs]
  have hz : (0 : Int64).toInt = 0 := rfl
  have hpos : 0 ≤ (Int32.ofNat (utf8Length s + 2)).toInt64 := by
    rw [Int64.le_iff_toInt_le, hz, hi]
    exact Int.natCast_nonneg _
  rw [literalLength, Int64.toNat_toUInt64_of_le hpos, Int64.toNatClampNeg, hi, Int.toNat_natCast]

theorem toNat_literalLength {s : CString} (ha : Ascii s) (hs : s.length + 2 < 2 ^ 31) :
    (literalLength s).toNat = s.length + 2 := by
  rw [← utf8Length_ascii ha] at hs ⊢
  exact literalLength_of_lt hs

theorem outputUint_small {o : OutBits} {x : UInt64} (hx : x.toNat < 128) :
    o.Appends (o.outputUint x) (ofNat 8 x.toNat) := by
  rw [← groupBits_small (f := 9) hx]
  exact OutBits.outputUint_appends

theorem outputChars_appends {o : OutBits} {fuel : ℕ} {s : CString} (ha : Ascii s)
    (hfuel : s.length ≤ fuel) : o.Appends (OutBits.outputChars fuel o s) (charBits s) := by
  induction fuel generalizing o s with
  | zero =>
    obtain rfl : s = [] := List.length_eq_zero_iff.mp (by omega)
    exact OutBits.Appends.refl
  | succ fuel ih =>
    cases s with
    | nil => exact OutBits.Appends.refl
    | cons c s =>
      have hc := (ha c List.mem_cons_self).2
      have hlt : c.toNat < 128 := hc
      have hx : (UInt64.ofNat c.toNat).toNat = c.toNat :=
        UInt64.toNat_ofNat_of_lt' (hlt.trans (by decide))
      have hd : OutBits.outputChars (fuel + 1) o (c :: s) =
          OutBits.outputChars fuel (o.outputUint (UInt64.ofNat c.toNat)) s := by
        rw [OutBits.outputChars, if_neg (List.cons_ne_nil c s), utf8Char_ascii hc]
      have he := outputUint_small (o := o) (x := UInt64.ofNat c.toNat) (by rw [hx]; exact hlt)
      rw [hx] at he
      rw [hd, charBits_cons]
      exact he.trans (ih ha.tail (by rw [List.length_cons] at hfuel; omega))

theorem exiOutputLiteral_appends {o : OutBits} {s : CString} (ha : Ascii s) :
    o.Appends (o.exiOutputLiteral s) (literalBits s) :=
  OutBits.outputUint_appends.trans (outputChars_appends ha le_rfl)

namespace ExiOutput
variable {o : ExiOutput} {name n i : ℕ} {s : CString} {t : StringTable} {part : UInt64}

theorem compactId_appends (hp : part.toNat < 128) (hi : i < t.strings.length) :
    o.out.Appends (o.compactId part i t).out (refBits part.toNat i t.strings.length) := by
  simp only [compactId, refBits]
  refine (outputUint_small hp).trans ?_
  split_ifs with hb
  · exact OutBits.outputBits_appends (lt_two_pow_bitCount hi)
  · have hz : bitCount (t.strings.length - 1) = 0 := not_not.mp hb
    rw [hz, ofNat_zero]
    exact OutBits.Appends.refl

/-- Where the string stands in the table of its element. -/
def localIndex (o : ExiOutput) (name : ℕ) (s : CString) : Option ℕ :=
  (entries o.locals name).findIdx? (· = s)

theorem localIndex_some (h : o.localIndex name s = some i) :
    i < (entries o.locals name).length ∧ (entries o.locals name)[i]? = some s := by
  rw [localIndex, List.findIdx?_eq_some_iff_getElem] at h
  obtain ⟨hi, hs, _⟩ := h
  exact ⟨hi, by rw [List.getElem?_eq_getElem hi, of_decide_eq_true hs]⟩

theorem localIndex_none : o.localIndex name s = none ↔ s ∉ entries o.locals name := by
  rw [localIndex, List.findIdx?_eq_none_iff]
  constructor
  · intro h hm
    exact absurd (h s hm) (by simp)
  · intro h x hx
    exact decide_eq_false (fun he => h (he ▸ hx))

theorem exiOutputString_local (h : o.localIndex name s = some i) :
    ∃ t : StringTable, t.strings = entries o.locals name ∧
      findTable o.locals name = some t ∧ o.exiOutputString name s = o.compactId 0 i t := by
  rw [localIndex] at h
  rw [exiOutputString]
  cases hf : findTable o.locals name with
  | none =>
    rw [entries_of_find_none hf] at h
    exact absurd h (by simp)
  | some t =>
    rw [entries_of_find hf] at h
    refine ⟨t, (entries_of_find hf).symm, rfl, ?_⟩
    have hs : t.findString s = some i := h
    simp only [hs]

/-- A string its own table lacks is entered there, wherever it is found. -/
theorem exiOutputString_global (h : o.localIndex name s = none) :
    ∃ l, (∀ n, entries l n =
        if n = name then entries o.locals n ++ [s] else entries o.locals n) ∧
      o.exiOutputString name s =
        match o.globals.findString s with
        | some i => { o with locals := l }.compactId 1 i o.globals
        | none => ⟨o.out.exiOutputLiteral s, o.globals.add s, l⟩ := by
  rw [localIndex] at h
  rw [exiOutputString]
  cases hf : findTable o.locals name with
  | none =>
    refine ⟨addString (newStringTable o.locals name) name s, fun n => ?_, rfl⟩
    rw [entries_add findTable_new, entries_new hf]
  | some t =>
    rw [entries_of_find hf] at h
    have hs : t.findString s = none := h
    refine ⟨addString o.locals name s, fun n => ?_, ?_⟩
    · exact entries_add (by rw [hf]; rfl)
    · simp only [hs]
      rfl

/-- The bits `exi_output_string` writes. -/
def stringBits (o : ExiOutput) (name : ℕ) (s : CString) : List Bool :=
  match o.localIndex name s with
  | some i => refBits 0 i (entries o.locals name).length
  | none =>
    match o.globals.findString s with
    | some i => refBits 1 i o.globals.strings.length
    | none => literalBits s

theorem exiOutputString_appends (name : ℕ) (ha : Ascii s) :
    o.out.Appends (o.exiOutputString name s).out (o.stringBits name s) := by
  rw [stringBits]
  cases hl : o.localIndex name s with
  | some i =>
    obtain ⟨t, ht, _, he⟩ := exiOutputString_local hl
    have hi := (localIndex_some hl).1
    rw [← ht] at hi ⊢
    rw [he]
    exact compactId_appends (by decide) hi
  | none =>
    obtain ⟨l, _, he⟩ := exiOutputString_global hl
    rw [he]
    cases hg : o.globals.findString s with
    | some i =>
      obtain ⟨hi, _⟩ := List.getElem?_eq_some_iff.mp (findString_some hg)
      exact compactId_appends (o := { o with locals := l }) (by decide) hi
    | none => exact exiOutputLiteral_appends ha

end ExiOutput

/-! ### Reading the bits back -/

namespace InBits
variable {sh : IntShift} {p : InBits} {c : UInt8} {r : List Bool} {s : CString} {m k : ℕ}

theorem parseUint_small (sh : IntShift) {x : UInt64} (hp : p.Valid) (ht : p.truncated = false)
    (hx : x.toNat < 128) (h : p.bits = ofNat 8 x.toNat ++ r) :
    p.parseUint sh = (x, p.advance 8) := by
  rw [← groupBits_small (f := 9) hx] at h
  rw [parseUint_of_bits hp ht (hx.trans (by decide)) h, groupBits_small hx, length_ofNat]

theorem codeLength_ascii (hp : p.Valid) (hc : c < 128) (h : p.bits = ofNat 8 c.toNat ++ r) :
    codeLength 3 1 p = (some 1, p.advance 8) := by
  have hlt : c.toNat < 128 := hc
  have hmark : ¬ (c &&& 0x80 ≠ 0) := by
    have hm := marked_iff (u := c.toNat) (by omega)
    rw [UInt8.ofNat_toNat] at hm
    rw [hm]
    omega
  obtain ⟨hb, _, _⟩ := parseByte_of_bits hp h
  rw [UInt8.ofNat_toNat] at hb
  rw [codeLength, hb]
  simp only [if_neg hmark]
  rfl

/-- The characters of a literal are one byte each. -/
theorem exiUtf8Length_ascii (hp : p.Valid) (ht : p.truncated = false) (ha : Ascii s)
    (h : p.bits = charBits s ++ r) (hm : m ≤ s.length) :
    p.exiUtf8Length k m = .done (k + m) := by
  induction m generalizing p s k with
  | zero => rfl
  | succ m ih =>
    cases s with
    | nil => exact absurd hm (by simp)
    | cons c s =>
      rw [charBits_cons, List.append_assoc] at h
      obtain ⟨_, hr, hv⟩ := parseByte_of_bits hp h
      rw [exiUtf8Length, codeLength_ascii hp (ha c List.mem_cons_self).2 h]
      simp only [advance_truncated, ht, Bool.false_eq_true, if_false]
      rw [List.length_cons] at hm
      rw [ih hv ht ha.tail hr (by omega)]
      congr 1
      omega

theorem parseLiteral_ascii (hp : p.Valid) (ht : p.truncated = false) (ha : Ascii s)
    (h : p.bits = charBits s ++ r) (hm : m ≤ s.length) :
    p.parseLiteral sh m = some (s.take m, p.advance (8 * m)) := by
  induction m generalizing p s with
  | zero => rw [Nat.mul_zero, advance_zero hp, List.take_zero]; rfl
  | succ m ih =>
    cases s with
    | nil => exact absurd hm (by simp)
    | cons c s =>
      have hc := (ha c List.mem_cons_self).2
      have hlt : c.toNat < 128 := hc
      have hx : (UInt64.ofNat c.toNat).toNat = c.toNat :=
        UInt64.toNat_ofNat_of_lt' (hlt.trans (by decide))
      have hmod : c.toNat % 2 ^ 32 = c.toNat := Nat.mod_eq_of_lt (hlt.trans (by decide))
      rw [charBits_cons, List.append_assoc] at h
      obtain ⟨_, hr, hv⟩ := parseByte_of_bits hp h
      have hu : p.parseUint sh = (UInt64.ofNat c.toNat, p.advance 8) :=
        parseUint_small sh hp ht (by rw [hx]; exact hlt) (by rw [hx]; exact h)
      rw [List.length_cons] at hm
      rw [parseLiteral, hu]
      simp only [hx, hmod, utf8Encode_ascii hc]
      rw [ih hv ht ha.tail hr (by omega), advance_advance, Option.map_some, List.take_succ_cons,
        Nat.mul_succ, Nat.add_comm (8 * m)]
      rfl

end InBits

/-- The tables of the two sides hold the same strings at the same places. -/
structure Synced (o : ExiOutput) (p : ExiInput) : Prop where
  globals : p.globals.strings = o.globals.strings
  locals : ∀ n, entries p.locals n = entries o.locals n

namespace ExiInput
variable {sh : IntShift} {p : ExiInput} {r : List Bool} {s : CString} {t : StringTable}
  {name n m i : ℕ}

theorem lookup_tables {id : ℕ} :
    (p.lookup t id n).2.globals = p.globals ∧ (p.lookup t id n).2.locals = p.locals := by
  unfold lookup
  split
  · exact ⟨rfl, rfl⟩
  · split_ifs <;> exact ⟨rfl, rfl⟩

theorem lookup_some {id : ℕ} (h : (p.lookup t id n).1 = some s) : t.strings[id]? = some s := by
  unfold lookup at h
  split at h
  · exact absurd h (by simp [fail])
  · rename_i u hu
    split_ifs at h
    · exact absurd h (by simp [fail])
    · obtain rfl : u = s := Option.some.inj h
      exact hu

theorem lookup_eq {id : ℕ} (h : t.strings[id]? = some s) (hn : n = 0 ∨ s.length < n) :
    p.lookup t id n = (some s, p) := by
  have hf : ¬ (n ≠ 0 ∧ ¬ s.length + 1 ≤ n) := by omega
  simp only [lookup, h, if_neg hf]

/-- A reference is read up to the bits `parse_bits` loses. -/
theorem parseCompactId_eq (hp : p.input.Valid) (ht : p.input.truncated = false)
    (hi : i < t.strings.length)
    (h : p.input.bits = ofNat (bitCount (t.strings.length - 1)) i ++ r) :
    p.parseCompactId (some t) n =
      { p with input := p.input.advance (bitCount (t.strings.length - 1)) }.lookup t
        (i % 2 ^ (24 + (p.input.bit + bitCount (t.strings.length - 1)) % 8)) n := by
  have hn : bitCount (t.strings.length - 1) ≤ p.input.bits.length := by
    rw [h, List.length_append, length_ofNat]
    omega
  obtain ⟨hs, _⟩ := InBits.advance_of_append h
  rw [length_ofNat] at hs
  have hb := InBits.parseBits_eq hp hn
  rw [hs, toNat_ofNat, Nat.mod_eq_of_lt (lt_two_pow_bitCount hi)] at hb
  have hz : ¬ t.strings.length = 0 := by omega
  simp only [parseCompactId, if_neg hz, hb, InBits.advance_truncated, ht, Bool.false_eq_true,
    if_false]

/-- Whatever a reference leads to, the tables stay. -/
theorem parseCompactId_tables {t : Option StringTable} :
    (p.parseCompactId t n).2.globals = p.globals ∧ (p.parseCompactId t n).2.locals = p.locals := by
  cases t with
  | none => exact ⟨rfl, rfl⟩
  | some t =>
    simp only [parseCompactId]
    split_ifs
    · exact ⟨rfl, rfl⟩
    · exact ⟨rfl, rfl⟩
    · exact lookup_tables

/-- A reference yields an entry of the table or nothing. -/
theorem parseCompactId_mem {t : Option StringTable}
    (h : (p.parseCompactId t n).1 = some s) : ∃ v, t = some v ∧ s ∈ v.strings := by
  cases t with
  | none => exact absurd h (by simp [parseCompactId, fail])
  | some t =>
    refine ⟨t, rfl, ?_⟩
    simp only [parseCompactId] at h
    by_cases hz : t.strings.length = 0
    · rw [if_pos hz] at h
      exact absurd h (by simp [fail])
    · rw [if_neg hz] at h
      by_cases ht : (p.input.parseBits (bitCount (t.strings.length - 1))).2.truncated = true
      · rw [if_pos ht] at h
        exact absurd h (by simp)
      · rw [if_neg ht] at h
        exact List.mem_of_getElem? (lookup_some h)

theorem exiParseString_ref (part : UInt64) (hp : p.input.Valid)
    (ht : p.input.truncated = false) (hpart : part = 0 ∨ part = 1)
    (h : p.input.bits = ofNat 8 part.toNat ++ r) :
    p.exiParseString sh name n = some ({ p with input := p.input.advance 8 }.parseCompactId
      (if part = 0 then findTable p.locals name else some p.globals) n) := by
  have hx : part.toNat < 128 := by rcases hpart with rfl | rfl <;> decide
  have hu := InBits.parseUint_small sh hp ht hx h
  simp only [exiParseString, hu, InBits.advance_truncated, ht, Bool.false_eq_true, if_false]
  rcases hpart with rfl | rfl <;> rfl

/-- A literal whose length is read as `m` yields its first `m` characters, or nothing. -/
theorem parseLiteralValue_ascii (sh : IntShift) (start : InBits) (name : ℕ) (hp : p.input.Valid)
    (ht : p.input.truncated = false) (ha : Ascii s) (h : p.input.bits = charBits s ++ r)
    (hm : m ≤ s.length) :
    p.parseLiteralValue sh start name n m =
      if n ≠ 0 ∧ m ≥ n then some p.fail
      else some (some (s.take m), { p with
        input := p.input.advance (8 * m)
        locals := addString
          (if (findTable p.locals name).isSome then p.locals else newStringTable p.locals name)
          name (s.take m)
        globals := p.globals.add (s.take m) }) := by
  have htake : (s.take m).takeWhile (· ≠ 0) = s.take m := by
    refine List.takeWhile_eq_self_iff.mpr (fun c hc => ?_)
    exact decide_eq_true (ha c (List.mem_of_mem_take hc)).1
  have hroom : ¬ (n ≠ 0 ∧ m ≥ n) → ¬ (if n ≠ 0 then n else m + 1) ≤ (s.take m).length := by
    intro hn
    rw [List.length_take]
    split_ifs <;> omega
  rw [parseLiteralValue, InBits.exiUtf8Length_ascii hp ht ha h hm, Nat.zero_add]
  simp only
  by_cases hn : n ≠ 0 ∧ m ≥ n
  · rw [if_pos hn, if_pos hn]
  · rw [if_neg hn, if_neg hn, InBits.parseLiteral_ascii hp ht ha h hm]
    simp only [if_neg (hroom hn), htake]

end ExiInput
/-! ### One string on both sides -/

/-- The decoder follows the encoder over the bits in `data`. -/
structure Reading (data : List UInt8) (o : ExiOutput) (p : ExiInput) : Prop where
  synced : Synced o p
  input : p.input = InBits.openAt data o.out.pos

/-- What the two sides do with this string agrees: a reference keeps its high bits in the 32
bits of `parse_bits`; a string new to its element is new altogether, and its length fits
an `int`. -/
def ExiOutput.Agreed (o : ExiOutput) (name : ℕ) (s : CString) : Prop :=
  match o.localIndex name s with
  | some i => i < 2 ^ (24 + (o.out.pos + bitCount ((entries o.locals name).length - 1)) % 8)
  | none => s ∉ o.globals.strings ∧ s.length + 2 < 2 ^ 31

section Step
variable {sh : IntShift} {data : List UInt8} {o : ExiOutput} {p : ExiInput} {name n i : ℕ}
  {s : CString}

theorem Reading.valid (h : Reading data o p) (hd : o.out.pos ≤ 8 * data.length) :
    p.input.Valid ∧ p.input.truncated = false := by
  rw [h.input]
  exact ⟨InBits.openAt_valid hd, rfl⟩

theorem Reading.bit (h : Reading data o p) : p.input.bit = o.out.pos % 8 := by
  rw [h.input]
  rfl

/-- The table a local reference goes to exists on the other side too. -/
theorem Reading.findTable (h : Reading data o p) (hl : o.localIndex name s = some i) :
    ∃ t, SeClient.findTable p.locals name = some t ∧ t.strings = entries o.locals name := by
  have hi := (ExiOutput.localIndex_some hl).1
  rw [← h.synced.locals] at hi ⊢
  cases hf : SeClient.findTable p.locals name with
  | none =>
    rw [entries_of_find_none hf] at hi
    exact absurd hi (by simp)
  | some t => exact ⟨t, rfl, (entries_of_find hf).symm⟩

/-- A reference into the table of the element, as the decoder sees it. -/
theorem Reading.local_eq (sh : IntShift) (h : Reading data o p) (ho : o.out.Clear) (ha : Ascii s)
    (hf : (o.exiOutputString name s).out.Fits) (hd : (o.exiOutputString name s).out.Held data)
    (hl : o.localIndex name s = some i) :
    ∃ t, t.strings = entries o.locals name ∧ p.exiParseString sh name n =
      some ({ p with input := InBits.openAt data (o.exiOutputString name s).out.pos }.lookup t
        (i % 2 ^ (24 + (o.out.pos + bitCount (t.strings.length - 1)) % 8)) n) := by
  have happ := ExiOutput.exiOutputString_appends (o := o) name ha
  obtain ⟨r, hr⟩ := (happ.emits ho hf).bits_openAt hd
  have hroom := hd.room
  obtain ⟨hv, ht⟩ := h.valid (by rw [happ.pos] at hroom; omega)
  obtain ⟨t, htab, hstr⟩ := h.findTable hl
  have hi := (ExiOutput.localIndex_some hl).1
  have hb : o.stringBits name s = refBits 0 i (entries o.locals name).length := by
    rw [ExiOutput.stringBits, hl]
  rw [hb, refBits, List.append_assoc, ← h.input] at hr
  refine ⟨t, hstr, ?_⟩
  obtain ⟨_, hr', hv'⟩ := InBits.parseByte_of_bits hv hr
  rw [ExiInput.exiParseString_ref 0 hv ht (Or.inl rfl) hr, if_pos rfl, htab]
  rw [← hstr] at hr' hi
  rw [ExiInput.parseCompactId_eq (p := { p with input := p.input.advance 8 }) hv' ht hi hr']
  have hpos : (o.exiOutputString name s).out.pos =
      o.out.pos + (8 + bitCount (t.strings.length - 1)) := by
    rw [happ.pos, hb, refBits, List.length_append, length_ofNat, length_ofNat, hstr]
  have hbit : (p.input.advance 8).bit = o.out.pos % 8 := by
    simp only [InBits.advance, h.bit]
    omega
  have hm : ((p.input.advance 8).bit + bitCount (t.strings.length - 1)) % 8 =
      (o.out.pos + bitCount (t.strings.length - 1)) % 8 := by
    rw [hbit]
    omega
  simp only [hm, InBits.advance_advance]
  simp only [h.input, InBits.openAt_advance, hpos]

/-- A literal, as the decoder sees it: it takes the length `v`. -/
theorem Reading.literal_eq (sh : IntShift) (h : Reading data o p) (ho : o.out.Clear) (ha : Ascii s)
    (hf : (o.exiOutputString name s).out.Fits) (hd : (o.exiOutputString name s).out.Held data)
    (hl : o.localIndex name s = none) (hg : o.globals.findString s = none) :
    ∃ q r, p.input.parseUint sh = ((p.input.parseUint sh).1, q) ∧ q.Valid ∧
      q.truncated = false ∧ q.bits = charBits s ++ r ∧
      q.advance (8 * s.length) = InBits.openAt data (o.exiOutputString name s).out.pos ∧
      (s.length + 2 < 2 ^ 31 → (p.input.parseUint sh).1.toNat = s.length + 2) := by
  have happ := ExiOutput.exiOutputString_appends (o := o) name ha
  obtain ⟨r, hr⟩ := (happ.emits ho hf).bits_openAt hd
  have hroom := hd.room
  obtain ⟨hv, ht⟩ := h.valid (by rw [happ.pos] at hroom; omega)
  have hb : o.stringBits name s = literalBits s := by rw [ExiOutput.stringBits, hl, hg]
  rw [hb, literalBits, List.append_assoc, ← h.input] at hr
  obtain ⟨_, hr'⟩ := InBits.advance_of_append hr
  have hn : (groupBits 10 (literalLength s).toNat).length ≤ p.input.bits.length := by
    rw [hr, List.length_append]
    omega
  refine ⟨p.input.advance (groupBits 10 (literalLength s).toNat).length, r, ?_, hv.advance hn, ht,
    hr', ?_, ?_⟩
  · exact Prod.ext rfl (InBits.parseUint_rest hv ht hr)
  · rw [InBits.advance_advance, h.input, InBits.openAt_advance, happ.pos, hb, literalBits,
      List.length_append, length_charBits]
  · intro hs
    have hlen := toNat_literalLength ha hs
    rw [InBits.parseUint_of_bits hv ht (by rw [hlen]; exact hs) hr, hlen]

/-- **A string the two sides agree on** is read back, and the decoder follows. -/
theorem Reading.agreed (sh : IntShift) (h : Reading data o p) (ho : o.out.Clear) (ha : Ascii s)
    (hn : n = 0 ∨ s.length < n) (hf : (o.exiOutputString name s).out.Fits)
    (hd : (o.exiOutputString name s).out.Held data) (hg : o.Agreed name s) :
    ∃ p', p.exiParseString sh name n = some (some s, p') ∧
      Reading data (o.exiOutputString name s) p' := by
  unfold ExiOutput.Agreed at hg
  cases hl : o.localIndex name s with
  | some i =>
    rw [hl] at hg
    simp only at hg
    obtain ⟨t, hstr, he⟩ := h.local_eq sh (n := n) ho ha hf hd hl
    obtain ⟨u, _, _, hout⟩ := ExiOutput.exiOutputString_local hl
    have hs := (ExiOutput.localIndex_some hl).2
    rw [← hstr] at hs hg
    rw [Nat.mod_eq_of_lt hg, ExiInput.lookup_eq hs hn] at he
    refine ⟨_, he, ⟨?_, rfl⟩⟩
    rw [hout]
    exact ⟨h.synced.globals, h.synced.locals⟩
  | none =>
    rw [hl] at hg
    obtain ⟨hnew, hlen⟩ := hg
    have hgl : o.globals.findString s = none := findString_none.mpr hnew
    obtain ⟨q, r, hu, hv, ht, hr, hq, hval⟩ := h.literal_eq sh ho ha hf hd hl hgl
    obtain ⟨l, hloc, hout⟩ := ExiOutput.exiOutputString_global hl
    rw [hgl] at hout
    simp only at hout
    have hmod : (p.input.parseUint sh).1.toNat % 2 ^ 32 = s.length + 2 := by
      rw [hval hlen, Nat.mod_eq_of_lt (hlen.trans (by decide))]
    have hfit : ¬ (n ≠ 0 ∧ s.length ≥ n) := by omega
    have hlit := ExiInput.parseLiteralValue_ascii sh p.input name (p := { p with input := q })
      (n := n) hv ht ha hr le_rfl
    rw [if_neg hfit, List.take_length, hq] at hlit
    have hparse : p.exiParseString sh name n =
        { p with input := q }.parseLiteralValue sh p.input name n s.length := by
      rw [ExiInput.exiParseString, hu]
      simp only [ht, Bool.false_eq_true, if_false, hmod]
    rw [hparse, hlit]
    refine ⟨_, rfl, ⟨⟨?_, fun m => ?_⟩, rfl⟩⟩
    · rw [hout]
      simp only [StringTable.add, h.synced.globals]
    · rw [hout]
      simp only [hloc]
      have hsome : (SeClient.findTable (if (SeClient.findTable p.locals name).isSome then p.locals
          else newStringTable p.locals name) name).isSome := by
        split_ifs with hi
        · exact hi
        · exact findTable_new
      have hold : ∀ k, entries (if (SeClient.findTable p.locals name).isSome then p.locals
          else newStringTable p.locals name) k = entries o.locals k := by
        intro k
        split_ifs with hi
        · exact h.synced.locals k
        · rw [entries_new (Option.not_isSome_iff_eq_none.mp hi)]
          exact h.synced.locals k
      rw [entries_add hsome, hold]

/-- **Where they disagree** some C implementation loses the string or the tables. -/
theorem Reading.disagreed (h : Reading data o p) (ho : o.out.Clear) (ha : Ascii s)
    (hnd : (entries o.locals name).Nodup) (hf : (o.exiOutputString name s).out.Fits)
    (hd : (o.exiOutputString name s).out.Held data) (hg : ¬ o.Agreed name s) :
    ¬ ∃ p', p.exiParseString IntShift.zero name n = some (some s, p') ∧
      Synced (o.exiOutputString name s) p' := by
  rintro ⟨p', hp', hsync⟩
  unfold ExiOutput.Agreed at hg
  cases hl : o.localIndex name s with
  | some i =>
    rw [hl] at hg
    simp only at hg
    obtain ⟨t, hstr, he⟩ := h.local_eq IntShift.zero (n := n) ho ha hf hd hl
    obtain ⟨hi, hs⟩ := ExiOutput.localIndex_some hl
    rw [he] at hp'
    have hread := ExiInput.lookup_some (congrArg Prod.fst (Option.some.inj hp'))
    rw [hstr] at hread
    obtain ⟨hj, hsj⟩ := List.getElem?_eq_some_iff.mp hread
    obtain ⟨_, hsi⟩ := List.getElem?_eq_some_iff.mp hs
    have hij := (List.Nodup.getElem_inj_iff hnd).mp (hsj.trans hsi.symm)
    exact hg (hij ▸ Nat.mod_lt _ (Nat.two_pow_pos _))
  | none =>
    obtain ⟨l, hloc, hout⟩ := ExiOutput.exiOutputString_global hl
    have hnew := ExiOutput.localIndex_none.mp hl
    cases hgl : o.globals.findString s with
    | some i =>
      -- the encoder alone enters the string into the table of the element
      have happ := ExiOutput.exiOutputString_appends (o := o) name ha
      obtain ⟨r, hr⟩ := (happ.emits ho hf).bits_openAt hd
      have hroom := hd.room
      obtain ⟨hv, ht⟩ := h.valid (by rw [happ.pos] at hroom; omega)
      have hb : o.stringBits name s = refBits 1 i o.globals.strings.length := by
        rw [ExiOutput.stringBits, hl, hgl]
      rw [hb, refBits, List.append_assoc, ← h.input] at hr
      rw [ExiInput.exiParseString_ref 1 hv ht (Or.inr rfl) hr] at hp'
      have htab := congrArg ExiInput.locals (congrArg Prod.snd (Option.some.inj hp'))
      rw [ExiInput.parseCompactId_tables.2] at htab
      rw [hgl] at hout
      have hname := hsync.locals name
      rw [hout, ← htab] at hname
      simp only [ExiOutput.compactId, hloc, if_true, h.synced.locals] at hname
      have hlen := congrArg List.length hname
      rw [List.length_append, List.length_singleton] at hlen
      omega
    | none =>
      obtain ⟨q, r, hu, hv, ht, hr, _, _⟩ :=
        h.literal_eq IntShift.zero ho ha hf hd hl hgl
      have hlong : 2 ^ 31 ≤ s.length + 2 := by
        rw [hl] at hg
        by_contra hlt
        exact hg ⟨findString_none.mp hgl, by omega⟩
      have hlt : (p.input.parseUint IntShift.zero).1.toNat < 2 ^ 31 :=
        InBits.parseUintLoop_zero_lt (by decide)
      have hmod := Nat.mod_eq_of_lt (hlt.trans (show 2 ^ 31 < 2 ^ 32 by decide))
      rw [ExiInput.exiParseString, hu] at hp'
      simp only [ht, Bool.false_eq_true, if_false, hmod] at hp'
      generalize (p.input.parseUint IntShift.zero).1.toNat = v at hlt hp'
      match v with
      | 0 =>
        obtain ⟨t, htab, hmem⟩ :=
          ExiInput.parseCompactId_mem (congrArg Prod.fst (Option.some.inj hp'))
        rw [← entries_of_find htab] at hmem
        exact hnew (by rw [← h.synced.locals]; exact hmem)
      | 1 =>
        obtain ⟨t, htab, hmem⟩ :=
          ExiInput.parseCompactId_mem (congrArg Prod.fst (Option.some.inj hp'))
        rw [← Option.some.inj htab, h.synced.globals] at hmem
        exact findString_none.mp hgl hmem
      | m + 2 =>
        simp only at hp'
        rw [ExiInput.parseLiteralValue_ascii _ _ _ (p := { p with input := q }) hv ht ha hr (by omega)]
          at hp'
        by_cases hc : n ≠ 0 ∧ m ≥ n
        · rw [if_pos hc] at hp'
          exact absurd (congrArg Prod.fst (Option.some.inj hp')) (by simp [ExiInput.fail])
        · rw [if_neg hc] at hp'
          have hs := Option.some.inj (congrArg Prod.fst (Option.some.inj hp'))
          have hlen := congrArg List.length hs
          rw [List.length_take] at hlen
          omega

end Step
/-! ### A sequence of strings -/

/-- Every pair of an element name and its string value is written in turn. -/
def ExiOutput.outputAll (o : ExiOutput) (ps : List (ℕ × CString)) : ExiOutput :=
  ps.foldl (fun o a => o.exiOutputString a.1 a.2) o

/-- The encoder and the decoder at the start: their tables are empty. -/
def ExiOutput.start (out : OutBits) : ExiOutput := ⟨out, ⟨none, []⟩, []⟩

def ExiInput.start (input : InBits) : ExiInput := ⟨input, ⟨none, []⟩, [], false⟩

/-- The decoder returns each string in turn, and after each the tables are the same.
`size` is the size of the container of an element's value, 0 for a pointer. -/
def Replays (sh : IntShift) (size : ℕ → ℕ) : ExiOutput → ExiInput → List (ℕ × CString) → Prop
  | _, _, [] => True
  | o, p, a :: ps => ∃ p', p.exiParseString sh a.1 (size a.1) = some (some a.2, p') ∧
      Synced (o.exiOutputString a.1 a.2) p' ∧ Replays sh size (o.exiOutputString a.1 a.2) p' ps

/-- On every C implementation, whatever follows the strings in the stream, the decoder
returns them and its tables keep in step. -/
def StaysInSync (size : ℕ → ℕ) (out : OutBits) (ps : List (ℕ × CString)) : Prop :=
  ∀ (sh : IntShift) (data : List UInt8), ((ExiOutput.start out).outputAll ps).out.Held data →
    Replays sh size (ExiOutput.start out) (ExiInput.start (InBits.openAt data out.pos)) ps

/-- No string is written under two element names. -/
def OneName (ps : List (ℕ × CString)) : Prop :=
  ∀ a ∈ ps, ∀ b ∈ ps, a.2 = b.2 → a.1 = b.1

/-- Every reference into the table of an element keeps its high bits when `parse_bits`
gathers it in 32 bits; references into tables of at most `2 ^ 24` strings always do. -/
def RefsKept : ExiOutput → List (ℕ × CString) → Prop
  | _, [] => True
  | o, a :: ps =>
    (∀ i, o.localIndex a.1 a.2 = some i →
      i < 2 ^ (24 + (o.out.pos + bitCount ((entries o.locals a.1).length - 1)) % 8)) ∧
    RefsKept (o.exiOutputString a.1 a.2) ps

/-- The two sides agree on every string of the sequence. -/
def AllAgreed : ExiOutput → List (ℕ × CString) → Prop
  | _, [] => True
  | o, a :: ps => o.Agreed a.1 a.2 ∧ AllAgreed (o.exiOutputString a.1 a.2) ps

/-- The tables hold the strings written so far, each once. -/
structure Recorded (o : ExiOutput) (seen : List (ℕ × CString)) : Prop where
  globals : ∀ s, s ∈ o.globals.strings ↔ ∃ n, (n, s) ∈ seen
  locals : ∀ n s, s ∈ entries o.locals n ↔ (n, s) ∈ seen
  nodup : ∀ n, (entries o.locals n).Nodup

section Sequence
variable {size : ℕ → ℕ} {sh : IntShift} {data : List UInt8} {out : OutBits} {o : ExiOutput}
  {p : ExiInput} {ps seen : List (ℕ × CString)} {name : ℕ} {s : CString}

theorem recorded_start : Recorded (ExiOutput.start out) [] :=
  ⟨fun s => by simp [ExiOutput.start], fun n s => by simp [ExiOutput.start, entries_nil],
    fun n => by simp [ExiOutput.start, entries_nil]⟩

theorem Recorded.step (h : Recorded o seen) (name : ℕ) (s : CString) :
    Recorded (o.exiOutputString name s) (seen ++ [(name, s)]) := by
  cases hl : o.localIndex name s with
  | some i =>
    obtain ⟨t, _, _, he⟩ := ExiOutput.exiOutputString_local hl
    have hmem : (name, s) ∈ seen :=
      (h.locals name s).mp (List.mem_of_getElem? (ExiOutput.localIndex_some hl).2)
    have happ : ∀ a, a ∈ seen ++ [(name, s)] ↔ a ∈ seen := by
      intro a
      rw [List.mem_append, List.mem_singleton]
      exact ⟨fun ha => ha.elim id (fun he => he ▸ hmem), Or.inl⟩
    rw [he]
    refine ⟨fun u => ?_, fun n u => ?_, h.nodup⟩
    · simp only [happ]
      exact h.globals u
    · rw [happ]
      exact h.locals n u
  | none =>
    obtain ⟨l, hloc, he⟩ := ExiOutput.exiOutputString_global hl
    have hnew := ExiOutput.localIndex_none.mp hl
    have hlocals : ∀ n u, u ∈ entries l n ↔ (n, u) ∈ seen ++ [(name, s)] := by
      intro n u
      rw [hloc n, List.mem_append, List.mem_singleton, Prod.mk.injEq, ← h.locals]
      split_ifs with hn
      · rw [List.mem_append, List.mem_singleton]
        exact or_congr_right ⟨fun hu => ⟨hn, hu⟩, fun hu => hu.2⟩
      · exact ⟨Or.inl, fun hu => hu.elim id (fun hu => absurd hu.1 hn)⟩
    have hnodup : ∀ n, (entries l n).Nodup := by
      intro n
      rw [hloc n]
      split_ifs with hn
      · rw [List.nodup_append]
        refine ⟨h.nodup n, List.nodup_singleton s, fun a ha b hb hab => ?_⟩
        rw [List.mem_singleton.mp hb] at hab
        exact hnew (by rw [← hn, ← hab]; exact ha)
      · exact h.nodup n
    rw [he]
    cases hg : o.globals.findString s with
    | some i =>
      refine ⟨fun u => ?_, hlocals, hnodup⟩
      simp only [ExiOutput.compactId, List.mem_append, List.mem_singleton, Prod.mk.injEq]
      rw [h.globals]
      constructor
      · rintro ⟨n, hn⟩
        exact ⟨n, Or.inl hn⟩
      · rintro ⟨n, hn | ⟨_, rfl⟩⟩
        · exact ⟨n, hn⟩
        · exact (h.globals u).mp (List.mem_of_getElem? (findString_some hg))
    | none =>
      refine ⟨fun u => ?_, hlocals, hnodup⟩
      simp only [StringTable.add, List.mem_append, List.mem_singleton, Prod.mk.injEq, h.globals]
      constructor
      · rintro (⟨n, hn⟩ | rfl)
        · exact ⟨n, Or.inl hn⟩
        · exact ⟨name, Or.inr ⟨rfl, rfl⟩⟩
      · rintro ⟨n, hn | ⟨_, rfl⟩⟩
        · exact Or.inl ⟨n, hn⟩
        · exact Or.inr rfl

/-- What is written later leaves the data behind the cursor as they are. -/
theorem held_of_appends {o' : OutBits} {w : List Bool} (h : out.Appends o' w) (ho : out.Clear)
    (hf : o'.Fits) (hd : o'.Held data) : out.Held data := by
  have hroom := hd.room
  rw [h.pos] at hroom
  refine ⟨by omega, fun i hi => ?_⟩
  rw [hd.bits i (by rw [h.pos]; omega), (h.emits ho hf).kept i hi]

theorem outputAll_appends (ha : ∀ a ∈ ps, Ascii a.2) :
    ∃ w, o.out.Appends (o.outputAll ps).out w := by
  induction ps generalizing o with
  | nil => exact ⟨[], OutBits.Appends.refl⟩
  | cons a ps ih =>
    obtain ⟨w, hw⟩ := ih (o := o.exiOutputString a.1 a.2)
      (fun b hb => ha b (List.mem_cons_of_mem a hb))
    exact ⟨_, (ExiOutput.exiOutputString_appends a.1 (ha a List.mem_cons_self)).trans hw⟩

/-- The two sides agree all along exactly when the sequence says so. -/
theorem allAgreed_iff (ps : List (ℕ × CString)) (h : Recorded o seen) (hone : OneName seen)
    (hshort : ∀ a ∈ seen, a.2.length + 2 < 2 ^ 31) :
    AllAgreed o ps ↔ OneName (seen ++ ps) ∧ (∀ a ∈ ps, a.2.length + 2 < 2 ^ 31) ∧
      RefsKept o ps := by
  induction ps generalizing o seen with
  | nil =>
    rw [List.append_nil]
    exact ⟨fun _ => ⟨hone, fun a ha => absurd ha (by simp), trivial⟩, fun _ => trivial⟩
  | cons a ps ih =>
    obtain ⟨name, s⟩ := a
    have hnext := h.step name s
    have happ : seen ++ (name, s) :: ps = (seen ++ [(name, s)]) ++ ps := by
      rw [List.append_assoc, List.singleton_append]
    simp only [AllAgreed, RefsKept, ExiOutput.Agreed, List.forall_mem_cons]
    cases hl : o.localIndex name s with
    | some i =>
      have hmem : (name, s) ∈ seen :=
        (h.locals name s).mp (List.mem_of_getElem? (ExiOutput.localIndex_some hl).2)
      have hsub : ∀ a ∈ seen ++ [(name, s)], a ∈ seen := by
        intro a ha
        rcases List.mem_append.mp ha with ha | ha
        · exact ha
        · rw [List.mem_singleton.mp ha]
          exact hmem
      have hi := ih hnext (fun a ha b hb => hone a (hsub a ha) b (hsub b hb))
        (fun a ha => hshort a (hsub a ha))
      rw [happ, hi]
      simp only [Option.some.injEq, forall_eq']
      exact ⟨fun ⟨hr, ho, hs, hk⟩ => ⟨ho, ⟨hshort _ hmem, hs⟩, hr, hk⟩,
        fun ⟨ho, ⟨_, hs⟩, hr, hk⟩ => ⟨hr, ho, hs, hk⟩⟩
    | none =>
      have hnew : (name, s) ∉ seen := fun hm =>
        ExiOutput.localIndex_none.mp hl ((h.locals name s).mpr hm)
      simp only [reduceCtorEq, false_implies, implies_true, true_and]
      constructor
      · rintro ⟨⟨hglob, hlen⟩, hrest⟩
        have hother : ∀ a ∈ seen, a.2 ≠ s := fun a ha he =>
          hglob ((h.globals s).mpr ⟨a.1, he ▸ ha⟩)
        have hone' : OneName (seen ++ [(name, s)]) := by
          intro a ha b hb he
          rcases List.mem_append.mp ha with ha | ha <;> rcases List.mem_append.mp hb with hb | hb
          · exact hone a ha b hb he
          · rw [List.mem_singleton.mp hb] at he
            exact absurd he (hother a ha)
          · rw [List.mem_singleton.mp ha] at he
            exact absurd he.symm (hother b hb)
          · rw [List.mem_singleton.mp ha, List.mem_singleton.mp hb]
        have hshort' : ∀ a ∈ seen ++ [(name, s)], a.2.length + 2 < 2 ^ 31 := by
          intro a ha
          rcases List.mem_append.mp ha with ha | ha
          · exact hshort a ha
          · rw [List.mem_singleton.mp ha]
            exact hlen
        obtain ⟨ho, hs, hk⟩ := (ih hnext hone' hshort').mp hrest
        rw [happ]
        exact ⟨ho, ⟨hlen, hs⟩, hk⟩
      · rintro ⟨ho, ⟨hlen, hs⟩, hk⟩
        have hin : (name, s) ∈ seen ++ (name, s) :: ps :=
          List.mem_append_right _ List.mem_cons_self
        have hglob : s ∉ o.globals.strings := by
          intro hm
          obtain ⟨n, hn⟩ := (h.globals s).mp hm
          have he : n = name := ho _ (List.mem_append_left _ hn) _ hin rfl
          exact hnew (he ▸ hn)
        rw [happ] at ho
        have hsub : ∀ a ∈ seen ++ [(name, s)], a ∈ (seen ++ [(name, s)]) ++ ps := fun a ha =>
          List.mem_append_left _ ha
        have hshort' : ∀ a ∈ seen ++ [(name, s)], a.2.length + 2 < 2 ^ 31 := by
          intro a ha
          rcases List.mem_append.mp ha with ha | ha
          · exact hshort a ha
          · rw [List.mem_singleton.mp ha]
            exact hlen
        exact ⟨⟨hglob, hlen⟩, (ih hnext (fun a ha b hb => ho a (hsub a ha) b (hsub b hb))
          hshort').mpr ⟨ho, hs, hk⟩⟩

theorem replays_of_allAgreed (h : Reading data o p) (ho : o.out.Clear)
    (ha : ∀ a ∈ ps, Ascii a.2) (hs : ∀ a ∈ ps, size a.1 = 0 ∨ a.2.length < size a.1)
    (hf : (o.outputAll ps).out.Fits) (hd : (o.outputAll ps).out.Held data)
    (hg : AllAgreed o ps) : Replays sh size o p ps := by
  induction ps generalizing o p with
  | nil => trivial
  | cons a ps ih =>
    have hmem := List.mem_cons_self (a := a) (l := ps)
    have htail : ∀ b ∈ ps, b ∈ a :: ps := fun b hb => List.mem_cons_of_mem a hb
    have happ := ExiOutput.exiOutputString_appends (o := o) a.1 (ha a hmem)
    obtain ⟨w, hw⟩ := outputAll_appends (o := o.exiOutputString a.1 a.2)
      (fun b hb => ha b (htail b hb))
    have hf' := hw.fits hf
    have hc' := (happ.emits ho hf').clear
    obtain ⟨p', hp', hr'⟩ := h.agreed sh ho (ha a hmem) (hs a hmem) hf'
      (held_of_appends hw hc' hf hd) hg.1
    exact ⟨p', hp', hr'.synced, ih hr' hc' (fun b hb => ha b (htail b hb))
      (fun b hb => hs b (htail b hb)) hf hd hg.2⟩

theorem allAgreed_of_replays (h : Reading data o p) (ho : o.out.Clear) (hrec : Recorded o seen)
    (ha : ∀ a ∈ ps, Ascii a.2) (hs : ∀ a ∈ ps, size a.1 = 0 ∨ a.2.length < size a.1)
    (hf : (o.outputAll ps).out.Fits) (hd : (o.outputAll ps).out.Held data)
    (hr : Replays IntShift.zero size o p ps) : AllAgreed o ps := by
  induction ps generalizing o p seen with
  | nil => trivial
  | cons a ps ih =>
    have hmem := List.mem_cons_self (a := a) (l := ps)
    have htail : ∀ b ∈ ps, b ∈ a :: ps := fun b hb => List.mem_cons_of_mem a hb
    have happ := ExiOutput.exiOutputString_appends (o := o) a.1 (ha a hmem)
    obtain ⟨w, hw⟩ := outputAll_appends (o := o.exiOutputString a.1 a.2)
      (fun b hb => ha b (htail b hb))
    have hf' := hw.fits hf
    have hc' := (happ.emits ho hf').clear
    have hd' := held_of_appends hw hc' hf hd
    obtain ⟨p', hp', hsync, hrest⟩ := hr
    have hg : o.Agreed a.1 a.2 := by
      by_contra hg
      exact h.disagreed ho (ha a hmem) (hrec.nodup a.1) hf' hd' hg ⟨p', hp', hsync⟩
    obtain ⟨q, hq, hr'⟩ := h.agreed IntShift.zero ho (ha a hmem) (hs a hmem) hf' hd' hg
    obtain rfl : q = p' := congrArg Prod.snd (Option.some.inj (hq.symm.trans hp'))
    exact ⟨hg, ih hr' hc' (hrec.step _ _) (fun b hb => ha b (htail b hb))
      (fun b hb => hs b (htail b hb)) hf hd hrest⟩

end Sequence

/-- **The string tables keep in step exactly when every string has one element name**, is
shorter than an `int` counts, and is referred to by no more than 32 bits. -/
theorem string_tables_sync (size : ℕ → ℕ) (out : OutBits) (ps : List (ℕ × CString))
    (ho : out.Clear) (ha : ∀ a ∈ ps, Ascii a.2)
    (hs : ∀ a ∈ ps, size a.1 = 0 ∨ a.2.length < size a.1)
    (hf : ((ExiOutput.start out).outputAll ps).out.Fits) :
    StaysInSync size out ps ↔
      OneName ps ∧ (∀ a ∈ ps, a.2.length + 2 < 2 ^ 31) ∧ RefsKept (ExiOutput.start out) ps := by
  have hread : ∀ data, Reading data (ExiOutput.start out)
      (ExiInput.start (InBits.openAt data out.pos)) := fun data =>
    ⟨⟨rfl, fun _ => rfl⟩, rfl⟩
  have hiff := allAgreed_iff ps (@recorded_start out)
    (fun a ha => absurd ha (by simp)) (fun a ha => absurd ha (by simp))
  rw [List.nil_append] at hiff
  rw [← hiff]
  constructor
  · intro h
    exact allAgreed_of_replays (hread _) ho recorded_start ha hs hf (OutBits.held_buffer hf)
      (h IntShift.zero _ (OutBits.held_buffer hf))
  · intro hg sh data hd
    exact replays_of_allAgreed (hread data) ho ha hs hf hd hg

/-- One element, the same value twice: a literal, then a reference. -/
theorem string_tables_sync_twice :
    StaysInSync (fun _ => 0) (OutBits.blank 3) [(1, [97]), (1, [97])] ↔
      OneName [(1, [97]), (1, [97])] ∧
      (∀ a ∈ [((1 : ℕ), ([97] : CString)), (1, [97])], a.2.length + 2 < 2 ^ 31) ∧
      RefsKept (ExiOutput.start (OutBits.blank 3)) [(1, [97]), (1, [97])] :=
  string_tables_sync (fun _ => 0) (OutBits.blank 3) _ (OutBits.blank_clear (by decide))
    (by simp [Ascii]) (by decide) (by unfold OutBits.Fits; decide)

/-- What the decoder returns for the values of these elements in turn. -/
def ExiInput.readAll (sh : IntShift) (size : ℕ → ℕ) (p : ExiInput) :
    List ℕ → Option (List (Option CString) × ExiInput)
  | [] => some ([], p)
  | name :: names => do
    let (s, p) ← p.exiParseString sh name (size name)
    let (rest, p) ← readAll sh size p names
    some (s :: rest, p)

theorem Replays.readAll {sh : IntShift} {size : ℕ → ℕ} {o : ExiOutput} {p : ExiInput}
    {ps : List (ℕ × CString)} (h : Replays sh size o p ps) :
    (p.readAll sh size (ps.map Prod.fst)).map Prod.fst = some (ps.map (fun a => some a.2)) := by
  induction ps generalizing o p with
  | nil => rfl
  | cons a ps ih =>
    obtain ⟨p', hp', _, hrest⟩ := h
    obtain ⟨⟨rest, q⟩, hq, hfst⟩ := Option.map_eq_some_iff.mp (ih hrest)
    obtain rfl : rest = _ := hfst
    rw [List.map_cons, ExiInput.readAll, hp']
    simp only [Option.bind_eq_bind, Option.bind_some, hq, Option.map_some, List.map_cons]

/-- The value "a" of element 1, then twice of element 2: the second time it is a reference
into the table of element 2, which the decoder does not have. -/
theorem not_string_tables_sync :
    let o := (ExiOutput.start (OutBits.blank 0)).outputAll [(1, [97]), (2, [97]), (2, [97])]
    let p := ExiInput.start (InBits.openAt o.out.buffer 0)
    o.out.Fits ∧
      (p.readAll IntShift.x86 (fun _ => 0) [1, 2, 2]).map (fun r => (r.1, r.2.invalid)) =
        some ([some [97], some [97], none], true) ∧
      ¬ StaysInSync (fun _ => 0) (OutBits.blank 0) [(1, [97]), (2, [97]), (2, [97])] := by
  intro o p
  have hf : o.out.Fits := by unfold OutBits.Fits; decide
  refine ⟨hf, by decide, fun h => ?_⟩
  have hr := (h IntShift.x86 o.out.buffer (OutBits.held_buffer hf)).readAll
  exact absurd hr (by decide)

end SeClient
