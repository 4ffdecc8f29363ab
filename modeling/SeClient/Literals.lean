import SeClient.StringSync
import SeClient.Utf8

/-!
# EXI string literals

A literal is written with the number of its characters, and `exi_utf8_length` finds out how many
bytes they take in UTF-8.  `exi_parse_string` then has `parse_literal` read as many characters as
there are bytes.
-/

namespace SeClient
open Bits

/-- A string of characters, in UTF-8. -/
structure Utf8String where
  chars : List Char
  nonzero : ∀ c ∈ chars, c.toNat ≠ 0

/-- **A literal comes back** into a container of `n` bytes, 0 for one that is allocated: on every C
implementation, wherever the literal stands and whatever follows it, the string is returned, no byte
is stored outside of the container, and the reader is behind the literal. -/
def LiteralRoundTrip (s : CString) (n : ℕ) : Prop :=
  ∀ (sh : IntShift) (o : OutBits) (data : List UInt8) (p : ExiInput) (name : ℕ), o.Clear →
    (o.exiOutputLiteral s).Fits → (o.exiOutputLiteral s).Held data →
      p.input = InBits.openAt data o.pos →
        ∃ q, p.exiParseString sh name n = some (some s, q) ∧
          q.input = InBits.openAt data (o.exiOutputLiteral s).pos

/-! ## Characters and bytes -/

section Characters
variable {c : Char} {l : List Char}

theorem utf8_cons : utf8 (c :: l) = utf8Bytes c.toNat ++ utf8 l := rfl

/-- One byte is an ASCII character. -/
theorem utf8Bytes_length (n : ℕ) :
    1 ≤ (utf8Bytes n).length ∧ ((utf8Bytes n).length = 1 ↔ n < 128) := by
  unfold utf8Bytes
  split_ifs <;> simp <;> omega

theorem length_le_utf8 (l : List Char) : l.length ≤ (utf8 l).length := by
  induction l with
  | nil => exact Nat.le_refl _
  | cons c l ih =>
    rw [utf8_cons, List.length_append, List.length_cons]
    have := (utf8Bytes_length c.toNat).1
    omega

/-- A text with no more bytes than characters is ASCII. -/
theorem ascii_of_length (h : (utf8 l).length ≤ l.length) : ∀ c ∈ l, c.toNat < 128 := by
  induction l with
  | nil => exact fun _ hc => absurd hc List.not_mem_nil
  | cons c l ih =>
    rw [utf8_cons, List.length_append, List.length_cons] at h
    obtain ⟨hone, hascii⟩ := utf8Bytes_length c.toNat
    have hle := length_le_utf8 l
    rintro d hd
    rcases List.mem_cons.mp hd with rfl | hd
    · exact hascii.mp (by omega)
    · exact ih (by omega) d hd

/-- An ASCII text is its characters. -/
theorem utf8_ascii (h : ∀ c ∈ l, c.toNat < 128) (hzero : ∀ c ∈ l, c.toNat ≠ 0) :
    Ascii (utf8 l) ∧ (utf8 l).length = l.length := by
  induction l with
  | nil => exact ⟨fun _ hc => absurd hc List.not_mem_nil, rfl⟩
  | cons c l ih =>
    obtain ⟨hc, hl⟩ := List.forall_mem_cons.mp h
    obtain ⟨hcz, hlz⟩ := List.forall_mem_cons.mp hzero
    obtain ⟨hascii, hlength⟩ := ih hl hlz
    have hbyte : utf8Bytes c.toNat = [UInt8.ofNat c.toNat] := if_pos (by omega)
    have hnat : (UInt8.ofNat c.toNat).toNat = c.toNat :=
      UInt8.toNat_ofNat_of_lt' (Nat.lt_trans hc (by decide))
    rw [utf8_cons, hbyte, List.singleton_append]
    refine ⟨fun d hd => ?_, by rw [List.length_cons, List.length_cons, hlength]⟩
    rcases List.mem_cons.mp hd with rfl | hd
    · refine ⟨fun hz => hcz ?_, UInt8.lt_iff_toNat_lt.mpr (by rw [hnat]; exact hc)⟩
      rw [← hnat, hz]
      rfl
    · exact hascii d hd

/-- The bytes `utf8_length` passes over. -/
theorem utf8Extra_lead : ∀ b < 0xf8, (0xc0 ≤ b → b < 0xe0 → utf8Extra (UInt8.ofNat b) = 1) ∧
    (0xe0 ≤ b → b < 0xf0 → utf8Extra (UInt8.ofNat b) = 2) ∧
      (0xf0 ≤ b → utf8Extra (UInt8.ofNat b) = 3) := by
  decide +kernel

theorem utf8LengthLoop_lead {b k fuel : ℕ} (tail : CString) {rest : CString}
    (hextra : utf8Extra (UInt8.ofNat b) = k) (htail : tail.length = k) :
    utf8LengthLoop (fuel + 1) (UInt8.ofNat b :: (tail ++ rest)) = utf8LengthLoop fuel rest + 1 := by
  rw [utf8LengthLoop, hextra, ← htail, List.drop_left]

/-- `utf8_length` counts characters. -/
theorem utf8LengthLoop_utf8 (l : List Char) {fuel : ℕ} (hfuel : (utf8 l).length ≤ fuel) :
    utf8LengthLoop fuel (utf8 l) = l.length := by
  induction l generalizing fuel with
  | nil => cases fuel <;> rfl
  | cons c l ih =>
    have hc := scalar c
    have hone := (utf8Bytes_length c.toNat).1
    rw [utf8_cons, List.length_append] at hfuel
    obtain ⟨fuel, rfl⟩ := Nat.exists_eq_succ_of_ne_zero (n := fuel) (by omega)
    have hrest := @ih fuel (by omega)
    rw [utf8_cons, List.length_cons, ← hrest]
    unfold utf8Bytes
    split_ifs with h₁ h₂ h₃
    · have hascii : utf8Extra (UInt8.ofNat c.toNat) = 0 := utf8Extra_ascii
        (UInt8.lt_iff_toNat_lt.mpr (by
          rw [UInt8.toNat_ofNat']
          exact Nat.lt_of_le_of_lt (Nat.mod_le _ _) (Nat.lt_succ_of_le h₁)))
      exact utf8LengthLoop_lead [] hascii rfl
    · exact utf8LengthLoop_lead [_]
        ((utf8Extra_lead _ (by omega)).1 (by omega) (by omega)) rfl
    · exact utf8LengthLoop_lead [_, _]
        ((utf8Extra_lead _ (by omega)).2.1 (by omega) (by omega)) rfl
    · exact utf8LengthLoop_lead [_, _, _]
        ((utf8Extra_lead _ (by omega)).2.2 (by omega)) rfl

theorem utf8Length_utf8 (l : List Char) : utf8Length (utf8 l) = l.length :=
  utf8LengthLoop_utf8 l (Nat.le_refl _)

end Characters

/-! ## What is written -/

/-- The bits of the code points of characters. -/
def codeBits (l : List Char) : List Bool := l.flatMap fun c => groupBits 10 c.toNat

theorem codeBits_cons (c : Char) (l : List Char) :
    codeBits (c :: l) = groupBits 10 c.toNat ++ codeBits l := rfl

theorem codeBits_ascii {l : List Char} (h : ∀ c ∈ l, c.toNat < 128) :
    codeBits l = charBits (utf8 l) := by
  induction l with
  | nil => rfl
  | cons c l ih =>
    obtain ⟨hc, hl⟩ := List.forall_mem_cons.mp h
    have hbyte : utf8Bytes c.toNat = [UInt8.ofNat c.toNat] := if_pos (Nat.le_of_lt_succ hc)
    have hnat : (UInt8.ofNat c.toNat).toNat = c.toNat :=
      UInt8.toNat_ofNat_of_lt' (Nat.lt_trans hc (by decide))
    rw [codeBits_cons, groupBits_small hc, ih hl, utf8_cons, hbyte, List.singleton_append,
      charBits_cons, hnat]

/-- The characters `exi_output_literal` writes: those in front of one that `utf8_char` refuses. -/
def written (l : List Char) : List Char := l.takeWhile fun c => Read c.toNat

theorem outputChars_utf8 (l : List Char) (hzero : ∀ c ∈ l, c.toNat ≠ 0) {o : OutBits} {fuel : ℕ}
    (hfuel : (utf8 l).length ≤ fuel) :
    o.Appends (OutBits.outputChars fuel o (utf8 l)) (codeBits (written l)) := by
  induction l generalizing o fuel with
  | nil =>
    have hdone : OutBits.outputChars fuel o (utf8 []) = o := by cases fuel <;> rfl
    rw [hdone]
    exact OutBits.Appends.refl
  | cons c l ih =>
    obtain ⟨hc, hl⟩ := List.forall_mem_cons.mp hzero
    have hone := (utf8Bytes_length c.toNat).1
    have hne : utf8 (c :: l) ≠ [] := by
      rw [← List.length_pos_iff, utf8_cons, List.length_append]
      omega
    rw [utf8_cons, List.length_append] at hfuel
    obtain ⟨fuel, rfl⟩ := Nat.exists_eq_succ_of_ne_zero (n := fuel) (by omega)
    rw [OutBits.outputChars, if_neg hne, utf8_cons, utf8Char_bytes _ (scalar c)]
    unfold written
    by_cases hread : Read c.toNat
    · rw [if_pos hread, List.takeWhile_cons_of_pos (p := fun c : Char => decide (Read c.toNat))
        (decide_eq_true hread), codeBits_cons]
      have hlt : c.toNat < 2 ^ 64 := by
        have := scalar c
        omega
      have hbits := OutBits.outputUint_appends (o := o) (x := UInt64.ofNat c.toNat)
      rw [UInt64.toNat_ofNat_of_lt' hlt] at hbits
      exact hbits.trans (ih hl (by omega))
    · rw [if_neg hread, List.takeWhile_cons_of_neg (by simpa using hread)]
      exact OutBits.Appends.refl

/-- The bits of a literal. -/
theorem exiOutputLiteral_utf8 (l : List Char) (hzero : ∀ c ∈ l, c.toNat ≠ 0) (o : OutBits) :
    o.Appends (o.exiOutputLiteral (utf8 l))
      (groupBits 10 (literalLength (utf8 l)).toNat ++ codeBits (written l)) :=
  OutBits.outputUint_appends.trans (outputChars_utf8 l hzero (Nat.le_refl _))

/-! ## What is read -/

namespace InBits
variable {sh : IntShift} {p q : InBits} {l : List Char} {r : List Bool}

/-- A reader that goes on is truncated, or has fewer bits left. -/
def Ahead (p q : InBits) : Prop :=
  q.truncated = true ∨ q.Valid ∧ q.truncated = p.truncated ∧ q.bits.length < p.bits.length

theorem Ahead.trans {s : InBits} (h : Ahead p q) (h' : q.Valid → Ahead q s)
    (htruncated : q.truncated = true → s.truncated = true) : Ahead p s := by
  rcases h with h | ⟨hv, ht, hlt⟩
  · exact Or.inl (htruncated h)
  · rcases h' hv with h' | ⟨hv', ht', hlt'⟩
    · exact Or.inl h'
    · exact Or.inr ⟨hv', ht'.trans ht, Nat.lt_trans hlt' hlt⟩

theorem parseByte_ahead (hp : p.Valid) : Ahead p p.parseByte.2 := by
  by_cases hn : 8 ≤ p.bits.length
  · rw [parseByte_eq hp hn]
    refine Or.inr ⟨hp.advance hn, rfl, ?_⟩
    have hlength := congrArg List.length (advance_bits hn)
    rw [List.length_append, length_slice] at hlength
    show (p.advance 8).bits.length < _
    omega
  · rw [parseByte_short hp (Nat.lt_of_not_le hn)]
    exact Or.inl rfl

theorem parseByte_truncated (h : p.truncated = true) : p.parseByte.2.truncated = true := by
  unfold parseByte
  split_ifs <;> first | rfl | exact h

theorem parseUintLoop_truncated {fuel n : ℕ} {x : UInt64} (h : p.truncated = true) :
    (parseUintLoop sh fuel p x n).2.truncated = true := by
  induction fuel generalizing p x n with
  | zero => exact h
  | succ fuel ih =>
    have hbyte := parseByte_truncated h
    rw [parseUintLoop]
    dsimp only
    split_ifs
    · exact ih hbyte
    · exact hbyte

theorem parseUintLoop_ahead {fuel n : ℕ} {x : UInt64} (hp : p.Valid) :
    Ahead p (parseUintLoop sh (fuel + 1) p x n).2 := by
  induction fuel generalizing p x n with
  | zero =>
    have hbyte := parseByte_ahead hp
    rw [parseUintLoop]
    dsimp only
    split_ifs
    · exact hbyte
    · exact hbyte
  | succ fuel ih =>
    have hbyte := parseByte_ahead hp
    rw [parseUintLoop]
    dsimp only
    split_ifs
    · exact hbyte.trans ih parseUintLoop_truncated
    · exact hbyte

theorem parseUint_truncated (h : p.truncated = true) : (p.parseUint sh).2.truncated = true :=
  parseUintLoop_truncated h

theorem parseLiteral_succ {k : ℕ} {b : List UInt8}
    (h : p.parseLiteral sh (k + 1) = some (b, q)) :
    ∃ c d, utf8Encode ((p.parseUint sh).1.toNat % 2 ^ 32) = some c ∧
      (p.parseUint sh).2.parseLiteral sh k = some (d, q) ∧ b = c ++ d := by
  rw [parseLiteral] at h
  dsimp only at h
  cases hencode : utf8Encode ((p.parseUint sh).1.toNat % 2 ^ 32) with
  | none =>
    rw [hencode] at h
    exact absurd h.symm (Option.some_ne_none _)
  | some c =>
    rw [hencode] at h
    obtain ⟨⟨d, s⟩, hrec, hpair⟩ := Option.map_eq_some_iff.mp h
    obtain ⟨hbytes, rfl⟩ := Prod.mk.inj hpair
    exact ⟨c, d, rfl, hrec, hbytes.symm⟩

theorem parseLiteral_truncated {k : ℕ} {b : List UInt8} (ht : p.truncated = true)
    (h : p.parseLiteral sh k = some (b, q)) : q.truncated = true := by
  induction k generalizing p b with
  | zero => rwa [← (Prod.mk.inj (Option.some.inj h)).2]
  | succ k ih =>
    obtain ⟨c, d, -, hrec, -⟩ := parseLiteral_succ h
    exact ih (parseUint_truncated ht) hrec

/-- `parse_literal` reads on. -/
theorem parseLiteral_ahead {k : ℕ} {b : List UInt8} (hp : p.Valid)
    (h : p.parseLiteral sh (k + 1) = some (b, q)) : Ahead p q := by
  induction k generalizing p b with
  | zero =>
    obtain ⟨c, d, -, hrec, -⟩ := parseLiteral_succ h
    rw [← (Prod.mk.inj (Option.some.inj hrec)).2]
    exact parseUintLoop_ahead hp
  | succ k ih =>
    obtain ⟨c, d, -, hrec, -⟩ := parseLiteral_succ h
    have hfirst : Ahead p (p.parseUint sh).2 := parseUintLoop_ahead hp
    exact hfirst.trans (fun hv => ih hv hrec) fun ht => parseLiteral_truncated ht hrec

theorem groupBits_pos (v : ℕ) : 0 < (groupBits 10 v).length := by
  by_cases h : v / 128 = 0
  · rw [groupBits_last h, length_ofNat]
    omega
  · rw [groupBits_more h, List.length_append, length_ofNat]
    omega

/-- The code of a character is read. -/
theorem parseUint_char (sh : IntShift) (c : Char) (hp : p.Valid) (ht : p.truncated = false)
    (h : p.bits = groupBits 10 c.toNat ++ r) :
    p.parseUint sh = (UInt64.ofNat c.toNat, p.advance (groupBits 10 c.toNat).length) ∧
      (UInt64.ofNat c.toNat).toNat % 2 ^ 32 = c.toNat := by
  have hc : c.toNat < 2 ^ 31 := by
    have := scalar c
    omega
  have hnat : (UInt64.ofNat c.toNat).toNat = c.toNat :=
    UInt64.toNat_ofNat_of_lt' (hc.trans (by decide))
  refine ⟨?_, by rw [hnat]; exact Nat.mod_eq_of_lt (hc.trans (by decide))⟩
  rw [← hnat] at h hc
  rw [parseUint_of_bits hp ht hc h, hnat]

/-- **`parse_literal` ends behind the characters** only when it reads as many codes as there are,
and then it stores their bytes. -/
theorem parseLiteral_chars {k : ℕ} {b : List UInt8} (hp : p.Valid) (ht : p.truncated = false)
    (h : p.bits = codeBits l ++ r) (hres : p.parseLiteral sh k = some (b, q))
    (hend : q = p.advance (codeBits l).length) : k = l.length ∧ b.length = (utf8 l).length := by
  induction l generalizing p k b with
  | nil =>
    cases k with
    | zero =>
      rw [← (Prod.mk.inj (Option.some.inj hres)).1]
      exact ⟨rfl, rfl⟩
    | succ k =>
      rw [hend] at hres
      have hsame : p.advance (codeBits []).length = p := advance_zero hp
      rw [hsame] at hres
      rcases parseLiteral_ahead hp hres with htrunc | ⟨-, -, hlt⟩
      · rw [ht] at htrunc
        exact absurd htrunc Bool.false_ne_true
      · exact absurd hlt (Nat.lt_irrefl _)
  | cons c l ih =>
    rw [codeBits_cons, List.append_assoc] at h
    obtain ⟨-, hrest⟩ := advance_of_append h
    have hle : (groupBits 10 c.toNat).length ≤ p.bits.length := by
      rw [h, List.length_append]
      omega
    cases k with
    | zero =>
      -- the reader is still in front of the characters
      have hq := (Prod.mk.inj (Option.some.inj hres)).2
      have hbits := congrArg (fun x : InBits => x.bits.length) (hq.trans hend)
      have hcodes : p.bits = codeBits (c :: l) ++ r := by
        rw [codeBits_cons, List.append_assoc]
        exact h
      rw [(advance_of_append hcodes).2, hcodes, List.length_append, codeBits_cons,
        List.length_append] at hbits
      have := groupBits_pos c.toNat
      omega
    | succ k =>
      obtain ⟨hread, hmod⟩ := parseUint_char sh c hp ht h
      obtain ⟨e, d, hencode, hrec, rfl⟩ := parseLiteral_succ hres
      rw [hread] at hencode hrec
      dsimp only at hencode hrec
      rw [hmod] at hencode
      rw [codeBits_cons, List.length_append, ← advance_advance] at hend
      obtain ⟨hk, hd⟩ := ih (hp.advance hle) ht hrest hrec hend
      rw [List.length_append, utf8_cons, List.length_append, hd, utf8Encode_length hencode, hk,
        List.length_cons]
      exact ⟨rfl, rfl⟩

theorem codeLength_ge {f m j : ℕ} (h : codeLength f m p = (some j, q)) : m ≤ j := by
  induction f generalizing p m with
  | zero => exact absurd (Prod.mk.inj h).1.symm (Option.some_ne_none _)
  | succ f ih =>
    rw [codeLength] at h
    dsimp only at h
    split_ifs at h
    · exact Nat.le_of_succ_le (ih h)
    · exact Nat.le_of_succ_le (Nat.le_of_eq (Option.some.inj (Prod.mk.inj h).1))
    · exact Nat.le_of_eq (Option.some.inj (Prod.mk.inj h).1)

/-- `exi_utf8_length` finds a byte for each character at least. -/
theorem exiUtf8Length_ge {m k n : ℕ} (h : p.exiUtf8Length k m = .done n) : k + m ≤ n := by
  induction m generalizing p k with
  | zero => exact Nat.le_of_eq (Utf8Length.done.inj h)
  | succ m ih =>
    rw [exiUtf8Length] at h
    cases hcode : codeLength 3 1 p with
    | mk j q =>
      rw [hcode] at h
      cases j with
      | none => exact Utf8Length.noConfusion h
      | some j =>
        dsimp only at h
        split_ifs at h
        have hj := codeLength_ge hcode
        have := ih h
        omega

theorem codeLength_last {f g v m : ℕ} (hp : p.Valid) (hv : v / 128 = 0)
    (h : p.bits = groupBits (g + 1) v ++ r) : ∃ j, codeLength (f + 1) m p =
      (some j, p.advance (groupBits (g + 1) v).length) ∧ (128 ≤ v → m < j) := by
  rw [groupBits_last hv] at h ⊢
  obtain ⟨hb, _, _⟩ := parseByte_of_bits hp h
  have hmark : ¬(UInt8.ofNat (v % 128) &&& 0x80 ≠ 0) := by
    rw [marked_iff (by omega)]
    omega
  rw [codeLength, hb]
  dsimp only
  rw [if_neg hmark, length_ofNat]
  exact ⟨_, rfl, fun hle => absurd hle (by omega)⟩

/-- A code of more than one byte takes more than one in UTF-8. -/
theorem codeLength_groups {f g v m : ℕ} (hp : p.Valid) (hv : v < 128 ^ (f + 1)) (hfg : f ≤ g)
    (h : p.bits = groupBits (g + 1) v ++ r) : ∃ j, codeLength (f + 1) m p =
      (some j, p.advance (groupBits (g + 1) v).length) ∧ (128 ≤ v → m < j) := by
  induction f generalizing p v m g with
  | zero => exact codeLength_last hp (Nat.div_eq_of_lt (by rwa [Nat.zero_add, pow_one] at hv)) h
  | succ f ih =>
    by_cases hmore : v / 128 = 0
    · exact codeLength_last hp hmore h
    · obtain ⟨g, rfl⟩ := Nat.exists_eq_succ_of_ne_zero (n := g) (by omega)
      rw [groupBits_more hmore, List.append_assoc] at h
      obtain ⟨hb, hr, hva⟩ := parseByte_of_bits hp h
      have hmark : UInt8.ofNat (v % 128 + 128) &&& 0x80 ≠ 0 :=
        (marked_iff (by omega)).mpr (by omega)
      rw [codeLength, hb]
      dsimp only
      rw [if_pos hmark]
      obtain ⟨j, hj, -⟩ := ih (m := m + 1) (g := g) hva
        (Nat.div_lt_of_lt_mul (by rw [← Nat.pow_succ']; exact hv)) (by omega) hr
      rw [hj, advance_advance, groupBits_more hmore, List.length_append, length_ofNat]
      exact ⟨j, rfl, fun _ => codeLength_ge hj⟩

/-- **`exi_utf8_length` counts characters** only where they are ASCII. -/
theorem exiUtf8Length_chars {m k : ℕ} (hp : p.Valid) (ht : p.truncated = false)
    (h : p.bits = codeBits l ++ r) (hm : m ≤ l.length)
    (hres : p.exiUtf8Length k m = .done (k + m)) : ∀ c ∈ l.take m, c.toNat < 128 := by
  induction m generalizing p l k with
  | zero => exact fun c hc => absurd hc List.not_mem_nil
  | succ m ih =>
    cases l with
    | nil => exact absurd hm (Nat.not_succ_le_zero m)
    | cons c l =>
      rw [codeBits_cons, List.append_assoc] at h
      obtain ⟨-, hrest⟩ := advance_of_append h
      have hle : (groupBits 10 c.toNat).length ≤ p.bits.length := by
        rw [h, List.length_append]
        omega
      have hc : c.toNat < 128 ^ 3 := by
        have := scalar c
        omega
      obtain ⟨j, hcode, hmore⟩ := codeLength_groups (f := 2) (g := 9) (m := 1) hp hc (by decide) h
      rw [exiUtf8Length, hcode] at hres
      dsimp only at hres
      rw [advance_truncated, ht, if_neg Bool.false_ne_true] at hres
      have hone := codeLength_ge hcode
      have hge := exiUtf8Length_ge hres
      have hj : j = 1 := by omega
      subst hj
      rw [show k + (m + 1) = k + 1 + m by omega] at hres
      have htail := ih (hp.advance hle) ht hrest (Nat.le_of_succ_le_succ hm) hres
      rw [List.take_succ_cons]
      rintro d hd
      rcases List.mem_cons.mp hd with rfl | hd
      · by_contra hascii
        exact absurd (hmore (Nat.le_of_not_lt hascii)) (Nat.lt_irrefl 1)
      · exact htail d hd

end InBits

/-! ## The literal -/

namespace ExiInput
variable {sh : IntShift} {p q : ExiInput} {s : CString} {l : List Char} {r : List Bool}
variable {start : InBits} {name n m : ℕ}

/-- A literal that is read. -/
theorem parseLiteralValue_some (h : p.parseLiteralValue sh start name n m = some (some s, q)) :
    ∃ k b, p.input.exiUtf8Length 0 m = .done k ∧ p.input.parseLiteral sh k = some (b, q.input) ∧
      b.length < (if n ≠ 0 then n else k + 1) ∧ s = b.takeWhile (· ≠ 0) := by
  rw [parseLiteralValue] at h
  cases hlength : p.input.exiUtf8Length 0 m with
  | truncated =>
    rw [hlength] at h
    exact absurd (Prod.mk.inj (Option.some.inj h)).1.symm (Option.some_ne_none _)
  | invalid =>
    rw [hlength] at h
    exact absurd (Prod.mk.inj (Option.some.inj h)).1.symm (Option.some_ne_none _)
  | done k =>
    rw [hlength] at h
    dsimp only at h
    by_cases hc : n ≠ 0 ∧ k ≥ n
    · rw [if_pos hc] at h
      exact absurd (Prod.mk.inj (Option.some.inj h)).1.symm (Option.some_ne_none _)
    · rw [if_neg hc] at h
      cases hread : p.input.parseLiteral sh k with
      | none =>
        rw [hread] at h
        exact absurd h.symm (Option.some_ne_none _)
      | some bq =>
        obtain ⟨b, q'⟩ := bq
        rw [hread] at h
        dsimp only at h
        by_cases hroom : (if n ≠ 0 then n else k + 1) ≤ b.length
        · rw [if_pos hroom] at h
          exact absurd h.symm (Option.some_ne_none _)
        · rw [if_neg hroom] at h
          obtain ⟨hs, hq⟩ := Prod.mk.inj (Option.some.inj h)
          refine ⟨k, b, rfl, ?_, Nat.lt_of_not_le hroom, (Option.some.inj hs).symm⟩
          rw [hread, ← hq]

/-- **A literal that comes back** was written in full, and its bytes were counted as characters. -/
theorem parseLiteralValue_chars (hp : p.input.Valid) (ht : p.input.truncated = false)
    (hbits : p.input.bits = codeBits (written l) ++ r)
    (h : p.parseLiteralValue sh start name n m = some (some (utf8 l), q))
    (hend : q.input = p.input.advance (codeBits (written l)).length) :
    written l = l ∧ p.input.exiUtf8Length 0 m = .done l.length ∧
      (utf8 l).length < (if n ≠ 0 then n else l.length + 1) := by
  obtain ⟨k, b, hlength, hread, hroom, hs⟩ := parseLiteralValue_some h
  obtain ⟨hk, hb⟩ := InBits.parseLiteral_chars hp ht hbits hread hend
  have hle : (utf8 l).length ≤ b.length := by
    rw [hs]
    exact (List.takeWhile_sublist _).length_le
  -- a character left out would have left its bytes out
  obtain ⟨t, hl⟩ := List.takeWhile_prefix (fun c : Char => decide (Read c.toNat)) (l := l)
  have hsplit : written l ++ t = l := hl
  have hnil : t = [] := by
    have hcount := congrArg (fun x => (utf8 x).length) hsplit
    have ht := length_le_utf8 t
    rw [utf8, List.flatMap_append, List.length_append] at hcount
    change (utf8 (written l)).length + (utf8 t).length = _ at hcount
    exact List.length_eq_zero_iff.mp (by omega)
  rw [hnil, List.append_nil] at hsplit
  rw [hsplit] at hk hb
  rw [hk] at hlength hroom
  exact ⟨hsplit, hlength, by omega⟩

end ExiInput

section Literal
variable {l : List Char} {o : OutBits} {data : List UInt8}

/-- The reader in front of a literal. -/
theorem literal_open (hzero : ∀ c ∈ l, c.toNat ≠ 0) (ho : o.Clear)
    (hf : (o.exiOutputLiteral (utf8 l)).Fits) (hd : (o.exiOutputLiteral (utf8 l)).Held data) :
    ∃ r, (InBits.openAt data o.pos).Valid ∧
      (InBits.openAt data o.pos).bits =
        groupBits 10 (literalLength (utf8 l)).toNat ++ (codeBits (written l) ++ r) ∧
      InBits.openAt data (o.exiOutputLiteral (utf8 l)).pos =
        ((InBits.openAt data o.pos).advance
          (groupBits 10 (literalLength (utf8 l)).toNat).length).advance
            (codeBits (written l)).length := by
  have happ := exiOutputLiteral_utf8 l hzero o
  obtain ⟨r, hr⟩ := (happ.emits ho hf).bits_openAt hd
  have hroom := hd.room
  rw [happ.pos] at hroom
  refine ⟨r, InBits.openAt_valid (by omega), ?_, ?_⟩
  · rw [hr, List.append_assoc]
  · rw [InBits.advance_advance, InBits.openAt_advance, happ.pos, List.length_append]

/-- A string of ASCII characters is counted right, and no more characters are read than there
are. -/
theorem literal_count {p : InBits} {m : ℕ} {r : List Bool} (hp : p.Valid)
    (ht : p.truncated = false) (hbits : p.bits = codeBits l ++ r)
    (hascii : ∀ c ∈ l, c.toNat < 128) (hzero : ∀ c ∈ l, c.toNat ≠ 0)
    (hlength : p.exiUtf8Length 0 m = .done l.length) : m = l.length := by
  obtain ⟨ha, hl⟩ := utf8_ascii hascii hzero
  have hle := InBits.exiUtf8Length_ge hlength
  rw [codeBits_ascii hascii] at hbits
  rw [InBits.exiUtf8Length_ascii hp ht ha hbits (by omega)] at hlength
  have := InBits.Utf8Length.done.inj hlength
  omega

theorem OutBits.empty_clear (k : ℕ) : (⟨List.replicate k 0, 0, 0⟩ : OutBits).Clear := by
  refine ⟨Nat.succ_pos 7, fun i _ => ?_⟩
  have hz : (List.replicate k (0 : UInt8)).getD (i / 8) 0 = 0 := by
    rw [List.getD_eq_getElem?_getD, List.getElem?_replicate]
    split_ifs <;> rfl
  rw [bitAt, hz]
  exact Nat.zero_testBit _

/-- A buffer as long as the literal has bits holds it. -/
theorem literal_fits (hzero : ∀ c ∈ l, c.toNat ≠ 0) :
    ∃ o : OutBits, o.Clear ∧ (o.exiOutputLiteral (utf8 l)).Fits := by
  have hsize := exiOutputLiteral_utf8 l hzero
  refine ⟨⟨List.replicate (groupBits 10 (literalLength (utf8 l)).toNat ++
    codeBits (written l)).length 0, 0, 0⟩, OutBits.empty_clear _, ?_⟩
  unfold OutBits.Fits
  rw [(hsize _).pos, (hsize _).size, List.length_replicate]
  show 0 * 8 + 0 + _ ≤ _
  omega

/-- What a literal that comes back says about its characters. -/
theorem literal_ascii {p q : ExiInput} {r : List Bool} {name n : ℕ} (hn : n < 2 ^ 31)
    (hzero : ∀ c ∈ l, c.toNat ≠ 0) (hglobals : p.globals.strings = []) (hlocals : p.locals = [])
    (hp : p.input.Valid) (ht : p.input.truncated = false)
    (hbits : p.input.bits =
      groupBits 10 (literalLength (utf8 l)).toNat ++ (codeBits (written l) ++ r))
    (h : p.exiParseString IntShift.zero name n = some (some (utf8 l), q))
    (hend : q.input = (p.input.advance (groupBits 10 (literalLength (utf8 l)).toNat).length).advance
      (codeBits (written l)).length) :
    (∀ c ∈ l, c.toNat < 128) ∧ (n = 0 ∨ (utf8 l).length < n) ∧ l.length + 2 < 2 ^ 31 := by
  have hrest := InBits.parseUint_rest (s := IntShift.zero) hp ht hbits
  have hlt : (p.input.parseUint IntShift.zero).1.toNat < 2 ^ 31 :=
    InBits.parseUintLoop_zero_lt (by decide)
  have hmod := Nat.mod_eq_of_lt (hlt.trans (show 2 ^ 31 < 2 ^ 32 by decide))
  -- a length that an int holds is read as it is
  have hcount : l.length + 2 < 2 ^ 31 →
      (p.input.parseUint IntShift.zero).1.toNat = l.length + 2 := by
    intro hl
    rw [← utf8Length_utf8 l] at hl ⊢
    have hvalue := literalLength_of_lt hl
    rw [InBits.parseUint_of_bits hp ht (by rw [hvalue]; exact hl) hbits, hvalue]
  obtain ⟨-, hchars⟩ := InBits.advance_of_append hbits
  have hle : (groupBits 10 (literalLength (utf8 l)).toNat).length ≤ p.input.bits.length := by
    rw [hbits, List.length_append]
    omega
  have hv := hp.advance hle
  rw [ExiInput.exiParseString] at h
  dsimp only at h
  rw [hrest, InBits.advance_truncated, ht, if_neg Bool.false_ne_true, hmod] at h
  generalize (p.input.parseUint IntShift.zero).1.toNat = v at hlt hcount h
  rcases v with _ | _ | m
  · obtain ⟨t, htab, -⟩ := ExiInput.parseCompactId_mem (congrArg Prod.fst (Option.some.inj h))
    rw [hlocals] at htab
    exact absurd htab.symm (Option.some_ne_none _)
  · obtain ⟨t, htab, hmem⟩ := ExiInput.parseCompactId_mem (congrArg Prod.fst (Option.some.inj h))
    rw [← Option.some.inj htab, hglobals] at hmem
    exact absurd hmem List.not_mem_nil
  · obtain ⟨hwritten, hlength, hroom⟩ := ExiInput.parseLiteralValue_chars
      (p := { p with
        input := p.input.advance (groupBits 10 (literalLength (utf8 l)).toNat).length })
      hv ht hchars h hend
    rw [hwritten] at hchars
    have hbytes := length_le_utf8 l
    have hascii : ∀ c ∈ l, c.toNat < 128 := by
      by_cases hshort : l.length + 2 < 2 ^ 31
      · have hm := hcount hshort
        obtain rfl : m = l.length := by omega
        have hall := InBits.exiUtf8Length_chars (k := 0) hv ht hchars (Nat.le_refl _)
          (by rw [Nat.zero_add]; exact hlength)
        rwa [List.take_length] at hall
      · -- the container is an int long, so there is no room for more bytes
        refine ascii_of_length ?_
        split_ifs at hroom <;> omega
    have hm := literal_count hv ht hchars hascii hzero hlength
    refine ⟨hascii, ?_, by omega⟩
    split_ifs at hroom with hn
    · exact Or.inr hroom
    · exact Or.inl (not_not.mp hn)

end Literal

/-- **A literal comes back exactly when it is ASCII**, fits its container, and its length an
`int`. -/
theorem literalRoundTrip_iff (s : Utf8String) (n : ℕ) (hn : n < 2 ^ 31) :
    LiteralRoundTrip (utf8 s.chars) n ↔ (∀ c ∈ s.chars, c.toNat < 128) ∧
      (n = 0 ∨ (utf8 s.chars).length < n) ∧ s.chars.length + 2 < 2 ^ 31 := by
  obtain ⟨l, hzero⟩ := s
  dsimp only
  constructor
  · intro h
    obtain ⟨o, ho, hf⟩ := literal_fits hzero
    have hd := OutBits.held_buffer hf
    obtain ⟨r, hv, hbits, hpos⟩ := literal_open hzero ho hf hd
    obtain ⟨q, hq, hend⟩ := h IntShift.zero o _ (ExiInput.start (InBits.openAt _ o.pos)) 0 ho hf hd
      rfl
    exact literal_ascii (p := ExiInput.start (InBits.openAt _ o.pos)) hn hzero rfl rfl hv rfl hbits
      hq (hend.trans hpos)
  · rintro ⟨hascii, hroom, hlength⟩ sh o data p name ho hf hd hp
    obtain ⟨r, hv, hbits, hpos⟩ := literal_open hzero ho hf hd
    have hwritten : written l = l := by
      refine List.takeWhile_eq_self_iff.mpr fun c hc => decide_eq_true (Or.inl ?_)
      exact (hascii c hc).trans (by decide)
    rw [hwritten, codeBits_ascii hascii, length_charBits, ← hp] at hpos
    rw [hwritten, codeBits_ascii hascii, ← hp] at hbits
    rw [← hp] at hv
    obtain ⟨ha, hbytes⟩ := utf8_ascii hascii hzero
    have ht : p.input.truncated = false := by
      rw [hp]
      rfl
    have hvalue := literalLength_of_lt (s := utf8 l) (by rw [utf8Length_utf8]; exact hlength)
    rw [utf8Length_utf8] at hvalue
    obtain ⟨-, hchars⟩ := InBits.advance_of_append hbits
    have hle : (groupBits 10 (literalLength (utf8 l)).toNat).length ≤ p.input.bits.length := by
      rw [hbits, List.length_append]
      omega
    have hu := InBits.parseUint_of_bits (s := sh) hv ht (by rw [hvalue]; exact hlength) hbits
    have hmod : (literalLength (utf8 l)).toNat % 2 ^ 32 = (utf8 l).length + 2 := by
      rw [hvalue, Nat.mod_eq_of_lt (hlength.trans (by decide)), hbytes]
    have hfit : ¬(n ≠ 0 ∧ (utf8 l).length ≥ n) := by omega
    have hread := ExiInput.parseLiteralValue_ascii sh p.input name (n := n)
      (p := { p with
        input := p.input.advance (groupBits 10 (literalLength (utf8 l)).toNat).length })
      (hv.advance hle) ht ha hchars (Nat.le_refl _)
    rw [if_neg hfit, List.take_length] at hread
    rw [ExiInput.exiParseString, hu]
    dsimp only
    rw [InBits.advance_truncated, ht, if_neg Bool.false_ne_true, hmod]
    exact ⟨_, hread, hpos.symm⟩

/-- A model name of twelve characters, in the 32 bytes of `mfModel`. -/
def modelName : Utf8String :=
  ⟨['I', 'n', 'v', 'e', 'r', 't', 'e', 'r', ' ', '3', '.', '0'], by simp⟩

/-- The name comes back. -/
theorem literalRoundTrip_modelName : LiteralRoundTrip (utf8 modelName.chars) 32 := by
  refine (literalRoundTrip_iff modelName 32 (by decide)).mpr ⟨?_, Or.inr ?_, ?_⟩
  · simp [modelName]
  · decide
  · decide

/-- The letter é takes two bytes, so a character is read that is not there, and the terminator is
stored behind the three bytes that were allocated. -/
theorem not_literalRoundTrip :
    let o := (OutBits.blank 0).exiOutputLiteral (utf8 [Char.ofNat 0xe9])
    o.Fits ∧ (ExiInput.start (InBits.openAt o.buffer 0)).exiParseString IntShift.x86 0 0 = none ∧
      ¬LiteralRoundTrip (utf8 [Char.ofNat 0xe9]) 0 := by
  intro o
  have hf : o.Fits := by unfold OutBits.Fits; decide
  have hread : (ExiInput.start (InBits.openAt o.buffer 0)).exiParseString IntShift.x86 0 0 = none :=
    by decide
  refine ⟨hf, hread, fun h => ?_⟩
  obtain ⟨q, hq, -⟩ := h IntShift.x86 (OutBits.blank 0) o.buffer
    (ExiInput.start (InBits.openAt o.buffer 0)) 0 (OutBits.blank_clear (by decide)) hf
    (OutBits.held_buffer hf) rfl
  exact absurd (hread.symm.trans hq).symm (Option.some_ne_none _)

end SeClient
