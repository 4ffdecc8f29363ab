import SeClient.Bits
import SeClient.BitIO

/-!
# What the bit reader takes

Every function of the reader takes a fixed number of the bits left, and is truncated
exactly when there are fewer.
-/

namespace SeClient
open Bits

namespace InBits

/-- The reader at bit `i` of `data`. -/
def openAt (data : List UInt8) (i : ℕ) : InBits := ⟨data.drop (i / 8), i % 8, false⟩

/-- The bits left to read. -/
def bits (p : InBits) : List Bool := slice p.rest p.bit (8 * p.rest.length - p.bit)

/-- The cursor is inside the data. -/
structure Valid (p : InBits) : Prop where
  bit : p.bit < 8
  inside : p.bit ≤ 8 * p.rest.length

/-- The reader `n` bits further on. -/
def advance (p : InBits) (n : ℕ) : InBits :=
  { p with rest := p.rest.drop ((p.bit + n) / 8), bit := (p.bit + n) % 8 }

section Reading
variable {p : InBits} {n m i : ℕ} {w r : List Bool} {data : List UInt8}

@[simp] theorem length_bits : p.bits.length = 8 * p.rest.length - p.bit := length_slice

@[simp] theorem advance_truncated : (p.advance n).truncated = p.truncated := rfl

theorem Valid.advance (hp : p.Valid) (hn : n ≤ p.bits.length) : (p.advance n).Valid := by
  have hin := hp.inside
  rw [length_bits] at hn
  refine ⟨Nat.mod_lt _ (Nat.zero_lt_succ 7), ?_⟩
  simp only [InBits.advance, List.length_drop]
  omega

theorem openAt_valid (hi : i ≤ 8 * data.length) : (openAt data i).Valid := by
  refine ⟨Nat.mod_lt _ (Nat.zero_lt_succ 7), ?_⟩
  simp only [openAt, List.length_drop]
  omega

@[simp] theorem advance_advance : (p.advance n).advance m = p.advance (n + m) := by
  have hd : (p.bit + n) / 8 + ((p.bit + n) % 8 + m) / 8 = (p.bit + (n + m)) / 8 := by omega
  have hm : ((p.bit + n) % 8 + m) % 8 = (p.bit + (n + m)) % 8 := by omega
  simp only [advance, List.drop_drop, hd, hm]

theorem advance_zero (hp : p.Valid) : p.advance 0 = p := by
  have hbit := hp.bit
  have hd : (p.bit + 0) / 8 = 0 := by omega
  have hm : (p.bit + 0) % 8 = p.bit := by omega
  simp only [advance, hd, hm, List.drop_zero]

theorem openAt_advance : (openAt data i).advance n = openAt data (i + n) := by
  have hd : i / 8 + (i % 8 + n) / 8 = (i + n) / 8 := by omega
  have hm : (i % 8 + n) % 8 = (i + n) % 8 := by omega
  simp only [openAt, advance, List.drop_drop, hd, hm]

theorem openAt_bits : (openAt data i).bits = slice data i (8 * data.length - i) := by
  have hl : 8 * (data.length - i / 8) - i % 8 = 8 * data.length - i := by omega
  have hi : 8 * (i / 8) + i % 8 = i := by omega
  simp only [openAt, bits, slice_drop, List.length_drop, hl, hi]

/-- What is left after `n` bits. -/
theorem advance_bits (hn : n ≤ p.bits.length) :
    p.bits = slice p.rest p.bit n ++ (p.advance n).bits := by
  rw [length_bits] at hn
  have hl : 8 * (p.rest.length - (p.bit + n) / 8) - (p.bit + n) % 8 =
      8 * p.rest.length - p.bit - n := by omega
  have hi : 8 * ((p.bit + n) / 8) + (p.bit + n) % 8 = p.bit + n := by omega
  have ht : (p.advance n).bits = slice p.rest (p.bit + n) (8 * p.rest.length - p.bit - n) := by
    simp only [advance, bits, slice_drop, List.length_drop, hl, hi]
  rw [ht, ← slice_add, bits]
  congr 1
  omega

/-- A known prefix of the bits left, and what is left after it. -/
theorem advance_of_append (h : p.bits = w ++ r) :
    slice p.rest p.bit w.length = w ∧ (p.advance w.length).bits = r := by
  have hn : w.length ≤ p.bits.length := by rw [h, List.length_append]; omega
  have ha := advance_bits hn
  rw [h] at ha
  have hw := List.append_inj ha (by rw [length_slice])
  exact ⟨hw.1.symm, hw.2.symm⟩

theorem bitAt_byte {b e : ℕ} (hb : b < 8) :
    bitAt p.rest (8 * e + b) = (p.byte e).testBit (7 - b) := by
  have hd : (8 * e + b) / 8 = e := by omega
  have hm : (8 * e + b) % 8 = b := by omega
  rw [bitAt, hd, hm, byte]

theorem byte_lt : p.byte n < 2 ^ 8 := UInt8.toNat_lt _

theorem parseByte_eq (hp : p.Valid) (hn : 8 ≤ p.bits.length) :
    p.parseByte = (UInt8.ofNat (toNat (slice p.rest p.bit 8)), p.advance 8) := by
  have hbit := hp.bit
  have hin := hp.inside
  rw [length_bits] at hn
  have ha : p.advance 8 = { p with rest := p.rest.drop 1 } := by
    have hd : (p.bit + 8) / 8 = 1 := by omega
    have hm : (p.bit + 8) % 8 = p.bit := by omega
    simp only [advance, hd, hm]
  have hl : p.lacks (if p.bit ≠ 0 then 2 else 1) = false := by
    rw [lacks, decide_eq_false]
    split_ifs <;> omega
  rw [parseByte, hl, ha, if_neg Bool.false_ne_true]
  have hv : ∀ v, slice p.rest p.bit 8 = ofNat 8 v →
      UInt8.ofNat (toNat (slice p.rest p.bit 8)) = UInt8.ofNat v := by
    intro v hv
    rw [hv, toNat_ofNat]
    exact UInt8.toNat_inj.mp (by rw [UInt8.toNat_ofNat', UInt8.toNat_ofNat', Nat.mod_mod])
  split_ifs with hk
  · rw [hv (p.byte 0 <<< p.bit ||| p.byte 1 >>> (8 - p.bit))]
    refine slice_eq_ofNat (fun j hj => ?_)
    rw [Nat.testBit_or, Nat.testBit_shiftLeft, Nat.testBit_shiftRight]
    by_cases hlow : p.bit + j < 8
    · have hb := bitAt_byte (p := p) (e := 0) hlow
      have hsecond : (p.byte 1).testBit (8 - p.bit + (8 - 1 - j)) = false :=
        testBit_byte_of_le (by omega)
      rw [Nat.mul_zero, Nat.zero_add] at hb
      rw [hb, hsecond, decide_eq_true (by omega), Bool.true_and, Bool.or_false]
      congr 1
      omega
    · have hb := bitAt_byte (p := p) (e := 1) (show p.bit + j - 8 < 8 by omega)
      rw [show 8 * 1 + (p.bit + j - 8) = p.bit + j by omega] at hb
      rw [hb, decide_eq_false (by omega), Bool.false_and, Bool.false_or]
      congr 1
      omega
  · rw [hv (p.byte 0)]
    refine slice_eq_ofNat (fun j hj => ?_)
    have hb := bitAt_byte (p := p) (e := 0) hj
    rw [Nat.mul_zero, Nat.zero_add] at hb
    rw [show p.bit + j = j by omega, hb]

theorem parseByte_short (hp : p.Valid) (hn : p.bits.length < 8) : p.parseByte = (0, p.truncate) := by
  have hbit := hp.bit
  have hin := hp.inside
  rw [length_bits] at hn
  have hl : p.lacks (if p.bit ≠ 0 then 2 else 1) = true := by
    rw [lacks, decide_eq_true]
    split_ifs <;> omega
  rw [parseByte, hl, if_pos rfl]

theorem parseBit_eq (hp : p.Valid) (hn : 1 ≤ p.bits.length) :
    p.parseBit = (toNat (slice p.rest p.bit 1), p.advance 1) := by
  have hbit := hp.bit
  have hin := hp.inside
  rw [length_bits] at hn
  have hl : p.lacks 1 = false := by rw [lacks, decide_eq_false]; omega
  have hb := bitAt_byte (p := p) (e := 0) hbit
  rw [Nat.mul_zero, Nat.zero_add] at hb
  have hv : toNat (slice p.rest p.bit 1) = (p.byte 0 >>> (7 - p.bit)) % 2 := by
    have hs : slice p.rest p.bit 1 = ofNat 1 (p.byte 0 >>> (7 - p.bit)) := by
      refine slice_eq_ofNat (fun j hj => ?_)
      rw [show j = 0 by omega, Nat.add_zero, hb, Nat.testBit_shiftRight]
      rfl
    rw [hs, toNat_ofNat, Nat.pow_one]
  rw [parseBit, hl, if_neg Bool.false_ne_true, hv]
  simp only
  split_ifs with hk
  · have hd : (p.bit + 1) / 8 = 1 := by omega
    have hm : (p.bit + 1) % 8 = 0 := by omega
    simp only [advance, hd, hm]
  · have hd : (p.bit + 1) / 8 = 0 := by omega
    have hm : (p.bit + 1) % 8 = p.bit + 1 := by omega
    simp only [advance, hd, hm, List.drop_zero]

/-- The bytes `parse_bits` gathers, of which 32 bits are kept. -/
theorem gather_bytes (k : ℕ) :
    (List.range k).foldl (fun bits j => (bits <<< 8 ||| p.byte (j + 1)) % 2 ^ 32) (p.byte 0) =
      toNat (slice p.rest 0 (8 * (k + 1))) % 2 ^ 32 := by
  have hbyte : ∀ e, toNat (slice p.rest (8 * e) 8) = p.byte e := by
    intro e
    have hs : slice p.rest (8 * e) 8 = ofNat 8 (p.byte e) :=
      slice_eq_ofNat (fun j hj => bitAt_byte hj)
    rw [hs, toNat_ofNat, Nat.mod_eq_of_lt byte_lt]
  induction k with
  | zero =>
    have hlt : p.byte 0 < 2 ^ 32 := byte_lt.trans_le (by decide)
    have h0 := hbyte 0
    rw [Nat.mul_zero] at h0
    rw [List.range_zero, List.foldl_nil, Nat.zero_add, Nat.mul_one, h0, Nat.mod_eq_of_lt hlt]
  | succ k ih =>
    rw [List.range_succ, List.foldl_append, ih, List.foldl_cons, List.foldl_nil,
      ← Nat.shiftLeft_add_eq_or_of_lt byte_lt, Nat.shiftLeft_eq,
      Nat.mul_succ 8 (k + 1), slice_add, toNat_append, Nat.zero_add, hbyte, length_slice]
    omega

/-- `parse_bits` gathers whole bytes in 32 bits and so loses the high bits of a long field. -/
theorem parseBits_eq (hp : p.Valid) (hn : n ≤ p.bits.length) :
    p.parseBits n =
      (toNat (slice p.rest p.bit n) % 2 ^ (24 + (p.bit + n) % 8), p.advance n) := by
  have hbit := hp.bit
  have hin := hp.inside
  rw [length_bits] at hn
  have hl : p.lacks (if (p.bit + n) % 8 ≠ 0 then (p.bit + n) / 8 + 1 else (p.bit + n) / 8) =
      false := by
    rw [lacks, decide_eq_false]
    split_ifs <;> omega
  have hsplit : slice p.rest 0 (8 * ((p.bit + n) / 8 + 1)) =
      slice p.rest 0 p.bit ++ slice p.rest p.bit n ++
        slice p.rest (p.bit + n) (8 - (p.bit + n) % 8) := by
    have h8 : 8 * ((p.bit + n) / 8 + 1) = p.bit + n + (8 - (p.bit + n) % 8) := by omega
    rw [h8, slice_add, slice_add, Nat.zero_add, Nat.zero_add]
  have hwl : toNat (slice p.rest p.bit n) < 2 ^ n := by
    have h := toNat_lt (w := slice p.rest p.bit n)
    rwa [length_slice] at h
  have hrl : toNat (slice p.rest (p.bit + n) (8 - (p.bit + n) % 8)) <
      2 ^ (8 - (p.bit + n) % 8) := by
    have h := toNat_lt (w := slice p.rest (p.bit + n) (8 - (p.bit + n) % 8))
    rwa [length_slice] at h
  have hv : (toNat (slice p.rest 0 (8 * ((p.bit + n) / 8 + 1))) % 2 ^ 32) >>>
      (8 - (p.bit + n) % 8) % 2 ^ n =
        toNat (slice p.rest p.bit n) % 2 ^ (24 + (p.bit + n) % 8) := by
    have h32 : (2 : ℕ) ^ 32 = 2 ^ (8 - (p.bit + n) % 8) * 2 ^ (24 + (p.bit + n) % 8) := by
      rw [← Nat.pow_add]
      congr 1
      omega
    rw [hsplit, toNat_append, toNat_append, length_slice, length_slice, Nat.shiftRight_eq_div_pow,
      h32, Nat.mod_mul_right_div_self, Nat.mul_comm _ (2 ^ (8 - (p.bit + n) % 8)),
      Nat.mul_add_div (Nat.two_pow_pos _), Nat.div_eq_of_lt hrl, Nat.add_zero]
    generalize 24 + (p.bit + n) % 8 = k
    by_cases hk : n ≤ k
    · have hle : (2 : ℕ) ^ n ≤ 2 ^ k := Nat.pow_le_pow_right (by decide) hk
      rw [Nat.mod_mod_of_dvd _ (Nat.pow_dvd_pow 2 hk), Nat.mul_comm _ (2 ^ n), Nat.mul_add_mod,
        Nat.mod_eq_of_lt hwl, Nat.mod_eq_of_lt (hwl.trans_le hle)]
    · have hlt : (2 : ℕ) ^ k < 2 ^ n := Nat.pow_lt_pow_right (by decide) (by omega)
      obtain ⟨c, hc⟩ : (2 : ℕ) ^ k ∣ 2 ^ n := Nat.pow_dvd_pow 2 (by omega)
      rw [Nat.mod_eq_of_lt ((Nat.mod_lt _ (Nat.two_pow_pos k)).trans hlt)]
      conv_lhs => rw [hc, Nat.mul_left_comm, Nat.mul_add_mod]
  rw [parseBits]
  simp only [hl, if_neg Bool.false_ne_true, gather_bytes]
  rw [hv]
  rfl

end Reading

end InBits
end SeClient
