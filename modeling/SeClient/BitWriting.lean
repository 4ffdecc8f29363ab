import SeClient.Bits
import SeClient.BitIO

/-!
# What the bit writer appends

Every function of the writer is described by the string of bits it appends.  The
descriptions compose along `++`, so nothing above this module mentions bytes.
-/

namespace SeClient
open Bits

namespace OutBits

/-- The number of bits written. -/
def pos (o : OutBits) : ℕ := 8 * o.ptr + o.bit

/-- Nothing is written beyond the cursor: `exi_output_header` clears the buffer. -/
structure Clear (o : OutBits) : Prop where
  bit : o.bit < 8
  clear : ∀ i, o.pos ≤ i → bitAt o.buffer i = false

/-- From `o` to `o'` exactly the bits `w` are appended. -/
structure Emits (o o' : OutBits) (w : List Bool) : Prop where
  pos : o'.pos = o.pos + w.length
  clear : o'.Clear
  size : o'.buffer.length = o.buffer.length
  kept : ∀ i < o.pos, bitAt o'.buffer i = bitAt o.buffer i
  bits : slice o'.buffer o.pos w.length = w

/-- The cursor has not left the buffer. -/
def Fits (o : OutBits) : Prop := o.pos ≤ 8 * o.buffer.length

section Writing
variable {o o' o'' : OutBits} {w z : List Bool} {n v : ℕ}

theorem Emits.refl (ho : o.Clear) : Emits o o [] where
  pos := rfl
  clear := ho
  size := rfl
  kept := fun _ _ => rfl
  bits := rfl

theorem Emits.trans (h : Emits o o' w) (h' : Emits o' o'' z) : Emits o o'' (w ++ z) where
  pos := by rw [h'.pos, h.pos, List.length_append, Nat.add_assoc]
  clear := h'.clear
  size := h'.size.trans h.size
  kept := by
    intro i hi
    have hi' : i < o'.pos := by rw [h.pos]; omega
    rw [h'.kept i hi', h.kept i hi]
  bits := by
    have hz : slice o''.buffer (o.pos + w.length) z.length = z := by rw [← h.pos]; exact h'.bits
    have hw : slice o''.buffer o.pos w.length = w := by
      rw [← h.bits, length_slice]
      refine slice_congr (fun j hj => ?_)
      rw [h'.kept _ (by rw [h.pos]; omega)]
    rw [List.length_append, slice_add, hw, hz]

/-- The bits of a field of `n` bits, all of them clear before. -/
theorem Emits.of_bitAt (ho : o.Clear) (hp : o'.pos = o.pos + n) (hb : o'.bit < 8)
    (hs : o'.buffer.length = o.buffer.length)
    (h : ∀ i, bitAt o'.buffer i =
      (bitAt o.buffer i || (decide (o.pos ≤ i ∧ i < o.pos + n) && v.testBit (o.pos + n - 1 - i)))) :
    Emits o o' (ofNat n v) where
  pos := by rw [hp, length_ofNat]
  size := hs
  clear := by
    refine ⟨hb, fun i hi => ?_⟩
    rw [h i, ho.clear i (by omega), decide_eq_false (by omega)]
    rfl
  kept := by
    intro i hi
    rw [h i, decide_eq_false (by omega), Bool.false_and, Bool.or_false]
  bits := by
    rw [length_ofNat]
    refine slice_eq_ofNat (fun j hj => ?_)
    rw [h, ho.clear _ (Nat.le_add_right _ _), decide_eq_true (by omega), Bool.false_or,
      Bool.true_and]
    congr 1
    omega

theorem outputByte_emits {b : UInt8} (ho : o.Clear) (hf : o.pos + 8 ≤ 8 * o.buffer.length) :
    Emits o (o.outputByte b) (ofNat 8 b.toNat) := by
  have hbit := ho.bit
  have hptr : o.ptr < o.buffer.length := by unfold pos at hf; omega
  have high : ∀ e, 8 ≤ e → b.toNat.testBit e = false := fun _ => testBit_byte_of_le
  unfold outputByte
  split_ifs with hk
  · have hnext : o.ptr + 1 < o.buffer.length := by unfold pos at hf; omega
    refine Emits.of_bitAt ho (by simp only [pos]; omega) hbit (by simp) (fun i => ?_)
    rw [bitAt_set (by rw [List.length_modify]; exact hnext), bitAt_modify_or hptr,
      testBit_byte (by omega), testBit_byte (by omega), Nat.testBit_shiftRight,
      Nat.testBit_shiftLeft]
    split_ifs with hi
    · rw [ho.clear i (by unfold pos; omega), Bool.false_or]
      refine guarded_congr (fun h => Or.inl ?_) (fun h => Or.inl ?_) <;> unfold pos at * <;> omega
    · congr 1
      refine guarded_congr (fun h => ?_) (fun h => Or.inl ?_)
      · by_cases hlow : o.pos ≤ i
        · exact Or.inl (by unfold pos at *; omega)
        · exact Or.inr (high _ (by unfold pos at *; omega))
      · unfold pos at *
        omega
  · refine Emits.of_bitAt ho (by simp only [pos]; omega) hbit (by simp) (fun i => ?_)
    rw [bitAt_set hptr]
    split_ifs with hi
    · rw [ho.clear i (by unfold pos; omega), Bool.false_or,
        decide_eq_true (by unfold pos; omega), Bool.true_and]
      congr 1
      unfold pos
      omega
    · rw [decide_eq_false (by unfold pos; omega), Bool.false_and, Bool.or_false]

theorem outputByte_pos {b : UInt8} : (o.outputByte b).pos = o.pos + 8 := by
  unfold outputByte
  split_ifs <;> simp only [pos] <;> omega

theorem outputByte_size {b : UInt8} : (o.outputByte b).buffer.length = o.buffer.length := by
  unfold outputByte
  split_ifs <;> simp

theorem outputBit_emits {b : Bool} (ho : o.Clear) (hf : o.pos + 1 ≤ 8 * o.buffer.length) :
    Emits o (o.outputBit b) (ofNat 1 b.toNat) := by
  have hbit := ho.bit
  have hptr : o.ptr < o.buffer.length := by unfold pos at hf; omega
  have hb : ∀ e, b.toNat.testBit e = (decide (e = 0) && b) := by
    intro e
    cases b <;> cases e <;> simp [Nat.testBit_succ]
  unfold outputBit
  split_ifs with hk
  · refine Emits.of_bitAt ho (by simp only [pos]; omega) (Nat.zero_lt_succ _) (by simp)
      (fun i => ?_)
    have hu : b.toUInt8.toNat = b.toNat := by cases b <;> rfl
    rw [bitAt_modify_or hptr, hu, hb, hb]
    congr 1
    by_cases hi : i = o.pos
    · rw [decide_eq_true (by unfold pos at hi; omega), decide_eq_true (by unfold pos at hi; omega),
        decide_eq_true (by omega), decide_eq_true (by omega)]
    · rw [← Bool.and_assoc, ← Bool.and_assoc]
      congr 1
      rw [Bool.eq_iff_iff]
      simp only [Bool.and_eq_true, decide_eq_true_eq]
      unfold pos at *
      omega
  · refine Emits.of_bitAt ho (by simp only [pos]; omega) (by simp only; omega) (by simp)
      (fun i => ?_)
    rw [bitAt_modify_or hptr, testBit_byte (by omega), Nat.testBit_shiftLeft, hb, hb,
      ← Bool.and_assoc, ← Bool.and_assoc, ← Bool.and_assoc]
    congr 2
    rw [Bool.eq_iff_iff]
    simp only [Bool.and_eq_true, decide_eq_true_eq]
    unfold pos
    omega

theorem outputBit_pos {b : Bool} : (o.outputBit b).pos = o.pos + 1 := by
  unfold outputBit
  split_ifs with h <;> simp only [pos] <;> omega

theorem outputBit_size {b : Bool} : (o.outputBit b).buffer.length = o.buffer.length := by
  unfold outputBit
  split_ifs <;> simp

@[simp] theorem length_orBytes {l : List UInt8} {p k b : ℕ} :
    (orBytes l p k b).length = l.length := by
  induction k generalizing l b with
  | zero => rfl
  | succ k ih => rw [orBytes, ih, List.length_modify]

/-- The loop of `output_bits` lays `8 * k` bits over `k` bytes. -/
theorem bitAt_orBytes {l : List UInt8} {p k b : ℕ} (h : p + k ≤ l.length) (i : ℕ) :
    bitAt (orBytes l p k b) i =
      (bitAt l i || (decide (p ≤ i / 8 ∧ i / 8 < p + k) && b.testBit (8 * (p + k) - 1 - i))) := by
  induction k generalizing l b with
  | zero => rw [orBytes, decide_eq_false (by omega), Bool.false_and, Bool.or_false]
  | succ k ih =>
    rw [orBytes, ih (by rw [List.length_modify]; omega), bitAt_modify_or (by omega),
      testBit_byte (by omega), Nat.testBit_shiftRight, Bool.or_assoc]
    congr 1
    by_cases hi : i / 8 = p + k
    · rw [decide_eq_true hi, decide_eq_false (by omega), decide_eq_true (by omega),
        Bool.false_and, Bool.or_false]
      congr 2
      omega
    · rw [decide_eq_false hi, Bool.false_and, Bool.false_or]
      exact guarded_congr (fun _ => Or.inl (by omega)) (fun _ => Or.inl (by omega))

theorem outputBits_emits (ho : o.Clear) (hv : v < 2 ^ n)
    (hf : o.pos + n ≤ 8 * o.buffer.length) : Emits o (o.outputBits v n) (ofNat n v) := by
  have hbit := ho.bit
  have hp : o.ptr + (o.bit + n) / 8 ≤ o.buffer.length := by unfold pos at hf; omega
  have high : ∀ e, n ≤ e → v.testBit e = false := fun e he =>
    Nat.testBit_lt_two_pow (hv.trans_le (Nat.pow_le_pow_right (by decide) he))
  by_cases hm : (o.bit + n) % 8 = 0
  · have he : o.outputBits v n = ⟨orBytes o.buffer o.ptr ((o.bit + n) / 8) v,
        o.ptr + (o.bit + n) / 8, (o.bit + n) % 8⟩ := by
      simp only [outputBits, hm, ne_eq, not_true_eq_false, if_false]
    rw [he]
    refine Emits.of_bitAt ho (by simp only [pos]; omega) (by simp only; omega) (by simp)
      (fun i => ?_)
    rw [bitAt_orBytes hp]
    congr 1
    refine guarded_congr (fun h => ?_) (fun h => Or.inl (by unfold pos at *; omega))
    by_cases hlow : o.pos ≤ i
    · exact Or.inl (by unfold pos at *; omega)
    · exact Or.inr (high _ (by unfold pos at *; omega))
  · have hlast : o.ptr + (o.bit + n) / 8 < o.buffer.length := by unfold pos at hf; omega
    have he : o.outputBits v n = ⟨orBytes (o.buffer.modify (o.ptr + (o.bit + n) / 8)
          (· ||| UInt8.ofNat (v <<< (8 - (o.bit + n) % 8)))) o.ptr ((o.bit + n) / 8)
          (v >>> ((o.bit + n) % 8)),
        o.ptr + (o.bit + n) / 8, (o.bit + n) % 8⟩ := by
      simp only [outputBits, hm, ne_eq, not_false_eq_true, if_true]
    rw [he]
    refine Emits.of_bitAt ho (by simp only [pos]; omega) (by simp only; omega) (by simp)
      (fun i => ?_)
    rw [bitAt_orBytes (by rw [List.length_modify]; exact hp), bitAt_modify_or hlast,
      testBit_byte (by omega), Nat.testBit_shiftLeft, Nat.testBit_shiftRight, Bool.or_assoc]
    congr 1
    -- the last byte takes the low bits, the bytes before it the rest
    by_cases hi : i / 8 = o.ptr + (o.bit + n) / 8
    · have hno : ¬(o.ptr ≤ i / 8 ∧ i / 8 < o.ptr + (o.bit + n) / 8) := by omega
      rw [decide_eq_true hi, Bool.true_and, decide_eq_false hno, Bool.false_and, Bool.or_false]
      refine guarded_congr (fun h => ?_) (fun h => Or.inl (by unfold pos at *; omega))
      by_cases hlow : o.pos ≤ i
      · exact Or.inl (by unfold pos at *; omega)
      · exact Or.inr (high _ (by unfold pos at *; omega))
    · rw [decide_eq_false hi, Bool.false_and, Bool.false_or]
      refine guarded_congr (fun h => ?_) (fun h => Or.inl (by unfold pos at *; omega))
      by_cases hlow : o.pos ≤ i
      · exact Or.inl (by unfold pos at *; omega)
      · exact Or.inr (high _ (by unfold pos at *; omega))

theorem toNat_shift_seven {x : UInt64} : (x >>> 7).toNat = x.toNat / 128 := by
  rw [UInt64.toNat_shiftRight]
  exact Nat.shiftRight_eq_div_pow _ 7

theorem toNat_low_seven {x : UInt64} : (x &&& 0x7f).toUInt8.toNat = x.toNat % 128 := by
  have hm : (x &&& 0x7f).toNat = x.toNat % 128 := by
    rw [UInt64.toNat_and]
    exact Nat.and_two_pow_sub_one_eq_mod _ 7
  rw [UInt64.toNat_toUInt8, hm]
  omega

theorem toNat_marked {b : UInt8} (hb : b.toNat < 128) : (b ||| 0x80).toNat = b.toNat + 128 := by
  have h := Nat.two_pow_add_eq_or_of_lt (i := 7) hb 1
  rw [UInt8.toNat_or, Nat.or_comm]
  exact h.symm.trans (Nat.add_comm _ _)

theorem shift_seven_ne {x : UInt64} : x >>> 7 ≠ 0 ↔ x.toNat / 128 ≠ 0 := by
  rw [← toNat_shift_seven, not_iff_not]
  exact ⟨fun h => by rw [h]; rfl, fun h => UInt64.toNat_inj.mp h⟩

/-- `output_uint` writes the base-128 digits, a byte each. -/
theorem outputUintLoop_emits {fuel : ℕ} {x : UInt64} (ho : o.Clear) (hx : x.toNat < 128 ^ fuel)
    (hf : o.pos + (groupBits fuel x.toNat).length ≤ 8 * o.buffer.length) :
    Emits o (outputUintLoop fuel o x) (groupBits fuel x.toNat) := by
  induction fuel generalizing o x with
  | zero => exact Emits.refl ho
  | succ fuel ih =>
    have hlow : (x &&& 0x7f).toUInt8.toNat < 128 := by rw [toNat_low_seven]; omega
    rw [outputUintLoop]
    by_cases hmore : x.toNat / 128 = 0
    · have hz : ¬ x >>> 7 ≠ 0 := fun h => shift_seven_ne.mp h hmore
      rw [groupBits_last hmore, length_ofNat] at hf
      simp only [if_neg hz]
      rw [groupBits_last hmore, ← toNat_low_seven]
      exact outputByte_emits ho hf
    · have hz : x >>> 7 ≠ 0 := shift_seven_ne.mpr hmore
      rw [groupBits_more hmore, List.length_append, length_ofNat] at hf
      simp only [if_pos hz]
      have hb : Emits o (o.outputByte ((x &&& 0x7f).toUInt8 ||| 0x80))
          (ofNat 8 (x.toNat % 128 + 128)) := by
        rw [← toNat_low_seven, ← toNat_marked hlow]
        exact outputByte_emits ho (by omega)
      rw [groupBits_more hmore, ← toNat_shift_seven]
      refine hb.trans (ih hb.clear ?_ ?_)
      · rw [toNat_shift_seven]
        exact Nat.div_lt_of_lt_mul (by rw [← Nat.pow_succ']; exact hx)
      · rw [hb.pos, hb.size, length_ofNat, toNat_shift_seven]
        omega

theorem outputUintLoop_pos {f : ℕ} {x : UInt64} :
    (outputUintLoop f o x).pos = o.pos + (groupBits f x.toNat).length ∧
      (outputUintLoop f o x).buffer.length = o.buffer.length := by
  induction f generalizing o x with
  | zero => exact ⟨rfl, rfl⟩
  | succ f ih =>
    rw [outputUintLoop]
    by_cases hmore : x.toNat / 128 = 0
    · have hz : ¬ x >>> 7 ≠ 0 := fun h => shift_seven_ne.mp h hmore
      simp only [if_neg hz]
      rw [groupBits_last hmore, length_ofNat]
      exact ⟨outputByte_pos, outputByte_size⟩
    · have hz : x >>> 7 ≠ 0 := shift_seven_ne.mpr hmore
      simp only [if_pos hz]
      rw [groupBits_more hmore, List.length_append, length_ofNat, ← toNat_shift_seven]
      obtain ⟨hp, hs⟩ := ih (o := o.outputByte ((x &&& 0x7f).toUInt8 ||| 0x80)) (x := x >>> 7)
      rw [outputByte_pos] at hp
      rw [outputByte_size] at hs
      exact ⟨by omega, hs⟩

theorem toNat_lt_groups (x : UInt64) : x.toNat < 128 ^ 10 :=
  x.toNat_lt.trans_le (by decide)

theorem outputUint_emits {x : UInt64} (ho : o.Clear)
    (hf : o.pos + (groupBits 10 x.toNat).length ≤ 8 * o.buffer.length) :
    Emits o (o.outputUint x) (groupBits 10 x.toNat) :=
  outputUintLoop_emits ho (toNat_lt_groups x) hf

theorem outputUint_fits {x : UInt64} :
    (o.outputUint x).Fits ↔ o.pos + (groupBits 10 x.toNat).length ≤ 8 * o.buffer.length := by
  obtain ⟨hp, hs⟩ := outputUintLoop_pos (o := o) (f := 10) (x := x)
  rw [Fits, outputUint, hp, hs]

/-- The magnitude `output_integer` writes, as the `uint64_t` it becomes. -/
def magnitude (x : Int64) : UInt64 := (if x < 0 then -x else x).toUInt64

/-- The bits of a signed integer. -/
def integerBits (x : Int64) : List Bool :=
  ofNat 1 (decide (x < 0)).toNat ++ groupBits 10 (magnitude x).toNat

theorem outputInteger_eq {x : Int64} :
    o.outputInteger x = (o.outputBit (decide (x < 0))).outputUint (magnitude x) := by
  simp only [outputInteger, magnitude, decide_eq_true_eq]

theorem outputInteger_fits {x : Int64} :
    (o.outputInteger x).Fits ↔ o.pos + (integerBits x).length ≤ 8 * o.buffer.length := by
  rw [outputInteger_eq, outputUint_fits, outputBit_pos, outputBit_size, integerBits,
    List.length_append, length_ofNat, Nat.add_assoc]

theorem outputInteger_emits {x : Int64} (ho : o.Clear)
    (hf : o.pos + (integerBits x).length ≤ 8 * o.buffer.length) :
    Emits o (o.outputInteger x) (integerBits x) := by
  rw [integerBits, List.length_append, length_ofNat] at hf
  have hs : Emits o (o.outputBit (decide (x < 0))) (ofNat 1 (decide (x < 0)).toNat) :=
    outputBit_emits ho (by omega)
  rw [outputInteger_eq, integerBits]
  refine hs.trans (outputUint_emits hs.clear ?_)
  rw [hs.pos, hs.size, length_ofNat]
  omega

/-- From `o` to `o'` the bits `w` are appended, if there is room for them. -/
structure Appends (o o' : OutBits) (w : List Bool) : Prop where
  pos : o'.pos = o.pos + w.length
  size : o'.buffer.length = o.buffer.length
  emits : o.Clear → o'.Fits → Emits o o' w

theorem Appends.refl : Appends o o [] := ⟨rfl, rfl, fun ho _ => Emits.refl ho⟩

theorem Appends.fits (h : Appends o o' w) (hf : o'.Fits) : o.Fits := by
  unfold Fits at *
  rw [h.pos, h.size] at hf
  omega

theorem Appends.trans (h : Appends o o' w) (h' : Appends o' o'' z) : Appends o o'' (w ++ z) where
  pos := by rw [h'.pos, h.pos, List.length_append, Nat.add_assoc]
  size := h'.size.trans h.size
  emits := by
    intro ho hf
    have he := h.emits ho (h'.fits hf)
    exact he.trans (h'.emits he.clear hf)

theorem outputUint_appends {x : UInt64} : Appends o (o.outputUint x) (groupBits 10 x.toNat) where
  pos := outputUintLoop_pos.1
  size := outputUintLoop_pos.2
  emits := fun ho hf => outputUint_emits ho (outputUint_fits.mp hf)

theorem outputBits_appends (hv : v < 2 ^ n) : Appends o (o.outputBits v n) (ofNat n v) := by
  have hp : (o.outputBits v n).pos = o.pos + n := by
    simp only [outputBits]
    split_ifs <;> simp only [pos] <;> omega
  have hs : (o.outputBits v n).buffer.length = o.buffer.length := by
    simp only [outputBits]
    split_ifs <;> simp
  refine ⟨by rw [hp, length_ofNat], hs, fun ho hf => outputBits_emits ho hv ?_⟩
  rw [Fits, hp, hs] at hf
  exact hf

end Writing

end OutBits
end SeClient
