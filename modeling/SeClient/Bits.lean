import Mathlib.Data.List.Basic
import Mathlib.Data.List.Induction
import Mathlib.Data.Nat.Bitwise

/-!
# Bit strings of numbers and of byte sequences

A bit string is a `List Bool`, most significant bit first.

* `ofNat n v`: the `n` low bits of `v`; `toNat` is its inverse on short values.
* `bitAt l i`: bit `i` of a byte sequence, counted from the top of its first byte.
* `slice l i n`: the `n` bits of a byte sequence from bit `i` on.
-/

namespace Bits

/-- The `n` low bits of `v`. -/
def ofNat : ℕ → ℕ → List Bool
  | 0, _ => []
  | n + 1, v => v.testBit n :: ofNat n v

/-- The number a bit string spells. -/
def toNat (w : List Bool) : ℕ := w.foldl (fun a b => 2 * a + b.toNat) 0

section Numbers
variable {n m v u : ℕ} {w : List Bool}

@[simp] theorem ofNat_zero : ofNat 0 v = [] := rfl

@[simp] theorem ofNat_succ : ofNat (n + 1) v = v.testBit n :: ofNat n v := rfl

@[simp] theorem length_ofNat : (ofNat n v).length = n := by
  induction n with
  | zero => rfl
  | succ n ih => rw [ofNat_succ, List.length_cons, ih]

/-- Two guarded bits of one number agree when each guard leads to the other, except at
clear bits. -/
theorem guarded_congr {p q : Prop} [Decidable p] [Decidable q] {a b : ℕ}
    (hp : p → q ∧ a = b ∨ v.testBit a = false) (hq : q → p ∧ a = b ∨ v.testBit b = false) :
    (decide p && v.testBit a) = (decide q && v.testBit b) := by
  by_cases h : p
  · rcases hp h with ⟨h', rfl⟩ | ha
    · rw [decide_eq_true h, decide_eq_true h']
    · by_cases h' : q
      · rcases hq h' with ⟨_, rfl⟩ | hb
        · rw [ha, Bool.and_false, Bool.and_false]
        · rw [ha, hb, Bool.and_false, Bool.and_false]
      · rw [ha, decide_eq_false h', Bool.and_false, Bool.false_and]
  · by_cases h' : q
    · rcases hq h' with ⟨h'', _⟩ | hb
      · exact absurd h'' h
      · rw [hb, decide_eq_false h, Bool.and_false, Bool.false_and]
    · rw [decide_eq_false h, decide_eq_false h', Bool.false_and, Bool.false_and]

/-- The high bits come first. -/
theorem ofNat_add : ofNat (n + m) v = ofNat n (v >>> m) ++ ofNat m v := by
  induction n with
  | zero => rw [Nat.zero_add, ofNat_zero, List.nil_append]
  | succ n ih =>
    rw [Nat.succ_add, ofNat_succ, ih, ofNat_succ, List.cons_append, Nat.testBit_shiftRight,
      Nat.add_comm m n]

theorem getElem?_ofNat {i : ℕ} (hi : i < n) : (ofNat n v)[i]? = some (v.testBit (n - 1 - i)) := by
  induction n generalizing i with
  | zero => exact absurd hi i.not_lt_zero
  | succ n ih =>
    cases i with
    | zero => rw [ofNat_succ, List.getElem?_cons_zero, Nat.add_sub_cancel, Nat.sub_zero]
    | succ i =>
      rw [ofNat_succ, List.getElem?_cons_succ, ih (by omega)]
      congr 2
      omega

theorem toNat_append_singleton {b : Bool} : toNat (w ++ [b]) = 2 * toNat w + b.toNat := by
  rw [toNat, List.foldl_append, List.foldl_cons, List.foldl_nil, toNat]

/-- `toNat` reads back the low bits `ofNat` spells. -/
theorem toNat_ofNat : toNat (ofNat n v) = v % 2 ^ n := by
  induction n generalizing v with
  | zero => rw [ofNat_zero, Nat.pow_zero, Nat.mod_one]; rfl
  | succ n ih =>
    rw [ofNat_add (n := n) (m := 1), ofNat_succ, ofNat_zero, toNat_append_singleton, ih,
      Nat.pow_succ', Nat.shiftRight_one, Nat.mod_mul, Nat.testBit_zero]
    rcases Nat.mod_two_eq_zero_or_one v with h | h <;> rw [h] <;> simp [Nat.add_comm]

theorem toNat_append {z : List Bool} : toNat (w ++ z) = toNat w * 2 ^ z.length + toNat z := by
  induction z using List.reverseRecOn with
  | nil => rw [List.append_nil, List.length_nil, Nat.pow_zero, Nat.mul_one]; rfl
  | append_singleton z b ih =>
    rw [← List.append_assoc, toNat_append_singleton, ih, toNat_append_singleton,
      List.length_append, List.length_singleton, Nat.pow_succ, Nat.mul_add, ← Nat.add_assoc,
      ← Nat.mul_assoc (toNat w), Nat.mul_comm 2 (toNat w * _)]

theorem toNat_lt : toNat w < 2 ^ w.length := by
  induction w using List.reverseRecOn with
  | nil => exact Nat.one_pos
  | append_singleton w b ih =>
    rw [toNat_append_singleton, List.length_append, List.length_singleton, Nat.pow_succ]
    have hb := b.toNat_lt
    omega

theorem ofNat_toNat : ofNat w.length (toNat w) = w := by
  induction w using List.reverseRecOn with
  | nil => rfl
  | append_singleton w b ih =>
    have hb := b.toNat_lt
    have hs : (2 * toNat w + b.toNat) >>> 1 = toNat w := by rw [Nat.shiftRight_one]; omega
    have h0 : (2 * toNat w + b.toNat).testBit 0 = b := by
      rw [Nat.testBit_zero]
      cases b <;> simp [Nat.add_mod]
    rw [toNat_append_singleton, List.length_append, List.length_singleton, ofNat_add, hs, ih,
      ofNat_succ, ofNat_zero, h0]

end Numbers

/-- The base-128 digits of `v`, the least significant first, each but the last marked by
adding 128. -/
def groups : ℕ → ℕ → List ℕ
  | 0, _ => []
  | f + 1, v => if v / 128 = 0 then [v % 128] else (v % 128 + 128) :: groups f (v / 128)

/-- The bits of `groups`, eight for each digit. -/
def groupBits (f v : ℕ) : List Bool := (groups f v).flatMap (ofNat 8)

theorem groupBits_last {f v : ℕ} (h : v / 128 = 0) : groupBits (f + 1) v = ofNat 8 (v % 128) := by
  rw [groupBits, groups, if_pos h, List.flatMap_cons, List.flatMap_nil, List.append_nil]

theorem groupBits_more {f v : ℕ} (h : v / 128 ≠ 0) :
    groupBits (f + 1) v = ofNat 8 (v % 128 + 128) ++ groupBits f (v / 128) := by
  rw [groupBits, groups, if_neg h, List.flatMap_cons, groupBits]

/-- Bit `i` of a byte sequence; past its end the bits are clear. -/
def bitAt (l : List UInt8) (i : ℕ) : Bool := (l.getD (i / 8) 0).toNat.testBit (7 - i % 8)

/-- The `n` bits from bit `i` on. -/
def slice (l : List UInt8) (i n : ℕ) : List Bool := (List.range n).map (fun j => bitAt l (i + j))

section Bytes
variable {l k : List UInt8} {i j n m v : ℕ}

@[simp] theorem length_slice : (slice l i n).length = n := by
  rw [slice, List.length_map, List.length_range]

@[simp] theorem slice_zero : slice l i 0 = [] := rfl

theorem slice_add : slice l i (n + m) = slice l i n ++ slice l (i + n) m := by
  rw [slice, slice, slice, List.range_add, List.map_append, List.map_map]
  congr 1
  refine List.map_congr_left (fun j _ => ?_)
  rw [Function.comp_apply, Nat.add_assoc]

theorem slice_congr (h : ∀ j < n, bitAt l (i + j) = bitAt k (i + j)) :
    slice l i n = slice k i n :=
  List.map_congr_left (fun j hj => h j (List.mem_range.mp hj))

theorem slice_eq_ofNat (h : ∀ j < n, bitAt l (i + j) = v.testBit (n - 1 - j)) :
    slice l i n = ofNat n v := by
  refine List.ext_getElem? (fun j => ?_)
  by_cases hj : j < n
  · rw [getElem?_ofNat hj, slice, List.getElem?_map, List.getElem?_range hj, Option.map_some, h j hj]
  · rw [List.getElem?_eq_none (by rw [length_slice]; omega),
      List.getElem?_eq_none (by rw [length_ofNat]; omega)]

theorem bitAt_drop : bitAt (l.drop j) i = bitAt l (8 * j + i) := by
  have hd : (8 * j + i) / 8 = j + i / 8 := by omega
  have hm : (8 * j + i) % 8 = i % 8 := by omega
  rw [bitAt, bitAt, hd, hm, List.getD_eq_getElem?_getD, List.getElem?_drop,
    List.getD_eq_getElem?_getD]

theorem slice_drop : slice (l.drop j) i n = slice l (8 * j + i) n := by
  refine List.map_congr_left (fun k _ => ?_)
  rw [bitAt_drop, Nat.add_assoc]

theorem bitAt_set {b : UInt8} (hk : n < l.length) :
    bitAt (l.set n b) i = if i / 8 = n then b.toNat.testBit (7 - i % 8) else bitAt l i := by
  rw [bitAt, bitAt, List.getD_eq_getElem?_getD, List.getD_eq_getElem?_getD, List.getElem?_set]
  split_ifs with h h' h' <;> first | omega | rfl

theorem bitAt_modify_or {b : UInt8} (hk : n < l.length) :
    bitAt (l.modify n (· ||| b)) i =
      (bitAt l i || (decide (i / 8 = n) && b.toNat.testBit (7 - i % 8))) := by
  rw [bitAt, bitAt, List.getD_eq_getElem?_getD, List.getD_eq_getElem?_getD, List.getElem?_modify]
  by_cases h : n = i / 8
  · have hl : l[i / 8]? = some l[i / 8] := List.getElem?_eq_getElem (h ▸ hk)
    simp only [h, hl, if_true, Option.map_eq_map, Option.map_some, Option.getD_some, decide_true,
      Bool.true_and, UInt8.toNat_or, Nat.testBit_or]
  · have h' : ¬ i / 8 = n := fun he => h he.symm
    simp only [if_neg h, decide_eq_false h', Bool.false_and, Bool.or_false, Option.map_eq_map,
      Option.map_id']

theorem testBit_byte_of_le {b : UInt8} {e : ℕ} (he : 8 ≤ e) : b.toNat.testBit e = false :=
  Nat.testBit_lt_two_pow (b.toNat_lt.trans_le (Nat.pow_le_pow_right (by decide) he))

/-- The low bits of a byte, as a bit sequence of its own. -/
theorem testBit_byte {v e : ℕ} (he : e < 8) : (UInt8.ofNat v).toNat.testBit e = v.testBit e := by
  rw [UInt8.toNat_ofNat', Nat.testBit_mod_two_pow, decide_eq_true he, Bool.true_and]

end Bytes
end Bits
