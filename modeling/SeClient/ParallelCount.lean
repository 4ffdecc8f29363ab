import Mathlib.Algebra.Order.Ring.Int
import Mathlib.Data.List.Basic
import Mathlib.Data.Nat.Bitwise
import Mathlib.Tactic.Ring

/-!
# Counting the bits of a word in parallel

The bits of each pair are added, then the pairs of each nibble, then the nibbles of each byte, and a
multiplication adds the bytes.  Words are numbers below a power of 256; the first three steps go
byte by byte, since no sum leaves its field.
-/

namespace ParallelCount

/-- The number of bits set below bit `n`. -/
def count (n w : ℕ) : ℕ := (List.range n).countP fun j => w.testBit j

/-- A word of `n` bytes, all of them `b`. -/
def mask (b : ℕ) : ℕ → ℕ
  | 0 => 0
  | n + 1 => b + 256 * mask b n

/-- The bits of each pair are added. -/
def pairs (n w : ℕ) : ℕ := w - ((w >>> 1) &&& mask 0x55 n)

/-- The pairs of each nibble are added. -/
def nibbles (n w : ℕ) : ℕ := (w &&& mask 0x33 n) + ((w >>> 2) &&& mask 0x33 n)

/-- The nibbles of each byte are added. -/
def bytes (n w : ℕ) : ℕ := (w + (w >>> 4)) &&& mask 0x0f n

/-- The bits of each byte. -/
def spread : ℕ → ℕ → ℕ
  | 0, _ => 0
  | n + 1, w => count 8 w + 256 * spread n (w / 256)

section
variable {a b c d n m w : ℕ}

/-! ## Counting -/

theorem count_le (n w : ℕ) : count n w ≤ n := by
  have h := List.countP_le_length (p := fun j => w.testBit j) (l := List.range n)
  rwa [List.length_range] at h

theorem count_add (n m w : ℕ) : count (n + m) w = count n w + count m (w / 2 ^ n) := by
  unfold count
  rw [List.range_add, List.countP_append, List.countP_map]
  congr 1
  refine List.countP_congr fun j _ => ?_
  show w.testBit (n + j) = true ↔ (w / 2 ^ n).testBit j = true
  rw [Nat.testBit_div_two_pow, Nat.add_comm]

/-- Bits that are shifted in are clear. -/
theorem count_mul_two_pow (n m w : ℕ) : count (n + m) (w * 2 ^ n) = count m w := by
  have hlow : count n (w * 2 ^ n) = 0 := by
    unfold count
    refine List.countP_eq_zero.mpr fun j hj => ?_
    rw [Nat.testBit_mul_two_pow, decide_eq_false (Nat.not_le.mpr (List.mem_range.mp hj))]
    exact Bool.false_ne_true
  rw [count_add, hlow, Nat.zero_add, Nat.mul_div_cancel _ (Nat.two_pow_pos n)]

theorem count_mod (n w : ℕ) : count n (w % 2 ^ n) = count n w := by
  unfold count
  refine List.countP_congr fun j hj => ?_
  rw [Nat.testBit_mod_two_pow, decide_eq_true (List.mem_range.mp hj), Bool.true_and]

/-! ## Byte by byte -/

theorem mask_one (b : ℕ) : mask b 1 = b := rfl

theorem mask_succ (b n : ℕ) : mask b (n + 1) = b + 256 * mask b n := rfl

theorem land_byte (ha : a < 256) (hc : c < 256) :
    (a + 256 * b) &&& (c + 256 * d) = (a &&& c) + 256 * (b &&& d) := by
  have hmod : (a + 256 * b &&& c + 256 * d) % 2 ^ 8 =
      (a + 256 * b) % 2 ^ 8 &&& (c + 256 * d) % 2 ^ 8 := Nat.and_mod_two_pow
  have hdiv : (a + 256 * b &&& c + 256 * d) / 2 ^ 8 =
      (a + 256 * b) / 2 ^ 8 &&& (c + 256 * d) / 2 ^ 8 := Nat.and_div_two_pow
  have hland : a &&& c < 256 := Nat.lt_of_le_of_lt Nat.and_le_left ha
  rw [show (a + 256 * b) % 2 ^ 8 = a by omega, show (c + 256 * d) % 2 ^ 8 = c by omega] at hmod
  rw [show (a + 256 * b) / 2 ^ 8 = b by omega, show (c + 256 * d) / 2 ^ 8 = d by omega] at hdiv
  omega

theorem pairs_byte : ∀ a < 256, ∀ e < 2, (a + 256 * e) >>> 1 < 256 ∧
    (a + 256 * e) >>> 1 &&& 0x55 = a >>> 1 &&& 0x55 ∧ a >>> 1 &&& 0x55 ≤ a := by
  decide +kernel

theorem pairs_cons (ha : a < 256) : pairs (n + 1) (a + 256 * b) = pairs 1 a + 256 * pairs n b := by
  obtain ⟨hlow, hland, hle⟩ := pairs_byte a ha (b % 2) (Nat.mod_lt _ (by decide))
  have hshift : (a + 256 * b) >>> 1 = (a + 256 * (b % 2)) >>> 1 + 256 * (b >>> 1) := by
    simp only [Nat.shiftRight_eq_div_pow]
    omega
  have hb : b >>> 1 &&& mask 0x55 n ≤ b := by
    refine Nat.le_trans Nat.and_le_left ?_
    rw [Nat.shiftRight_eq_div_pow]
    exact Nat.div_le_self b _
  unfold pairs
  rw [mask_succ, mask_one, hshift, land_byte hlow (by decide), hland]
  omega

theorem nibbles_byte : ∀ a < 256, ∀ e < 4, (a + 256 * e) >>> 2 < 256 ∧
    (a + 256 * e) >>> 2 &&& 0x33 = a >>> 2 &&& 0x33 := by
  decide +kernel

theorem nibbles_cons (ha : a < 256) :
    nibbles (n + 1) (a + 256 * b) = nibbles 1 a + 256 * nibbles n b := by
  obtain ⟨hlow, hland⟩ := nibbles_byte a ha (b % 4) (Nat.mod_lt _ (by decide))
  have hshift : (a + 256 * b) >>> 2 = (a + 256 * (b % 4)) >>> 2 + 256 * (b >>> 2) := by
    simp only [Nat.shiftRight_eq_div_pow]
    omega
  unfold nibbles
  rw [mask_succ, mask_one, hshift, land_byte hlow (by decide), land_byte ha (by decide), hland]
  omega

/-- The bits of a byte, nibble by nibble. -/
theorem nibbles_pairs_byte : ∀ a < 256, pairs 1 a < 256 ∧ nibbles 1 (pairs 1 a) < 256 ∧
    nibbles 1 (pairs 1 a) % 16 ≤ 4 ∧ nibbles 1 (pairs 1 a) / 16 ≤ 4 ∧
    bytes 1 (nibbles 1 (pairs 1 a)) = count 8 a := by
  decide +kernel

theorem bytes_byte : ∀ a < 256, a % 16 ≤ 4 → a / 16 ≤ 4 → ∀ e ≤ 4,
    a + (a + 256 * e) >>> 4 < 256 ∧
      a + (a + 256 * e) >>> 4 &&& 0x0f = a + a >>> 4 &&& 0x0f := by
  decide +kernel

theorem bytes_cons (ha : a < 256) (hlow : a % 16 ≤ 4) (hhigh : a / 16 ≤ 4) (hb : b % 16 ≤ 4) :
    bytes (n + 1) (a + 256 * b) = bytes 1 a + 256 * bytes n b := by
  obtain ⟨hsum, hland⟩ := bytes_byte a ha hlow hhigh (b % 16) hb
  have hshift : a + 256 * b + (a + 256 * b) >>> 4 =
      a + (a + 256 * (b % 16)) >>> 4 + 256 * (b + b >>> 4) := by
    simp only [Nat.shiftRight_eq_div_pow]
    omega
  unfold bytes
  rw [mask_succ, mask_one, hshift, land_byte hsum (by decide), hland]

/-- **The first three steps** leave the bits of each byte. -/
theorem bytes_eq_spread (h : w < 256 ^ n) :
    bytes n (nibbles n (pairs n w)) = spread n w ∧ nibbles n (pairs n w) % 16 ≤ 4 := by
  induction n generalizing w with
  | zero =>
    obtain rfl : w = 0 := by
      rw [Nat.pow_zero] at h
      omega
    exact ⟨rfl, Nat.zero_le _⟩
  | succ n ih =>
    have hrest : w / 256 < 256 ^ n := by
      rw [Nat.pow_succ, Nat.mul_comm] at h
      exact Nat.div_lt_of_lt_mul h
    have ha : w % 256 < 256 := Nat.mod_lt _ (by decide)
    obtain ⟨hpairs, hnibbles, hlow, hhigh, hcount⟩ := nibbles_pairs_byte _ ha
    obtain ⟨hspread, hnext⟩ := ih hrest
    have hsplit : nibbles (n + 1) (pairs (n + 1) w) =
        nibbles 1 (pairs 1 (w % 256)) + 256 * nibbles n (pairs n (w / 256)) := by
      rw [← nibbles_cons hpairs, ← pairs_cons ha, Nat.mod_add_div]
    constructor
    · rw [hsplit, bytes_cons hnibbles hlow hhigh hnext, hcount, hspread]
      show count 8 (w % 2 ^ 8) + _ = _
      rw [count_mod, spread]
    · rw [hsplit]
      omega

theorem top_byte {low total high : ℕ} (hlow : low < 2 ^ 56) (htotal : total ≤ 64) :
    (low + 2 ^ 56 * total + 2 ^ 64 * high) % 2 ^ 64 / 2 ^ 56 = total := by
  omega

/-- The multiplication leaves the sum of the bytes in the last one: no carry reaches it. -/
theorem bytes_sum {c₀ c₁ c₂ c₃ c₄ c₅ c₆ c₇ : ℕ} (h₀ : c₀ ≤ 8) (h₁ : c₁ ≤ 8) (h₂ : c₂ ≤ 8)
    (h₃ : c₃ ≤ 8) (h₄ : c₄ ≤ 8) (h₅ : c₅ ≤ 8) (h₆ : c₆ ≤ 8) (h₇ : c₇ ≤ 8) :
    (c₀ + 256 * (c₁ + 256 * (c₂ + 256 * (c₃ + 256 * (c₄ + 256 * (c₅ + 256 * (c₆ +
      256 * (c₇ + 256 * 0)))))))) * mask 1 8 % 2 ^ 64 / 2 ^ 56 =
    c₀ + (c₁ + (c₂ + (c₃ + (c₄ + (c₅ + (c₆ + c₇)))))) := by
  have hlow : c₀ + 256 * (c₀ + c₁) + 256 ^ 2 * (c₀ + c₁ + c₂) + 256 ^ 3 * (c₀ + c₁ + c₂ + c₃) +
      256 ^ 4 * (c₀ + c₁ + c₂ + c₃ + c₄) + 256 ^ 5 * (c₀ + c₁ + c₂ + c₃ + c₄ + c₅) +
      256 ^ 6 * (c₀ + c₁ + c₂ + c₃ + c₄ + c₅ + c₆) < 2 ^ 56 := by omega
  have htotal : c₀ + c₁ + c₂ + c₃ + c₄ + c₅ + c₆ + c₇ ≤ 64 := by omega
  have hproduct : (c₀ + 256 * (c₁ + 256 * (c₂ + 256 * (c₃ + 256 * (c₄ + 256 * (c₅ + 256 * (c₆ +
      256 * (c₇ + 256 * 0)))))))) * mask 1 8 =
      c₀ + 256 * (c₀ + c₁) + 256 ^ 2 * (c₀ + c₁ + c₂) + 256 ^ 3 * (c₀ + c₁ + c₂ + c₃) +
      256 ^ 4 * (c₀ + c₁ + c₂ + c₃ + c₄) + 256 ^ 5 * (c₀ + c₁ + c₂ + c₃ + c₄ + c₅) +
      256 ^ 6 * (c₀ + c₁ + c₂ + c₃ + c₄ + c₅ + c₆) +
      2 ^ 56 * (c₀ + c₁ + c₂ + c₃ + c₄ + c₅ + c₆ + c₇) +
      2 ^ 64 * (c₁ + c₂ + c₃ + c₄ + c₅ + c₆ + c₇ + 256 * (c₂ + c₃ + c₄ + c₅ + c₆ + c₇) +
        256 ^ 2 * (c₃ + c₄ + c₅ + c₆ + c₇) + 256 ^ 3 * (c₄ + c₅ + c₆ + c₇) +
        256 ^ 4 * (c₅ + c₆ + c₇) + 256 ^ 5 * (c₆ + c₇) + 256 ^ 6 * c₇) := by
    rw [show mask 1 8 = 0x0101010101010101 from rfl]
    ring
  rw [hproduct, top_byte hlow htotal]
  simp only [Nat.add_assoc]

/-- The last step, for words of eight bytes. -/
theorem spread_sum (w : ℕ) : spread 8 w * mask 1 8 % 2 ^ 64 / 2 ^ 56 = count 64 w := by
  have hstep (w k : ℕ) : count (8 + k) w = count 8 w + count k (w / 256) := count_add 8 k w
  have hcount : count 64 w = count 8 w + (count 8 (w / 256) + (count 8 (w / 256 / 256) +
      (count 8 (w / 256 / 256 / 256) + (count 8 (w / 256 / 256 / 256 / 256) +
      (count 8 (w / 256 / 256 / 256 / 256 / 256) +
      (count 8 (w / 256 / 256 / 256 / 256 / 256 / 256) +
      count 8 (w / 256 / 256 / 256 / 256 / 256 / 256 / 256))))))) := by
    rw [← hstep, ← hstep, ← hstep, ← hstep, ← hstep, ← hstep, ← hstep]
  have hle (v : ℕ) : count 8 v ≤ 8 := count_le 8 v
  rw [hcount]
  simp only [spread]
  exact bytes_sum (hle _) (hle _) (hle _) (hle _) (hle _) (hle _) (hle _) (hle _)

/-- **The bits of a word of eight bytes** are counted. -/
theorem count_word (h : w < 2 ^ 64) :
    bytes 8 (nibbles 8 (pairs 8 w)) * mask 1 8 % 2 ^ 64 / 2 ^ 56 = count 64 w := by
  rw [(bytes_eq_spread (n := 8) h).1, spread_sum]

end
end ParallelCount
