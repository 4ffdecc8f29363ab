import Mathlib.Algebra.Group.Nat.Even
import Mathlib.Data.Fintype.EquivFin
import Mathlib.Data.Nat.Prime.Basic
import Mathlib.Tactic.Ring

/-!
# Triangular probing

The n-th step of a probe sequence is n places long.  In a table whose size is a power of two the
first probes, as many as there are places, visit each place once.
-/

namespace Probing

variable {m h i j n p : ℕ}

/-- The place of a probe, for a home `h`. -/
def probe (mask h : ℕ) : ℕ → ℕ
  | 0 => h &&& mask
  | n + 1 => (probe mask h n + (n + 1)) &&& mask

/-- How far the n-th probe is from home. -/
def distance : ℕ → ℕ
  | 0 => 0
  | n + 1 => distance n + (n + 1)

theorem two_mul_distance (n : ℕ) : 2 * distance n = n * (n + 1) := by
  induction n with
  | zero => rfl
  | succ n ih =>
    rw [distance, Nat.mul_add, ih]
    ring

theorem probe_eq (m h n : ℕ) : probe (2 ^ m - 1) h n = (h + distance n) % 2 ^ m := by
  induction n with
  | zero => exact Nat.and_two_pow_sub_one_eq_mod _ _
  | succ n ih =>
    rw [probe, Nat.and_two_pow_sub_one_eq_mod, ih, Nat.mod_add_mod, distance, Nat.add_assoc]

theorem probe_lt (m h n : ℕ) : probe (2 ^ m - 1) h n < 2 ^ m := by
  rw [probe_eq]
  exact Nat.mod_lt _ (Nat.two_pow_pos m)

/-- Two probes that are at one place are as far apart as a multiple of the size, twice over. -/
theorem dvd_of_probe_eq (hlt : i < j)
    (heq : probe (2 ^ m - 1) h i = probe (2 ^ m - 1) h j) :
    2 ^ (m + 1) ∣ (j - i) * (j + i + 1) := by
  rw [probe_eq, probe_eq] at heq
  have hi := two_mul_distance i
  have hj := two_mul_distance j
  have hle : distance i ≤ distance j := by
    have : i * (i + 1) ≤ j * (j + 1) := Nat.mul_le_mul hlt.le (Nat.succ_le_succ hlt.le)
    omega
  have hdvd : 2 ^ m ∣ (h + distance j) - (h + distance i) :=
    Nat.dvd_of_mod_eq_zero (Nat.sub_mod_eq_zero_of_mod_eq heq.symm)
  rw [Nat.add_sub_add_left] at hdvd
  have htwice : (j - i) * (j + i + 1) = (distance j - distance i) * 2 := by
    obtain ⟨d, rfl⟩ := Nat.exists_eq_add_of_lt hlt
    rw [Nat.sub_mul (distance _), Nat.mul_comm _ 2, Nat.mul_comm _ 2, hi, hj,
      show i + d + 1 - i = d + 1 by omega]
    refine (Nat.sub_eq_of_eq_add ?_).symm
    ring
  rw [htwice, Nat.pow_succ]
  exact Nat.mul_dvd_mul_right hdvd 2

/-- **The first probes are at different places.** -/
theorem probe_ne (hlt : i < j) (hj : j < 2 ^ m) :
    probe (2 ^ m - 1) h i ≠ probe (2 ^ m - 1) h j := by
  intro heq
  have hdvd := dvd_of_probe_eq hlt heq
  have hpow : 2 ^ (m + 1) = 2 * 2 ^ m := by rw [Nat.pow_succ, Nat.mul_comm]
  have hcoprime {a : ℕ} (ha : a % 2 = 1) : Nat.Coprime (2 ^ (m + 1)) a :=
    Nat.Coprime.pow_left _ (Nat.coprime_two_left.mpr (Nat.odd_iff.mpr ha))
  -- One of the factors is odd, so the other one is a multiple of twice the size.
  rcases Nat.mod_two_eq_zero_or_one (j - i) with heven | hodd
  · have hodd : (j + i + 1) % 2 = 1 := by omega
    have hle := Nat.le_of_dvd (by omega) ((hcoprime hodd).dvd_of_dvd_mul_right hdvd)
    omega
  · have hle := Nat.le_of_dvd (by omega) ((hcoprime hodd).dvd_of_dvd_mul_left hdvd)
    omega

/-- **Every place is probed.** -/
theorem exists_probe (h : ℕ) (hp : p < 2 ^ m) : ∃ n < 2 ^ m, probe (2 ^ m - 1) h n = p := by
  have hinjective : Function.Injective fun n : Fin (2 ^ m) =>
      (⟨probe (2 ^ m - 1) h n, probe_lt m h n⟩ : Fin (2 ^ m)) := by
    intro a b hab
    have heq := Fin.mk.inj hab
    rcases Nat.lt_trichotomy a b with hlt | hsame | hlt
    · exact absurd heq (probe_ne hlt b.isLt)
    · exact Fin.ext hsame
    · exact absurd heq.symm (probe_ne hlt a.isLt)
  obtain ⟨n, hn⟩ := (Finite.injective_iff_surjective.mp hinjective) ⟨p, hp⟩
  exact ⟨n, n.isLt, congrArg Fin.val hn⟩

end Probing
