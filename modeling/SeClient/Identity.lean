import Mathlib.Data.List.GetD
import Mathlib.Data.Nat.Digits.Lemmas
import SeClient.Fips180

/-!
# The identity of a device

`sha256.c` hashes a certificate in the buffer it is in, and `security.c` takes the LFDI and the SFDI
from the hash; `compute_sfdi` of `gen_dev_certs.py` computes them in Python.  An operation is `none`
where it writes outside the buffer or an `int` overflows.
-/

namespace SeClient
open Fips180 (Words ofBytes toBytes)

/-- An `int` expression. -/
def int (x : ℤ) : Option ℤ := if -2 ^ 31 ≤ x ∧ x < 2 ^ 31 then some x else none

/-- Bytes written to a buffer. -/
def store (buffer : List UInt8) (i : ℕ) (s : List UInt8) : Option (List UInt8) :=
  if i + s.length ≤ buffer.length then
    some (buffer.take i ++ (s ++ buffer.drop (i + s.length)))
  else none

/-- `memset` -/
def memset (buffer : List UInt8) (i : ℕ) (c : UInt8) (size : UInt64) : Option (List UInt8) :=
  if i + size.toNat ≤ buffer.length then store buffer i (List.replicate size.toNat c) else none

/-! ## `sha256.c` -/

namespace Sha256

def S (x n : UInt32) : UInt32 := x <<< (32 - n) ||| x >>> n

def Ch (x y z : UInt32) : UInt32 := z ^^^ (x &&& (y ^^^ z))

def Maj (x y z : UInt32) : UInt32 := ((x ||| y) &&& z) ||| (x &&& y)

def Sig0 (x : UInt32) : UInt32 := S x 2 ^^^ S x 13 ^^^ S x 22

def Sig1 (x : UInt32) : UInt32 := S x 6 ^^^ S x 11 ^^^ S x 25

def sig0 (x : UInt32) : UInt32 := S x 7 ^^^ S x 18 ^^^ (x >>> 3)

def sig1 (x : UInt32) : UInt32 := S x 17 ^^^ S x 19 ^^^ (x >>> 10)

def H : Words :=
  ⟨0x6a09e667, 0xbb67ae85, 0x3c6ef372, 0xa54ff53a, 0x510e527f, 0x9b05688c, 0x1f83d9ab, 0x5be0cd19⟩

def K : List UInt32 :=
  [0x428A2F98, 0x71374491, 0xB5C0FBCF, 0xE9B5DBA5, 0x3956C25B, 0x59F111F1,
    0x923F82A4, 0xAB1C5ED5, 0xD807AA98, 0x12835B01, 0x243185BE, 0x550C7DC3,
    0x72BE5D74, 0x80DEB1FE, 0x9BDC06A7, 0xC19BF174, 0xE49B69C1, 0xEFBE4786,
    0x0FC19DC6, 0x240CA1CC, 0x2DE92C6F, 0x4A7484AA, 0x5CB0A9DC, 0x76F988DA,
    0x983E5152, 0xA831C66D, 0xB00327C8, 0xBF597FC7, 0xC6E00BF3, 0xD5A79147,
    0x06CA6351, 0x14292967, 0x27B70A85, 0x2E1B2138, 0x4D2C6DFC, 0x53380D13,
    0x650A7354, 0x766A0ABB, 0x81C2C92E, 0x92722C85, 0xA2BFE8A1, 0xA81A664B,
    0xC24B8B70, 0xC76C51A3, 0xD192E819, 0xD6990624, 0xF40E3585, 0x106AA070,
    0x19A4C116, 0x1E376C08, 0x2748774C, 0x34B0BCB5, 0x391C0CB3, 0x4ED8AA4A,
    0x5B9CCA4F, 0x682E6FF3, 0x748F82EE, 0x78A5636F, 0x84C87814, 0x8CC70208,
    0x90BEFFFA, 0xA4506CEB, 0xBEF9A3F7, 0xC67178F2]

/-- `compress`: what `d` and `h` become. -/
def compress (a b c d e f g h k w : UInt32) : UInt32 × UInt32 :=
  let T0 := h + Sig1 e + Ch e f g + k + w
  let T1 := Sig0 a + Maj a b c
  (d + T0, T0 + T1)

/-- The body of the unrolled loop. -/
def compress8 (W : List UInt32) (h : Words) (i : ℕ) : Words :=
  let kw := fun j => (K.getD (i + j) 0, W.getD (i + j) 0)
  let ⟨h0, h1, h2, h3, h4, h5, h6, h7⟩ := h
  let (h3, h7) := compress h0 h1 h2 h3 h4 h5 h6 h7 (kw 0).1 (kw 0).2
  let (h2, h6) := compress h7 h0 h1 h2 h3 h4 h5 h6 (kw 1).1 (kw 1).2
  let (h1, h5) := compress h6 h7 h0 h1 h2 h3 h4 h5 (kw 2).1 (kw 2).2
  let (h0, h4) := compress h5 h6 h7 h0 h1 h2 h3 h4 (kw 3).1 (kw 3).2
  let (h7, h3) := compress h4 h5 h6 h7 h0 h1 h2 h3 (kw 4).1 (kw 4).2
  let (h6, h2) := compress h3 h4 h5 h6 h7 h0 h1 h2 (kw 5).1 (kw 5).2
  let (h5, h1) := compress h2 h3 h4 h5 h6 h7 h0 h1 (kw 6).1 (kw 6).2
  let (h4, h0) := compress h1 h2 h3 h4 h5 h6 h7 h0 (kw 7).1 (kw 7).2
  ⟨h0, h1, h2, h3, h4, h5, h6, h7⟩

/-- `UNPACK16` -/
def unpack16 (m : List UInt8) : ℕ := (m.getD 0 0).toNat <<< 8 ||| (m.getD 1 0).toNat

/-- `UNPACK32` -/
def unpack32 (m : List UInt8) : UInt32 :=
  UInt32.ofNat (unpack16 m <<< 16 ||| unpack16 (m.drop 2))

/-- The next `n` of the words `W`. -/
def expand : ℕ → List UInt32 → List UInt32
  | 0, W => W
  | n + 1, W =>
    let i := W.length
    let w := sig1 (W.getD (i - 2) 0) + W.getD (i - 7) 0 + sig0 (W.getD (i - 15) 0) +
      W.getD (i - 16) 0
    expand n (W ++ [w])

/-- One pass of the loop over the blocks. -/
def block (m : List UInt8) (H : Words) : Words :=
  let W := expand 48 ((List.range 16).map fun i => unpack32 (m.drop (4 * i)))
  let h := (List.range 8).foldl (fun h i => compress8 W h (8 * i)) H
  H.add h

/-- The loop over `n` blocks: where it reads next, and the hash value. -/
def blocks (n : ℕ) (m : List UInt8) (H : Words) : List UInt8 × Words :=
  (List.range n).foldl (fun s _ => (s.1.drop 64, block s.1 s.2)) (m, H)

/-- `PACK16` -/
def pack16 (d : UInt64) : List UInt8 := [(d >>> 8).toUInt8, d.toUInt8]

/-- `PACK32` -/
def pack32 (d : UInt64) : List UInt8 := pack16 (d >>> 16) ++ pack16 d

/-- `PACK64` -/
def pack64 (d : UInt64) : List UInt8 := pack32 (d >>> 32) ++ pack32 d

/-- The words of a hash value, packed. -/
def output (H : Words) : List UInt8 :=
  [H.a, H.b, H.c, H.d, H.e, H.f, H.g, H.h].flatMap fun x => pack32 x.toUInt64

end Sha256

/-- `sha256_size` -/
def sha256Size (x : ℕ) : ℕ := (x + 9 + 63) / 64 * 64

/-- `sha256`: what it writes to `out`. -/
def sha256 (buffer : List UInt8) (length : ℕ) : Option (List UInt8) := do
  let pad : ℤ := 55 - (length % 64 : ℕ)
  let n := (← int (length + 9 + 63)).toNat / 64
  let l := UInt64.ofInt (← int (length * 8))
  let buffer ← store buffer length [0x80]
  -- A negative `pad` is a size of almost 2 ^ 64.
  let buffer ← memset buffer (length + 1) 0 (UInt64.ofInt pad)
  let buffer ← store buffer (length + 1 + pad).toNat (Sha256.pack64 l)
  some (Sha256.output (Sha256.blocks n buffer Sha256.H).2)

/-! ## `security.c` -/

/-- The loop of `check_digit`. -/
def checkSum (sum : ℕ) (x : UInt64) : ℕ :=
  if x = 0 then sum else checkSum (sum + (x % 10).toNat) (x / 10)
termination_by x.toNat
decreasing_by
  have hpos : x.toNat ≠ 0 := fun h => by
    rename_i hx
    exact hx (UInt64.toNat_inj.mp h)
  rw [UInt64.toNat_div]
  exact Nat.div_lt_self (by omega) (by decide)

/-- `check_digit` -/
def checkDigit (x : UInt64) : ℕ := (10 - checkSum 0 x % 10) % 10

/-- `sfdi_gen` -/
def sfdiGen (lfdi : List UInt8) : UInt64 :=
  let sfdi := (lfdi.take 5).foldl (fun (sfdi : UInt64) b => (sfdi <<< 8) + b.toUInt64) 0
  let sfdi := sfdi >>> 4
  sfdi * 10 + UInt64.ofNat (checkDigit sfdi)

/-- `lfdi_hash`: the LFDI and the SFDI. -/
def lfdiHash (buffer : List UInt8) (length : ℕ) : Option (List UInt8 × UInt64) := do
  let hash ← sha256 buffer length
  let lfdi := hash.take 20
  some (lfdi, sfdiGen lfdi)

/-- The buffer of `lfdi_gen`: the certificate, and what was in the memory behind it. -/
def certBuffer (cert : List UInt8) (garbage : ℕ → UInt8) : List UInt8 :=
  cert ++ (List.range (sha256Size cert.length - cert.length)).map garbage

/-! ## `gen_dev_certs.py` -/

namespace Py

/-- The loop of `check_digit`. -/
def checkSum (total x : ℕ) : ℕ :=
  if x = 0 then total else checkSum (total + x % 10) (x / 10)
termination_by x

/-- `check_digit` -/
def checkDigit (x : ℕ) : ℕ := (10 - checkSum 0 x % 10) % 10

/-- `compute_sfdi` of a file with these bytes: the LFDI and the SFDI. -/
def computeSfdi (raw : List UInt8) : List UInt8 × ℕ :=
  let digest := Fips180.sha256 raw
  let lfdi := digest.take 20
  let sfdi := (lfdi.take 5).foldl (fun sfdi byte => (sfdi <<< 8) + byte.toNat) 0
  let sfdi := sfdi >>> 4
  (lfdi, sfdi * 10 + checkDigit sfdi)

end Py

/-! ## The hash -/

namespace Sha256
open Fips180 (schedule round rounds blockWord)

theorem Ch_eq (x y z : UInt32) : Ch x y z = Fips180.ch x y z := by
  apply UInt32.eq_of_toBitVec_eq
  apply BitVec.eq_of_getLsbD_eq
  intro i hi
  simp only [Ch, Fips180.ch, UInt32.toBitVec_xor, UInt32.toBitVec_and, UInt32.toBitVec_not,
    BitVec.getLsbD_xor, BitVec.getLsbD_and, BitVec.getLsbD_not, hi, decide_true, Bool.true_and]
  cases x.toBitVec.getLsbD i <;> cases y.toBitVec.getLsbD i <;> cases z.toBitVec.getLsbD i <;> rfl

theorem Maj_eq (x y z : UInt32) : Maj x y z = Fips180.maj x y z := by
  apply UInt32.eq_of_toBitVec_eq
  apply BitVec.eq_of_getLsbD_eq
  intro i _
  simp only [Maj, Fips180.maj, UInt32.toBitVec_xor, UInt32.toBitVec_and, UInt32.toBitVec_or,
    BitVec.getLsbD_xor, BitVec.getLsbD_and, BitVec.getLsbD_or]
  cases x.toBitVec.getLsbD i <;> cases y.toBitVec.getLsbD i <;> cases z.toBitVec.getLsbD i <;> rfl

/-- The macro rotates, to the left in front of to the right. -/
theorem S_eq (x : UInt32) {n : ℕ} (hn : n ≤ 32) : S x (UInt32.ofNat n) = Fips180.rotr n x := by
  have hnat : ∀ k ≤ 32, (UInt32.ofNat k).toNat = k := fun k hk => by
    rw [UInt32.toNat_ofNat', Nat.mod_eq_of_lt (by omega)]
  have hsub : 32 - UInt32.ofNat n = UInt32.ofNat (32 - n) := by
    apply UInt32.toNat_inj.mp
    have hle : UInt32.ofNat n ≤ 32 := by
      rw [UInt32.le_iff_toNat_le, hnat n hn]
      exact hn
    rw [UInt32.toNat_sub_of_le _ _ hle, hnat n hn, hnat _ (Nat.sub_le _ _)]
    rfl
  rw [S, Fips180.rotr, hsub, UInt32.or_comm]

theorem Sig0_eq (x : UInt32) : Sig0 x = Fips180.bigSigma0 x := by
  have h₁ := S_eq x (show 2 ≤ 32 by decide)
  have h₂ := S_eq x (show 13 ≤ 32 by decide)
  have h₃ := S_eq x (show 22 ≤ 32 by decide)
  rw [Fips180.bigSigma0, ← h₁, ← h₂, ← h₃]
  rfl

theorem Sig1_eq (x : UInt32) : Sig1 x = Fips180.bigSigma1 x := by
  have h₁ := S_eq x (show 6 ≤ 32 by decide)
  have h₂ := S_eq x (show 11 ≤ 32 by decide)
  have h₃ := S_eq x (show 25 ≤ 32 by decide)
  rw [Fips180.bigSigma1, ← h₁, ← h₂, ← h₃]
  rfl

theorem sig0_eq (x : UInt32) : sig0 x = Fips180.smallSigma0 x := by
  have h₁ := S_eq x (show 7 ≤ 32 by decide)
  have h₂ := S_eq x (show 18 ≤ 32 by decide)
  rw [Fips180.smallSigma0, ← h₁, ← h₂]
  rfl

theorem sig1_eq (x : UInt32) : sig1 x = Fips180.smallSigma1 x := by
  have h₁ := S_eq x (show 17 ≤ 32 by decide)
  have h₂ := S_eq x (show 19 ≤ 32 by decide)
  rw [Fips180.smallSigma1, ← h₁, ← h₂]
  rfl

theorem K_eq : K = Fips180.constants := rfl

/-! ### The steps -/

/-- **The macro** is a step that leaves six of the variables in their places. -/
theorem compress_round (a b c d e f g h k w : UInt32) :
    Fips180.round k w ⟨a, b, c, d, e, f, g, h⟩ =
      ⟨(compress a b c d e f g h k w).2, a, b, c, (compress a b c d e f g h k w).1, e, f, g⟩ := by
  simp only [Fips180.round, compress, Ch_eq, Maj_eq, Sig0_eq, Sig1_eq]

theorem rounds_succ (W : ℕ → UInt32) (n : ℕ) (v : Words) :
    rounds W (n + 1) v = round (K.getD n 0) (W n) (rounds W n v) := by
  rw [rounds, List.range_succ, List.foldl_append]
  rfl

/-- The steps read the words below `n`. -/
theorem rounds_congr {W W' : ℕ → UInt32} {v : Words} (n : ℕ) (h : ∀ t < n, W t = W' t) :
    rounds W n v = rounds W' n v := by
  induction n with
  | zero => rfl
  | succ n ih =>
    rw [rounds_succ, rounds_succ, ih fun t ht => h t (Nat.lt_succ_of_lt ht),
      h n (Nat.lt_succ_self n)]

/-- **The unrolled loop** makes eight steps a pass. -/
theorem compress8_rounds (W : List UInt32) (n : ℕ) (v : Words) :
    compress8 W (rounds (W.getD · 0) n v) n = rounds (W.getD · 0) (n + 8) v := by
  generalize hv : rounds (W.getD · 0) n v = u
  obtain ⟨h0, h1, h2, h3, h4, h5, h6, h7⟩ := u
  have hsteps : rounds (W.getD · 0) (n + 8) v =
      round (K.getD (n + 7) 0) (W.getD (n + 7) 0) (round (K.getD (n + 6) 0) (W.getD (n + 6) 0)
        (round (K.getD (n + 5) 0) (W.getD (n + 5) 0) (round (K.getD (n + 4) 0) (W.getD (n + 4) 0)
          (round (K.getD (n + 3) 0) (W.getD (n + 3) 0) (round (K.getD (n + 2) 0) (W.getD (n + 2) 0)
            (round (K.getD (n + 1) 0) (W.getD (n + 1) 0) (round (K.getD n 0) (W.getD n 0)
              ⟨h0, h1, h2, h3, h4, h5, h6, h7⟩))))))) := by
    rw [rounds_succ, rounds_succ, rounds_succ, rounds_succ, rounds_succ, rounds_succ, rounds_succ,
      rounds_succ, hv]
  rw [hsteps]
  simp only [compress_round]
  rfl

theorem compress_loop (W : List UInt32) (v : Words) (n : ℕ) :
    (List.range n).foldl (fun h i => compress8 W h (8 * i)) v = rounds (W.getD · 0) (8 * n) v := by
  induction n with
  | zero => rfl
  | succ n ih =>
    rw [List.range_succ, List.foldl_append, ih]
    exact compress8_rounds W (8 * n) v

/-! ### The schedule -/

/-- The words are those of a message schedule. -/
def Scheduled (M : ℕ → UInt32) (W : List UInt32) : Prop :=
  ∀ t < W.length, W.getD t 0 = schedule M t

theorem expand_scheduled {M : ℕ → UInt32} (n : ℕ) {W : List UInt32} (hlength : 16 ≤ W.length)
    (hW : Scheduled M W) : Scheduled M (expand n W) ∧ (expand n W).length = W.length + n := by
  induction n generalizing W with
  | zero => exact ⟨hW, rfl⟩
  | succ n ih =>
    generalize hw : sig1 (W.getD (W.length - 2) 0) + W.getD (W.length - 7) 0 +
      sig0 (W.getD (W.length - 15) 0) + W.getD (W.length - 16) 0 = w
    have hnext : Scheduled M (W ++ [w]) := by
      intro t ht
      rw [List.length_append, List.length_singleton] at ht
      by_cases hlt : t < W.length
      · rw [List.getD_append _ _ _ _ hlt]
        exact hW t hlt
      · obtain rfl : t = W.length := by omega
        rw [List.getD_append_right _ _ _ _ (Nat.le_refl _), Nat.sub_self, ← hw,
          hW _ (by omega), hW _ (by omega), hW _ (by omega), hW _ (by omega), sig1_eq, sig0_eq]
        conv_rhs => rw [schedule, if_neg (by omega)]
        rfl
    have hexpand : expand (n + 1) W = expand n (W ++ [w]) := by rw [expand, ← hw]
    have hlength' : (W ++ [w]).length = W.length + 1 := by
      rw [List.length_append, List.length_singleton]
    obtain ⟨hscheduled, hcount⟩ := ih (W := W ++ [w]) (by omega) hnext
    rw [hexpand]
    exact ⟨hscheduled, by omega⟩

/-- A byte behind another one. -/
theorem shift_or (a : ℕ) {b : ℕ} {i : ℕ} (hb : b < 2 ^ i) : a <<< i ||| b = a * 2 ^ i + b := by
  rw [Nat.shiftLeft_eq, Nat.mul_comm, Nat.two_pow_add_eq_or_of_lt hb]

theorem unpack16_lt (m : List UInt8) : unpack16 m < 2 ^ 16 := by
  have h₀ := (m.getD 0 0).toNat_lt
  have h₁ := (m.getD 1 0).toNat_lt
  rw [unpack16, shift_or _ h₁]
  omega

/-- **`UNPACK32`** reads a word. -/
theorem unpack32_eq {m : List UInt8} (hm : 4 ≤ m.length) :
    unpack32 m = UInt32.ofNat (ofBytes (m.take 4)) := by
  obtain ⟨a, b, c, d, rest, rfl⟩ : ∃ a b c d rest, m = a :: b :: c :: d :: rest := by
    rcases m with _ | ⟨a, _ | ⟨b, _ | ⟨c, _ | ⟨d, rest⟩⟩⟩⟩
    case cons.cons.cons.cons => exact ⟨a, b, c, d, rest, rfl⟩
    all_goals exact absurd hm (by simp)
  have hb : b.toNat < 2 ^ 8 := b.toNat_lt
  have hd : d.toNat < 2 ^ 8 := d.toNat_lt
  have hlow : unpack16 ((a :: b :: c :: d :: rest).drop 2) < 2 ^ 16 := unpack16_lt _
  have hfirst : unpack16 (a :: b :: c :: d :: rest) = a.toNat <<< 8 ||| b.toNat := rfl
  have hsecond : unpack16 ((a :: b :: c :: d :: rest).drop 2) = c.toNat <<< 8 ||| d.toNat := rfl
  have hvalue : ofBytes ((a :: b :: c :: d :: rest).take 4) =
      (((0 * 256 + a.toNat) * 256 + b.toNat) * 256 + c.toNat) * 256 + d.toNat := rfl
  rw [unpack32, shift_or _ hlow, hfirst, hsecond, hvalue, shift_or _ hb, shift_or _ hd]
  refine congrArg UInt32.ofNat ?_
  omega

/-! ### The blocks -/

theorem block_compress {m : List UInt8} (hm : 64 ≤ m.length) (H : Words) :
    block m H = Fips180.compress (blockWord m) H := by
  have hinitial : Scheduled (blockWord m)
      ((List.range 16).map fun i => unpack32 (m.drop (4 * i))) := by
    intro t ht
    rw [List.length_map, List.length_range] at ht
    have hlength : 4 ≤ (m.drop (4 * t)).length := by
      rw [List.length_drop]
      omega
    rw [schedule, if_pos ht, blockWord, ← unpack32_eq hlength, List.getD_eq_getElem _ _ (by simpa),
      List.getElem_map, List.getElem_range]
  obtain ⟨hscheduled, hcount⟩ := expand_scheduled 48 (by simp) hinitial
  rw [List.length_map, List.length_range] at hcount
  have hsteps := rounds_congr (v := H) 64 fun t ht => hscheduled t (by omega)
  rw [block, Fips180.compress, ← hsteps]
  simp only [compress_loop]

/-- **The loop over the blocks** hashes them. -/
theorem blocks_eq (n : ℕ) {m : List UInt8} (hm : 64 * n ≤ m.length) (H : Words) :
    blocks n m H = (m.drop (64 * n),
      (List.range n).foldl (fun H i => Fips180.compress (blockWord (m.drop (64 * i))) H) H) := by
  induction n with
  | zero => rfl
  | succ n ih =>
    have hrest : 64 ≤ (m.drop (64 * n)).length := by
      rw [List.length_drop]
      omega
    have hstep : blocks (n + 1) m H =
        ((blocks n m H).1.drop 64, block (blocks n m H).1 (blocks n m H).2) := by
      rw [blocks, List.range_succ, List.foldl_append, List.foldl_cons, List.foldl_nil]
      rfl
    rw [hstep, ih (by omega), block_compress hrest, List.drop_drop, Nat.mul_succ, List.range_succ,
      List.foldl_append, List.foldl_cons, List.foldl_nil]

/-! ### Packing -/

theorem toNat_shift (d : UInt64) {k : ℕ} (hk : k < 64) :
    (d >>> UInt64.ofNat k).toNat = d.toNat / 2 ^ k := by
  rw [UInt64.toNat_shiftRight, UInt64.toNat_ofNat', Nat.shiftRight_eq_div_pow,
    Nat.mod_eq_of_lt (show k < 2 ^ 64 by omega), Nat.mod_eq_of_lt hk]

theorem toUInt8_eq (d : UInt64) : d.toUInt8 = UInt8.ofNat d.toNat := by
  apply UInt8.toNat_inj.mp
  rw [UInt64.toNat_toUInt8, UInt8.toNat_ofNat']

theorem pack16_eq (d : UInt64) : pack16 d = toBytes 2 d.toNat := by
  have hhigh : (d >>> 8).toNat = d.toNat / 2 ^ 8 := toNat_shift d (by decide)
  have hbytes : toBytes 2 d.toNat =
      [UInt8.ofNat (d.toNat / 256 ^ 1), UInt8.ofNat (d.toNat / 256 ^ 0)] := rfl
  rw [pack16, toUInt8_eq, toUInt8_eq, hhigh, hbytes, Nat.pow_zero, Nat.div_one,
    show 2 ^ 8 = 256 ^ 1 by norm_num]

/-- The bytes of a number in two parts. -/
theorem toBytes_add (n k x : ℕ) : toBytes (n + k) x = toBytes n (x / 256 ^ k) ++ toBytes k x := by
  unfold toBytes
  rw [List.range_add, List.map_append, List.map_map]
  congr 1
  · refine List.map_congr_left fun i hi => ?_
    have hlt := List.mem_range.mp hi
    rw [Nat.div_div_eq_div_mul, ← Nat.pow_add, show k + (n - 1 - i) = n + k - 1 - i by omega]
  · refine List.map_congr_left fun i hi => ?_
    have hlt := List.mem_range.mp hi
    rw [Function.comp_apply, show n + k - 1 - (n + i) = k - 1 - i by omega]

theorem pack32_eq (d : UInt64) : pack32 d = toBytes 4 d.toNat := by
  have hshift : (d >>> 16).toNat = d.toNat / 2 ^ 16 := toNat_shift d (by decide)
  rw [pack32, pack16_eq, pack16_eq, hshift, show 2 ^ 16 = 256 ^ 2 by norm_num, ← toBytes_add]

theorem pack64_eq (d : UInt64) : pack64 d = toBytes 8 d.toNat := by
  have hshift : (d >>> 32).toNat = d.toNat / 2 ^ 32 := toNat_shift d (by decide)
  rw [pack64, pack32_eq, pack32_eq, hshift, show 2 ^ 32 = 256 ^ 4 by norm_num, ← toBytes_add]

theorem output_eq (H : Words) : output H = H.bytes := by
  unfold output Words.bytes
  congr 1
  funext x
  rw [pack32_eq, UInt32.toNat_toUInt64]

end Sha256

/-! ## The buffer -/

section Buffer
variable {a x s : List UInt8} {cert : List UInt8} {garbage : ℕ → UInt8}

theorem int_eq {z : ℤ} (h : -2 ^ 31 ≤ z ∧ z < 2 ^ 31) : int z = some z := if_pos h

theorem int_none {z : ℤ} (h : 2 ^ 31 ≤ z) : int z = none := if_neg fun h' => by omega

theorem toNat_ofInt {n : ℕ} (h : n < 2 ^ 64) : (UInt64.ofInt n).toNat = n := by
  have hmod : ((n : ℤ) % 2 ^ 64).toNat = n := by omega
  rw [UInt64.ofInt, hmod, UInt64.toNat_ofNat', Nat.mod_eq_of_lt h]

theorem store_append (h : s.length ≤ x.length) :
    store (a ++ x) a.length s = some (a ++ s ++ x.drop s.length) := by
  rw [store, if_pos (by rw [List.length_append]; omega), List.take_left, List.drop_append,
    List.append_assoc]
  simp

theorem memset_append {c : UInt8} {size : UInt64} (h : size.toNat ≤ x.length) :
    memset (a ++ x) a.length c size =
      some (a ++ List.replicate size.toNat c ++ x.drop size.toNat) := by
  have hstore := store_append (a := a) (s := List.replicate size.toNat c) (x := x)
    (by rwa [List.length_replicate])
  rw [memset, if_pos (by rw [List.length_append]; omega), hstore, List.length_replicate]

variable (cert garbage) in
theorem length_certBuffer : (certBuffer cert garbage).length = sha256Size cert.length := by
  rw [certBuffer, List.length_append, List.length_map, List.length_range]
  unfold sha256Size
  omega

variable (garbage) in
/-- **The hash of a certificate** whose padding is not negative and whose bits can be counted. -/
theorem sha256_eq (hpad : cert.length % 64 < 56) (hlength : cert.length < 2 ^ 28) :
    sha256 (certBuffer cert garbage) cert.length = some (Fips180.sha256 cert) := by
  generalize hx : (List.range (sha256Size cert.length - cert.length)).map garbage = x
  have hroom : x.length = 1 + Fips180.zeros cert.length + 8 := by
    rw [← hx, List.length_map, List.length_range]
    unfold sha256Size Fips180.zeros
    omega
  have hzeros : (55 - (cert.length % 64 : ℕ) : ℤ) = Fips180.zeros cert.length := by
    unfold Fips180.zeros
    omega
  have hsize : (UInt64.ofInt (55 - (cert.length % 64 : ℕ))).toNat = Fips180.zeros cert.length := by
    rw [hzeros]
    exact toNat_ofInt (by unfold Fips180.zeros; omega)
  have hbits : (UInt64.ofInt (cert.length * 8 : ℤ)).toNat = 8 * cert.length := by
    have hofInt := toNat_ofInt (n := cert.length * 8) (by omega)
    rw [Nat.cast_mul] at hofInt
    exact hofInt.trans (Nat.mul_comm _ _)
  have hblocks : int (cert.length + 9 + 63) = some (cert.length + 9 + 63 : ℤ) := int_eq (by omega)
  have hcount : int (cert.length * 8) = some (cert.length * 8 : ℤ) := int_eq (by omega)
  have hmark : store (certBuffer cert garbage) cert.length [0x80] =
      some (cert ++ [0x80] ++ x.drop 1) := by
    rw [certBuffer, hx]
    exact store_append (by rw [List.length_singleton]; omega)
  have hfill : memset (cert ++ [0x80] ++ x.drop 1) (cert.length + 1) 0
      (UInt64.ofInt (55 - (cert.length % 64 : ℕ))) =
        some (cert ++ [0x80] ++ List.replicate (Fips180.zeros cert.length) 0 ++
          x.drop (1 + Fips180.zeros cert.length)) := by
    have hend : cert.length + 1 = (cert ++ [0x80]).length := by
      rw [List.length_append, List.length_singleton]
    rw [hend, memset_append (by rw [hsize, List.length_drop]; omega), hsize, List.drop_drop]
  have hcounted : store (cert ++ [0x80] ++ List.replicate (Fips180.zeros cert.length) 0 ++
      x.drop (1 + Fips180.zeros cert.length))
      (cert.length + 1 + (55 - (cert.length % 64 : ℕ)) : ℤ).toNat
      (Sha256.pack64 (UInt64.ofInt (cert.length * 8))) = some (Fips180.pad cert) := by
    have hend : (cert.length + 1 + (55 - (cert.length % 64 : ℕ)) : ℤ).toNat =
        (cert ++ [0x80] ++ List.replicate (Fips180.zeros cert.length) 0).length := by
      rw [hzeros, List.length_append, List.length_append, List.length_singleton,
        List.length_replicate]
      omega
    rw [Sha256.pack64_eq, hbits, hend, store_append
      (by rw [Fips180.length_toBytes, List.length_drop]; omega), List.drop_eq_nil_of_le
      (by rw [Fips180.length_toBytes, List.length_drop]; omega), Fips180.pad]
    simp
  have hn : ((cert.length + 9 + 63 : ℤ).toNat / 64) = (Fips180.pad cert).length / 64 := by
    rw [Fips180.pad_blocks]
    omega
  have hfits : 64 * ((Fips180.pad cert).length / 64) ≤ (Fips180.pad cert).length :=
    Nat.mul_div_le _ _
  rw [sha256]
  simp only [hblocks, hcount, hmark, hfill, hcounted, Option.bind_eq_bind, Option.bind_some]
  rw [hn, Sha256.blocks_eq _ hfits, Sha256.output_eq]
  rfl

example : (sha256 (certBuffer [97, 98, 99] fun _ => 7) 3).map (List.take 8) =
    some [0xba, 0x78, 0x16, 0xbf, 0x8f, 0x01, 0xcf, 0xea] := by decide +kernel

variable (cert garbage) in
/-- A negative padding is a write far behind the buffer, and a count of bits from `2 ^ 31` on is no
`int`. -/
theorem sha256_none (h : 56 ≤ cert.length % 64 ∨ 2 ^ 28 ≤ cert.length) :
    sha256 (certBuffer cert garbage) cert.length = none := by
  by_cases hlength : 2 ^ 28 ≤ cert.length
  · have hcount : int (cert.length * 8) = none := int_none (by omega)
    rw [sha256]
    cases hblocks : int (cert.length + 9 + 63) <;>
      simp only [hcount, Option.bind_eq_bind, Option.bind_some, Option.bind_none]
  · have hpad : 56 ≤ cert.length % 64 := h.resolve_right hlength
    have hblocks : int (cert.length + 9 + 63) = some (cert.length + 9 + 63 : ℤ) :=
      int_eq (by omega)
    have hcount : int (cert.length * 8) = some (cert.length * 8 : ℤ) := int_eq (by omega)
    obtain ⟨k, hk, hsize⟩ : ∃ k, k ≤ 8 ∧
        (UInt64.ofInt (55 - (cert.length % 64 : ℕ))).toNat = 2 ^ 64 - k := by
      refine ⟨cert.length % 64 - 55, by omega, ?_⟩
      have hmod : (55 - (cert.length % 64 : ℕ) : ℤ) % 2 ^ 64 =
          (2 ^ 64 - (cert.length % 64 - 55) : ℕ) := by omega
      rw [UInt64.ofInt, hmod, Int.toNat_natCast, UInt64.toNat_ofNat', Nat.mod_eq_of_lt (by omega)]
    rw [sha256]
    simp only [hblocks, hcount, Option.bind_eq_bind, Option.bind_some]
    cases hmark : store (certBuffer cert garbage) cert.length [0x80] with
    | none => rfl
    | some buffer =>
      have hbuffer : buffer.length = sha256Size cert.length := by
        unfold store at hmark
        split at hmark
        · rename_i hroom
          rw [← Option.some.inj hmark, ← length_certBuffer cert garbage]
          simp only [List.length_append, List.length_take, List.length_drop, List.length_singleton]
            at hroom ⊢
          omega
        · exact nomatch hmark
      have hfill : memset buffer (cert.length + 1) 0
          (UInt64.ofInt (55 - (cert.length % 64 : ℕ))) = none := by
        refine if_neg ?_
        rw [hsize, hbuffer]
        unfold sha256Size
        omega
      simp only [Option.bind_some, hfill, Option.bind_none]

end Buffer

/-! ## The SFDI -/

section Sfdi
variable {x y : List UInt8}

theorem checkSum_eq (sum : ℕ) (x : UInt64) : checkSum sum x = Py.checkSum sum x.toNat := by
  fun_induction checkSum sum x with
  | case1 => rw [Py.checkSum, if_pos UInt64.toNat_zero]
  | case2 sum x hx ih =>
    have hpos : x.toNat ≠ 0 := fun h => hx (UInt64.toNat_inj.mp h)
    rw [ih, UInt64.toNat_div, UInt64.toNat_mod]
    conv_rhs => rw [Py.checkSum, if_neg hpos]
    rfl

theorem checkDigit_eq (x : UInt64) : checkDigit x = Py.checkDigit x.toNat := by
  rw [checkDigit, Py.checkDigit, checkSum_eq]

/-- The loop adds the digits. -/
theorem checkSum_digits (sum x : ℕ) : Py.checkSum sum x = sum + (Nat.digits 10 x).sum := by
  fun_induction Py.checkSum sum x with
  | case1 => simp
  | case2 sum x hx ih =>
    rw [ih, Nat.digits_def' (by decide) (Nat.pos_of_ne_zero hx), List.sum_cons, Nat.add_assoc]

/-- **The check digit** makes the sum of the digits a multiple of 10. -/
theorem digits_checkDigit (x : ℕ) : (Nat.digits 10 (x * 10 + Py.checkDigit x)).sum % 10 = 0 := by
  have hcheck : Py.checkDigit x = (10 - (Nat.digits 10 x).sum % 10) % 10 := by
    rw [Py.checkDigit, checkSum_digits, Nat.zero_add]
  have hlt : Py.checkDigit x < 10 := hcheck ▸ Nat.mod_lt _ (by decide)
  rcases Nat.eq_zero_or_pos (x * 10 + Py.checkDigit x) with hzero | hpos
  · rw [hzero]
    rfl
  · rw [Nat.digits_def' (by decide) hpos, List.sum_cons,
      show (x * 10 + Py.checkDigit x) / 10 = x by omega]
    omega

theorem ofBytes_append : ofBytes (x ++ y) = ofBytes x * 256 ^ y.length + ofBytes y := by
  have hfoldl : ∀ (l : List UInt8) (n : ℕ),
      l.foldl (fun x b => x * 256 + b.toNat) n = n * 256 ^ l.length + ofBytes l := by
    intro l
    induction l with
    | nil => intro n; simp [ofBytes]
    | cons b l ih =>
      intro n
      rw [ofBytes, List.foldl_cons, List.foldl_cons, ih, ih, List.length_cons, Nat.pow_succ]
      ring
  rw [ofBytes, List.foldl_append, hfoldl]
  rfl

theorem ofBytes_lt : ofBytes x < 256 ^ x.length := by
  induction x using List.reverseRecOn with
  | nil => decide
  | append_singleton x b ih =>
    have hb := b.toNat_lt
    have hone : ofBytes [b] = b.toNat := Nat.zero_add _
    rw [ofBytes_append, List.length_append, Nat.pow_add, hone, List.length_singleton, Nat.pow_one]
    omega

/-- The bytes shifted in, in 64 bits. -/
theorem shift_in (hx : x.length ≤ 8) :
    (x.foldl (fun (s : UInt64) b => (s <<< 8) + b.toUInt64) 0).toNat = ofBytes x := by
  induction x using List.reverseRecOn with
  | nil => rfl
  | append_singleton x b ih =>
    rw [List.length_append, List.length_singleton] at hx
    have hlt : ofBytes x < 256 ^ 7 :=
      ofBytes_lt.trans_le (Nat.pow_le_pow_right (by decide) (by omega))
    have hb := b.toNat_lt
    have hone : ofBytes [b] = b.toNat := Nat.zero_add _
    have hshift : ∀ s : UInt64, (s <<< 8).toNat = s.toNat * 256 % 2 ^ 64 := fun s => by
      rw [UInt64.toNat_shiftLeft, Nat.shiftLeft_eq,
        show (8 : UInt64).toNat % 64 = 8 by decide, show 2 ^ 8 = 256 by norm_num]
    rw [List.foldl_append, List.foldl_cons, List.foldl_nil, UInt64.toNat_add, hshift,
      ih (by omega), UInt8.toNat_toUInt64, ofBytes_append, hone, List.length_singleton, Nat.pow_one]
    omega

theorem py_shift_in : x.foldl (fun s b => (s <<< 8) + b.toNat) 0 = ofBytes x := by
  unfold ofBytes
  congr 1
  funext s b
  rw [Nat.shiftLeft_eq]

/-- The first five bytes without their last four bits. -/
def base (lfdi : List UInt8) : ℕ := ofBytes (lfdi.take 5) / 16

theorem base_lt (lfdi : List UInt8) : base lfdi < 2 ^ 36 := by
  have hlt : ofBytes (lfdi.take 5) < 256 ^ 5 :=
    ofBytes_lt.trans_le (Nat.pow_le_pow_right (by decide) (List.length_take_le _ _))
  unfold base
  omega

theorem checkDigit_lt (x : ℕ) : Py.checkDigit x < 10 := Nat.mod_lt _ (by decide)

/-- **`sfdi_gen`** does not leave 64 bits. -/
theorem sfdiGen_eq (lfdi : List UInt8) :
    (sfdiGen lfdi).toNat = base lfdi * 10 + Py.checkDigit (base lfdi) := by
  have hbase := base_lt lfdi
  have hcheck := checkDigit_lt (base lfdi)
  have hshift : ((lfdi.take 5).foldl (fun (s : UInt64) b => (s <<< 8) + b.toUInt64) 0 >>> 4).toNat =
      base lfdi := by
    refine (Sha256.toNat_shift _ (by decide)).trans ?_
    rw [shift_in ((List.length_take_le _ _).trans (by decide))]
    rfl
  simp only [sfdiGen]
  rw [checkDigit_eq, UInt64.toNat_add, UInt64.toNat_mul, hshift, UInt64.toNat_ofNat',
    show (10 : UInt64).toNat = 10 by decide]
  omega

theorem computeSfdi_eq (raw : List UInt8) :
    Py.computeSfdi raw = ((Fips180.sha256 raw).take 20,
      (sfdiGen ((Fips180.sha256 raw).take 20)).toNat) := by
  rw [sfdiGen_eq]
  simp only [Py.computeSfdi, py_shift_in, Nat.shiftRight_eq_div_pow, base, Nat.reducePow]

end Sfdi

/-! ## The identity -/

/-- The C client and the Python tool identify the device of a certificate alike, by the SHA-256 of
the certificate. -/
structure Identified (cert : List UInt8) (garbage : ℕ → UInt8) : Prop where
  hash : sha256 (certBuffer cert garbage) cert.length = some (Fips180.sha256 cert)
  identity : (lfdiHash (certBuffer cert garbage) cert.length).map
    (fun r => (r.1, r.2.toNat)) = some (Py.computeSfdi cert)

/-- The number that `sfdi_gen` makes of an LFDI. -/
structure SfdiDigits (lfdi : Vector UInt8 20) : Prop where
  /-- No step of the computation leaves 64 bits. -/
  exact : (sfdiGen lfdi.toList).toNat = base lfdi.toList * 10 + Py.checkDigit (base lfdi.toList)
  bits : (sfdiGen lfdi.toList).toNat / 10 = ofBytes lfdi.toList / 2 ^ (160 - 36)
  digits : (Nat.digits 10 (sfdiGen lfdi.toList).toNat).sum % 10 = 0

theorem base_bits (lfdi : Vector UInt8 20) : base lfdi.toList = ofBytes lfdi.toList / 2 ^ 124 := by
  have hsplit := ofBytes_append (x := lfdi.toList.take 5) (y := lfdi.toList.drop 5)
  have hrest := ofBytes_lt (x := lfdi.toList.drop 5)
  have hlength : (lfdi.toList.drop 5).length = 15 := by
    rw [List.length_drop, Vector.length_toList]
  rw [List.take_append_drop, hlength] at hsplit
  rw [hlength] at hrest
  rw [hsplit, base]
  omega

theorem sfdi_digits (lfdi : Vector UInt8 20) : SfdiDigits lfdi where
  exact := sfdiGen_eq lfdi.toList
  bits := by
    have hcheck := checkDigit_lt (base lfdi.toList)
    rw [sfdiGen_eq, ← base_bits]
    omega
  digits := by
    rw [sfdiGen_eq]
    exact digits_checkDigit _

/-- **The identity of a device** is that of FIPS 180-4 for the certificates that leave eight bytes
of their last block and have fewer than `2 ^ 31` bits; an SFDI is 36 bits and a check digit. -/
theorem identity_iff (cert : List UInt8) (garbage : ℕ → UInt8) (lfdi : Vector UInt8 20) :
    (Identified cert garbage ↔ cert.length % 64 < 56 ∧ cert.length < 2 ^ 28) ∧
      SfdiDigits lfdi := by
  refine ⟨⟨fun h => ?_, fun ⟨hpad, hlength⟩ => ?_⟩, sfdi_digits lfdi⟩
  · by_contra hcond
    have hnone := sha256_none cert garbage (by omega)
    rw [h.hash] at hnone
    exact nomatch hnone
  · have hhash := sha256_eq garbage hpad hlength
    refine ⟨hhash, ?_⟩
    simp only [computeSfdi_eq, lfdiHash, hhash, Option.bind_eq_bind, Option.bind_some,
      Option.map_some]

/-- The padding of 56 bytes is of -1 bytes. -/
theorem not_identified : ¬Identified (List.replicate 56 0) fun _ => 0 := by
  intro h
  have hnone := sha256_none (List.replicate 56 0) (fun _ => 0) (.inl (by simp))
  rw [h.hash] at hnone
  exact nomatch hnone

end SeClient
