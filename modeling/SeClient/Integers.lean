import SeClient.BitWriting
import SeClient.BitReading

/-!
# EXI integers

An unsigned integer travels as base-128 digits, a signed one as its sign and its
magnitude.  `parse_uint` shifts the digits in type `int`, so only values below `2 ^ 31`
are sure to come back.
-/

namespace SeClient
open Bits

/-- x86-64 takes the shift count modulo 32 and keeps 32 bits, which widening then
sign-extends. -/
def IntShift.x86 : IntShift where
  shl b n :=
    let v := b.toNat * 2 ^ (n % 32) % 2 ^ 32
    UInt64.ofNat (if v < 2 ^ 31 then v else v + (2 ^ 64 - 2 ^ 32))
  exact := by
    intro b n hn hb
    have hv : b.toNat * 2 ^ (n % 32) % 2 ^ 32 = b.toNat * 2 ^ n := by
      rw [Nat.mod_eq_of_lt hn, Nat.mod_eq_of_lt (hb.trans (by decide))]
    simp only [hv, if_pos hb]
    exact UInt64.toNat_ofNat_of_lt' (hb.trans (by decide))

/-- An implementation that answers 0 where C leaves the shift undefined. -/
def IntShift.zero : IntShift where
  shl b n := if n < 32 ∧ b.toNat * 2 ^ n < 2 ^ 31 then UInt64.ofNat (b.toNat * 2 ^ n) else 0
  exact := by
    intro b n hn hb
    rw [if_pos ⟨hn, hb⟩]
    exact UInt64.toNat_ofNat_of_lt' (hb.trans (by decide))

theorem IntShift.zero_lt {b : UInt8} {n : ℕ} : (IntShift.zero.shl b n).toNat < 2 ^ 31 := by
  simp only [IntShift.zero]
  split_ifs with h
  · rw [UInt64.toNat_ofNat_of_lt' (h.2.trans (by decide))]
    exact h.2
  · decide

namespace InBits
variable {s : IntShift} {p : InBits} {u v n fuel : ℕ} {r : List Bool}

theorem parseByte_of_bits (hp : p.Valid) (h : p.bits = ofNat 8 u ++ r) :
    p.parseByte = (UInt8.ofNat u, p.advance 8) ∧ (p.advance 8).bits = r ∧
      (p.advance 8).Valid := by
  have hn : 8 ≤ p.bits.length := by rw [h, List.length_append, length_ofNat]; omega
  obtain ⟨hs, hr⟩ := advance_of_append h
  rw [length_ofNat] at hs hr
  refine ⟨?_, hr, hp.advance hn⟩
  rw [parseByte_eq hp hn, hs, toNat_ofNat]
  congr 1
  exact UInt8.toNat_inj.mp (by rw [UInt8.toNat_ofNat', UInt8.toNat_ofNat', Nat.mod_mod])

theorem toNat_unmarked (hu : u < 256) : (UInt8.ofNat u &&& 0x7f).toNat = u % 128 := by
  rw [UInt8.toNat_and, UInt8.toNat_ofNat', Nat.mod_eq_of_lt hu]
  exact Nat.and_two_pow_sub_one_eq_mod u 7

theorem marked_iff (hu : u < 256) : UInt8.ofNat u &&& 0x80 ≠ 0 ↔ 128 ≤ u := by
  have h : ∀ u : Fin 256, UInt8.ofNat u.val &&& 0x80 ≠ 0 ↔ 128 ≤ u.val := by decide +kernel
  exact h ⟨u, hu⟩

/-- A digit added above the digits read so far. -/
theorem toNat_or_digit {acc d : UInt64} {c : ℕ} (ha : acc.toNat < 2 ^ n)
    (hd : d.toNat = c * 2 ^ n) : (acc ||| d).toNat = acc.toNat + c * 2 ^ n := by
  have h := Nat.two_pow_add_eq_or_of_lt ha c
  rw [UInt64.toNat_or, hd, Nat.or_comm, Nat.mul_comm c, ← h, Nat.add_comm]

/-- The loop of `parse_uint` passes over the digits whatever it makes of them. -/
theorem parseUintLoop_rest {acc : UInt64} (hp : p.Valid) (hv : v < 128 ^ fuel)
    (ht : p.truncated = false) (h : p.bits = groupBits fuel v ++ r) :
    (parseUintLoop s fuel p acc n).2 = p.advance (groupBits fuel v).length := by
  induction fuel generalizing p acc v n with
  | zero => exact (advance_zero hp).symm
  | succ fuel ih =>
    rw [parseUintLoop]
    by_cases hmore : v / 128 = 0
    · rw [groupBits_last hmore] at h ⊢
      obtain ⟨hb, _, _⟩ := parseByte_of_bits hp h
      have hlast : ¬ 128 ≤ v % 128 := by omega
      simp only [hb, marked_iff (show v % 128 < 256 by omega), hlast, decide_false,
        Bool.and_false, Bool.false_eq_true, if_false, length_ofNat]
    · rw [groupBits_more hmore, List.append_assoc] at h
      obtain ⟨hb, hr, hva⟩ := parseByte_of_bits hp h
      have hmark : 128 ≤ v % 128 + 128 := by omega
      simp only [hb, marked_iff (show v % 128 + 128 < 256 by omega), hmark, decide_true, ht,
        advance_truncated, Bool.not_false, Bool.and_true, if_true]
      rw [ih hva (Nat.div_lt_of_lt_mul (by rw [← Nat.pow_succ']; exact hv)) ht hr, advance_advance,
        groupBits_more hmore, List.length_append, length_ofNat]

/-- **The loop of `parse_uint`** adds the digits of a value that stays below `2 ^ 31`. -/
theorem parseUintLoop_eq {a : UInt64} (hp : p.Valid) (hv : v < 128 ^ fuel)
    (ht : p.truncated = false) (hacc : a.toNat < 2 ^ n) (hn : n < 32) (hlim : v * 2 ^ n < 2 ^ 31)
    (h : p.bits = groupBits fuel v ++ r) :
    (parseUintLoop s fuel p a n).1.toNat = a.toNat + v * 2 ^ n := by
  induction fuel generalizing p a v n with
  | zero =>
    have hv0 : v = 0 := by rw [Nat.pow_zero] at hv; omega
    rw [hv0, Nat.zero_mul, Nat.add_zero]
    rfl
  | succ fuel ih =>
    have hdigit : v % 128 * 2 ^ n < 2 ^ 31 :=
      (Nat.mul_le_mul_right _ (Nat.mod_le _ _)).trans_lt hlim
    rw [parseUintLoop]
    by_cases hmore : v / 128 = 0
    · rw [groupBits_last hmore] at h
      obtain ⟨hb, _, _⟩ := parseByte_of_bits hp h
      have hlast : ¬ 128 ≤ v % 128 := by omega
      have hlow := toNat_unmarked (show v % 128 < 256 by omega)
      rw [Nat.mod_mod] at hlow
      have hshl := s.exact (UInt8.ofNat (v % 128) &&& 0x7f) n hn (by rw [hlow]; exact hdigit)
      have hd := toNat_or_digit hacc hshl
      rw [hlow] at hd
      simp only [hb, marked_iff (show v % 128 < 256 by omega), hlast, decide_false,
        Bool.and_false, Bool.false_eq_true, if_false]
      rw [hd, Nat.mod_eq_of_lt (show v < 128 by omega)]
    · rw [groupBits_more hmore, List.append_assoc] at h
      obtain ⟨hb, hr, hva⟩ := parseByte_of_bits hp h
      have hmark : 128 ≤ v % 128 + 128 := by omega
      have hlow := toNat_unmarked (show v % 128 + 128 < 256 by omega)
      rw [show (v % 128 + 128) % 128 = v % 128 by omega] at hlow
      have hshl := s.exact (UInt8.ofNat (v % 128 + 128) &&& 0x7f) n hn (by rw [hlow]; exact hdigit)
      have hd := toNat_or_digit hacc hshl
      rw [hlow] at hd
      simp only [hb, marked_iff (show v % 128 + 128 < 256 by omega), hmark, decide_true, ht,
        advance_truncated, Bool.not_false, Bool.and_true, if_true]
      have hstep : v / 128 * 2 ^ (n + 7) = (v - v % 128) * 2 ^ n := by
        rw [Nat.pow_add, Nat.mul_comm (2 ^ n), ← Nat.mul_assoc]
        congr 1
        omega
      have hsum : v * 2 ^ n = v % 128 * 2 ^ n + v / 128 * 2 ^ (n + 7) := by
        rw [hstep, ← Nat.add_mul]
        congr 1
        omega
      have hlim' : v / 128 * 2 ^ (n + 7) < 2 ^ 31 := by omega
      have hn' : n + 7 < 32 := by
        by_contra hge
        have hpow : (2 : ℕ) ^ 32 ≤ 2 ^ (n + 7) := Nat.pow_le_pow_right (by decide) (by omega)
        have hone : 1 * 2 ^ (n + 7) ≤ v / 128 * 2 ^ (n + 7) :=
          Nat.mul_le_mul_right _ (by omega)
        omega
      have hacc' : (a ||| s.shl (UInt8.ofNat (v % 128 + 128) &&& 0x7f) n).toNat < 2 ^ (n + 7) := by
        have hle : v % 128 * 2 ^ n ≤ 127 * 2 ^ n := Nat.mul_le_mul_right _ (by omega)
        rw [hd, Nat.pow_add]
        omega
      rw [ih hva (Nat.div_lt_of_lt_mul (by rw [← Nat.pow_succ']; exact hv)) ht hacc' hn' hlim' hr,
        hd]
      omega

/-- With `IntShift.zero` no digit reaches bit 31. -/
theorem parseUintLoop_zero_lt {acc : UInt64} (hacc : acc.toNat < 2 ^ 31) :
    (parseUintLoop IntShift.zero fuel p acc n).1.toNat < 2 ^ 31 := by
  induction fuel generalizing p acc n with
  | zero => exact hacc
  | succ fuel ih =>
    have hor : (acc ||| IntShift.zero.shl (p.parseByte.1 &&& 0x7f) n).toNat < 2 ^ 31 := by
      rw [UInt64.toNat_or]
      exact Nat.or_lt_two_pow hacc IntShift.zero_lt
    rw [parseUintLoop]
    simp only
    split_ifs
    · exact ih hor
    · exact hor

end InBits

/-- `data` holds all that has been written, and perhaps more after it. -/
structure OutBits.Held (o : OutBits) (data : List UInt8) : Prop where
  room : o.pos ≤ 8 * data.length
  bits : ∀ i < o.pos, bitAt data i = bitAt o.buffer i

/-- On every C implementation `parse_uint` gets `x` back from the bits `output_uint` wrote,
and stops behind them. -/
def OutBits.ReadsUint (o : OutBits) (x : UInt64) : Prop :=
  ∀ (s : IntShift) (data : List UInt8), (o.outputUint x).Held data →
    (InBits.openAt data o.pos).parseUint s = (x, InBits.openAt data (o.outputUint x).pos)

/-- On every C implementation `parse_integer` gets `x` back from the bits `output_integer`
wrote, and stops behind them. -/
def OutBits.ReadsInteger (o : OutBits) (x : Int64) : Prop :=
  ∀ (s : IntShift) (data : List UInt8), (o.outputInteger x).Held data →
    (InBits.openAt data o.pos).parseInteger s = (x, InBits.openAt data (o.outputInteger x).pos)

section RoundTrip
variable {o o' : OutBits} {w : List Bool} {data : List UInt8}

/-- The bits written are the next ones to read. -/
theorem OutBits.Emits.bits_openAt (h : o.Emits o' w) (hd : o'.Held data) :
    ∃ r, (InBits.openAt data o.pos).bits = w ++ r := by
  have hroom := hd.room
  rw [h.pos] at hroom
  refine ⟨slice data (o.pos + w.length) (8 * data.length - o.pos - w.length), ?_⟩
  have hw : slice data o.pos w.length = w := by
    conv_rhs => rw [← h.bits]
    refine slice_congr (fun j hj => hd.bits _ ?_)
    rw [h.pos]
    omega
  have hsplit : slice data o.pos (8 * data.length - o.pos) =
      slice data o.pos w.length ++
        slice data (o.pos + w.length) (8 * data.length - o.pos - w.length) := by
    rw [← slice_add]
    congr 1
    omega
  rw [InBits.openAt_bits, hsplit, hw]

theorem OutBits.held_buffer (ho : o.Fits) : o.Held o.buffer := ⟨ho, fun _ _ => rfl⟩

theorem InBits.parseUint_rest {s : IntShift} {p : InBits} {x : UInt64} {r : List Bool}
    (hp : p.Valid) (ht : p.truncated = false) (h : p.bits = groupBits 10 x.toNat ++ r) :
    (p.parseUint s).2 = p.advance (groupBits 10 x.toNat).length :=
  parseUintLoop_rest hp (OutBits.toNat_lt_groups x) ht h

theorem InBits.parseUint_of_bits {s : IntShift} {p : InBits} {x : UInt64} {r : List Bool}
    (hp : p.Valid) (ht : p.truncated = false) (hx : x.toNat < 2 ^ 31)
    (h : p.bits = groupBits 10 x.toNat ++ r) :
    p.parseUint s = (x, p.advance (groupBits 10 x.toNat).length) := by
  have hv := parseUintLoop_eq (s := s) (a := 0) (n := 0) hp (OutBits.toNat_lt_groups x) ht
    (by decide) (by decide) (by omega) h
  refine Prod.ext (UInt64.toNat_inj.mp ?_) (parseUint_rest hp ht h)
  rw [parseUint, hv, Nat.pow_zero, Nat.mul_one]
  exact Nat.zero_add _

theorem toInt_toInt64 {v : UInt64} (hv : v.toNat < 2 ^ 31) : v.toInt64.toInt = v.toNat := by
  conv_lhs => rw [← UInt64.ofNat_toNat (x := v)]
  rw [UInt64.toInt64_ofNat', Int64.toInt_ofNat_of_lt (hv.trans (by decide))]

theorem toInt_neg_toInt64 {v : UInt64} (hv : v.toNat < 2 ^ 31) :
    (-v.toInt64).toInt = -v.toNat := by
  conv_lhs => rw [← UInt64.ofNat_toNat (x := v)]
  rw [UInt64.toInt64_ofNat', Int64.toInt_neg_ofNat_of_le (hv.le.trans (by decide))]

theorem magnitude_lt {x : Int64} (hl : -2 ^ 31 < x.toInt) (hu : x.toInt < 2 ^ 31) :
    (OutBits.magnitude x).toNat < 2 ^ 31 := by
  have hz : (0 : Int64).toInt = 0 := rfl
  rw [OutBits.magnitude]
  split_ifs with hx
  · rw [Int64.lt_iff_toInt_lt, hz] at hx
    have hn : (-x).toInt = -x.toInt := by
      rw [Int64.toInt_neg]
      exact Int.bmod_eq_of_le (by omega) (by omega)
    have hpos : 0 ≤ -x := by rw [Int64.le_iff_toInt_le, hz, hn]; omega
    rw [Int64.toNat_toUInt64_of_le hpos, Int64.toNatClampNeg, hn]
    omega
  · rw [Int64.lt_iff_toInt_lt, hz] at hx
    have hpos : 0 ≤ x := by rw [Int64.le_iff_toInt_le, hz]; omega
    rw [Int64.toNat_toUInt64_of_le hpos, Int64.toNatClampNeg]
    omega

theorem InBits.parseInteger_of_bits {s : IntShift} {p : InBits} {x : Int64} {r : List Bool}
    (hp : p.Valid) (ht : p.truncated = false) (hl : -2 ^ 31 < x.toInt) (hu : x.toInt < 2 ^ 31)
    (h : p.bits = OutBits.integerBits x ++ r) :
    p.parseInteger s = (x, p.advance (OutBits.integerBits x).length) := by
  rw [OutBits.integerBits, List.append_assoc] at h
  have hn : 1 ≤ p.bits.length := by rw [h, List.length_append, length_ofNat]; omega
  obtain ⟨hs, hr⟩ := advance_of_append h
  rw [length_ofNat] at hs hr
  have hq := parseUint_of_bits (s := s) (hp.advance hn) ht (magnitude_lt hl hu) hr
  have hsign : toNat (ofNat 1 (decide (x < 0)).toNat) ≠ 0 ↔ x < 0 := by
    by_cases hx : x < 0 <;> simp [hx, Bits.toNat]
  rw [parseInteger, parseBit_eq hp hn, hs]
  simp only [hq, advance_truncated, ht, Bool.false_eq_true, if_false, hsign, advance_advance,
    OutBits.integerBits, List.length_append, length_ofNat]
  congr 1
  rw [OutBits.magnitude, Int64.toInt64_toUInt64]
  split_ifs
  · exact Int64.neg_neg
  · rfl

theorem readsUint_iff {x : UInt64} (ho : o.Clear) (hf : (o.outputUint x).Fits) :
    o.ReadsUint x ↔ x.toNat < 2 ^ 31 := by
  have he := OutBits.outputUint_emits ho (OutBits.outputUint_fits.mp hf)
  constructor
  · intro h
    have hx := congrArg (fun r => r.1.toNat) (h IntShift.zero _ (OutBits.held_buffer hf))
    rw [← hx]
    exact InBits.parseUintLoop_zero_lt (by decide)
  · intro hx s data hd
    obtain ⟨r, hr⟩ := he.bits_openAt hd
    have hv : (InBits.openAt data o.pos).Valid :=
      InBits.openAt_valid (by have hroom := hd.room; rw [he.pos] at hroom; omega)
    rw [InBits.parseUint_of_bits hv rfl hx hr, InBits.openAt_advance, he.pos]

theorem readsInteger_iff {x : Int64} (ho : o.Clear) (hf : (o.outputInteger x).Fits) :
    o.ReadsInteger x ↔ -2 ^ 31 < x.toInt ∧ x.toInt < 2 ^ 31 := by
  have he := OutBits.outputInteger_emits ho (OutBits.outputInteger_fits.mp hf)
  constructor
  · intro h
    have hx := congrArg (fun r => r.1.toInt) (h IntShift.zero _ (OutBits.held_buffer hf))
    have hlt : ∀ p : InBits, (p.parseUint IntShift.zero).1.toNat < 2 ^ 31 := fun p =>
      InBits.parseUintLoop_zero_lt (by decide)
    rw [← hx, InBits.parseInteger]
    simp only
    split_ifs
    · rw [toInt_neg_toInt64 (hlt _)]
      have hb := hlt (InBits.openAt (o.outputInteger x).buffer o.pos).parseBit.2
      omega
    · rw [toInt_toInt64 (hlt _)]
      have hb := hlt (InBits.openAt (o.outputInteger x).buffer o.pos).parseBit.2
      omega
  · rintro ⟨hl, hu⟩ s data hd
    obtain ⟨r, hr⟩ := he.bits_openAt hd
    have hv : (InBits.openAt data o.pos).Valid :=
      InBits.openAt_valid (by have hroom := hd.room; rw [he.pos] at hroom; omega)
    rw [InBits.parseInteger_of_bits hv rfl hl hu hr, InBits.openAt_advance, he.pos]

end RoundTrip

/-- **An integer comes back exactly when it stays within 31 bits.**  Wherever the writer
stands, with room for what it writes. -/
theorem integer_round_trip (o : OutBits) (ho : o.Clear) :
    (∀ x, (o.outputUint x).Fits → (o.ReadsUint x ↔ x.toNat < 2 ^ 31)) ∧
      ∀ x, (o.outputInteger x).Fits →
        (o.ReadsInteger x ↔ -2 ^ 31 < x.toInt ∧ x.toInt < 2 ^ 31) :=
  ⟨fun _ hf => readsUint_iff ho hf, fun _ hf => readsInteger_iff ho hf⟩

/-- An empty buffer of twelve bytes, the cursor at bit `bit` of the first. -/
def OutBits.blank (bit : ℕ) : OutBits := ⟨List.replicate 12 0, 0, bit⟩

theorem OutBits.blank_clear {bit : ℕ} (hb : bit < 8) : (blank bit).Clear := by
  refine ⟨hb, fun i _ => ?_⟩
  have hz : (List.replicate 12 (0 : UInt8)).getD (i / 8) 0 = 0 := by
    rw [List.getD_eq_getElem?_getD, List.getElem?_replicate]
    split_ifs <;> rfl
  rw [bitAt, blank, hz]
  exact Nat.zero_testBit _

/-- At bit 3 of the first byte, 300 and -300 come back. -/
theorem integer_round_trip_three :
    ((OutBits.blank 3).ReadsUint 300 ↔ (300 : UInt64).toNat < 2 ^ 31) ∧
      ((OutBits.blank 3).ReadsInteger (-300) ↔
        -2 ^ 31 < (-300 : Int64).toInt ∧ (-300 : Int64).toInt < 2 ^ 31) :=
  have h := integer_round_trip (OutBits.blank 3) (OutBits.blank_clear (by decide))
  ⟨h.1 300 (by unfold OutBits.Fits; decide), h.2 (-300) (by unfold OutBits.Fits; decide)⟩

/-- An SFDI of 32 bits is read as another number on x86-64. -/
theorem not_integer_round_trip :
    (OutBits.blank 0).Clear ∧ ((OutBits.blank 0).outputUint 0x80000000).Fits ∧
      ((InBits.openAt ((OutBits.blank 0).outputUint 0x80000000).buffer 0).parseUint
        IntShift.x86).1 = 0xffffffff80000000 ∧
      ¬ (OutBits.blank 0).ReadsUint 0x80000000 := by
  have hread : ((InBits.openAt ((OutBits.blank 0).outputUint 0x80000000).buffer 0).parseUint
      IntShift.x86).1 = 0xffffffff80000000 := by decide
  have hf : ((OutBits.blank 0).outputUint 0x80000000).Fits := by unfold OutBits.Fits; decide
  refine ⟨OutBits.blank_clear (by decide), hf, hread, fun h => ?_⟩
  have hx := congrArg Prod.fst (h IntShift.x86 _ (OutBits.held_buffer hf))
  exact absurd (hread.symm.trans hx) (by decide)

end SeClient
