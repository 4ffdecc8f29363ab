import Mathlib.Data.List.GetD
import Mathlib.Tactic.IntervalCases
import SeClient.Runs

/-!
# Control modes

The mask `block_supersede` compares is the word of flags of a DERControlBase (`se_types.h`), which
holds more than the control modes: the values of the boolean ones, and whether there is a rampTms.
-/

namespace SeClient

/-- The control modes of a DERControlBase. -/
inductive ControlMode
  | opModWattVar | opModWattPF | opModVoltWatt | opModVoltVar | opModTargetW | opModTargetVar
  | opModMaxLimW | opModLVRTMustTrip | opModLVRTMomentaryCessation | opModLFRTMustTrip
  | opModHVRTMustTrip | opModHVRTMomentaryCessation | opModHFRTMustTrip | opModFreqWatt
  | opModFreqDroop | opModFixedW | opModFixedVar | opModFixedPF | opModEnergize | opModConnect
deriving DecidableEq, Repr

/-- The optional elements of a DERControlBase, with the values of the boolean ones. -/
structure DERControlBase where
  has : ControlMode → Bool := fun _ => false
  rampTms : Bool := false
  opModEnergize : Bool := false
  opModConnect : Bool := false

namespace DERControlBase
variable (x y : DERControlBase)

/-- The flags of `SE_DERControlBase_t`, from bit 0 on.  The value of a boolean element is in front
of the flag that it exists. -/
def bits : List Bool :=
  [x.rampTms, x.has .opModWattVar, x.has .opModWattPF, x.has .opModVoltWatt, x.has .opModVoltVar,
    x.has .opModTargetW, x.has .opModTargetVar, x.has .opModMaxLimW, x.has .opModLVRTMustTrip,
    x.has .opModLVRTMomentaryCessation, x.has .opModLFRTMustTrip, x.has .opModHVRTMustTrip,
    x.has .opModHVRTMomentaryCessation, x.has .opModHFRTMustTrip, x.has .opModFreqWatt,
    x.has .opModFreqDroop, x.has .opModFixedW, x.has .opModFixedVar, x.has .opModFixedPF,
    x.has .opModEnergize && x.opModEnergize, x.has .opModEnergize,
    x.has .opModConnect && x.opModConnect, x.has .opModConnect]

/-- `_flags` -/
def flags : BitVec 32 := (BitVec.ofBoolListLE x.bits).setWidth 32

/-- What `x` has besides control modes is all that `y` has. -/
structure Includes : Prop where
  rampTms : y.rampTms = true → x.rampTms = true
  energize : y.has .opModEnergize = true → y.opModEnergize = true → x.opModEnergize = true
  connect : y.has .opModConnect = true → y.opModConnect = true → x.opModConnect = true

end DERControlBase

/-- The bits of a control mode: that it exists, and its value if it is a boolean. -/
def ControlMode.bits : ControlMode → List ℕ
  | opModWattVar => [1]
  | opModWattPF => [2]
  | opModVoltWatt => [3]
  | opModVoltVar => [4]
  | opModTargetW => [5]
  | opModTargetVar => [6]
  | opModMaxLimW => [7]
  | opModLVRTMustTrip => [8]
  | opModLVRTMomentaryCessation => [9]
  | opModLFRTMustTrip => [10]
  | opModHVRTMustTrip => [11]
  | opModHVRTMomentaryCessation => [12]
  | opModHFRTMustTrip => [13]
  | opModFreqWatt => [14]
  | opModFreqDroop => [15]
  | opModFixedW => [16]
  | opModFixedVar => [17]
  | opModFixedPF => [18]
  | opModEnergize => [19, 20]
  | opModConnect => [21, 22]

namespace Core
variable (c : Core) (a b : BlockId)

/-- The priority `block_supersede` compares. -/
def Outranks : Prop :=
  ((c.block a).primacy = (c.block b).primacy ∧
      (c.data (c.block a).event).creationTime > (c.data (c.block b).event).creationTime) ∨
    (c.block a).primacy < (c.block b).primacy

instance : Decidable (c.Outranks a b) := by unfold Outranks; infer_instance

/-- The mask of a block is from `der_base`, for an event with this DERControlBase. -/
structure BasedOn (x : DERControlBase) : Prop where
  type : c.type (c.block a).event = SeType.derControl
  der : (c.block a).der = c.derBase (c.block a).event
  base : c.derBase (c.block a).event = x.flags

/-- **Superseding by control mode**: a block that has priority and the control modes of another one
supersedes it and takes all of them, and no block loses or gets what is of a control mode that only
one of them has. -/
structure SupersedesByMode (x y : DERControlBase) : Prop where
  covered : c.Outranks a b → (∀ m, y.has m = true → x.has m = true) →
    (c.blockSupersede a b).2 = true ∧
      ∀ m : ControlMode, ∀ i ∈ m.bits, ((c.blockSupersede a b).1.block b).der.getLsbD i = false
  kept : ∀ m : ControlMode, x.has m ≠ y.has m → ∀ i ∈ m.bits,
    ((c.blockSupersede a b).1.block a).der.getLsbD i = (c.block a).der.getLsbD i ∧
      ((c.blockSupersede a b).1.block b).der.getLsbD i = (c.block b).der.getLsbD i

end Core

namespace DERControlBase
variable {x y : DERControlBase} {m : ControlMode} {i : ℕ}

/-! ## Bits -/

theorem flags_bit : x.flags.getLsbD i = x.bits.getD i false := by
  unfold flags
  rw [BitVec.getLsbD_setWidth, BitVec.getLsbD_ofBoolListLE]
  by_cases h : i < 32
  · rw [decide_eq_true h, Bool.true_and]
  · have hlength : x.bits.length ≤ i := Nat.le_trans (by simp [bits]) (Nat.le_of_not_lt h)
    rw [decide_eq_false h, Bool.false_and, List.getD_eq_default _ _ hlength]

/-- A bit of a control mode is set for those who have the mode. -/
theorem has_of_bit (hi : i ∈ m.bits) (h : x.flags.getLsbD i = true) : x.has m = true := by
  rw [flags_bit] at h
  cases m <;> simp only [ControlMode.bits, List.mem_cons, List.not_mem_nil, or_false] at hi
  case opModEnergize =>
    rcases hi with rfl | rfl
    · exact (Bool.and_eq_true_iff.mp h).1
    · exact h
  case opModConnect =>
    rcases hi with rfl | rfl
    · exact (Bool.and_eq_true_iff.mp h).1
    · exact h
  all_goals
    subst hi
    exact h

theorem exists_bit (x : DERControlBase) (m : ControlMode) :
    ∃ i ∈ m.bits, x.flags.getLsbD i = x.has m := by
  cases m
  case opModEnergize => exact ⟨20, by decide, flags_bit⟩
  case opModConnect => exact ⟨22, by decide, flags_bit⟩
  all_goals exact ⟨_, List.mem_cons_self, flags_bit⟩

/-- Who has the flags of another one has its control modes and what it has besides them. -/
theorem bits_le_iff : (∀ i, y.flags.getLsbD i = true → x.flags.getLsbD i = true) ↔
    (∀ m, y.has m = true → x.has m = true) ∧ x.Includes y := by
  constructor
  · rintro h
    have hmode : ∀ m, y.has m = true → x.has m = true := by
      rintro m hm
      obtain ⟨i, hi, hbit⟩ := exists_bit y m
      exact has_of_bit hi (h i (hbit.trans hm))
    refine ⟨hmode, ?_, ?_, ?_⟩
    · exact fun hy => flags_bit.symm.trans (h 0 (flags_bit.trans hy))
    · rintro he hy
      have hbit := h 19 (flags_bit.trans (Bool.and_eq_true_iff.mpr ⟨he, hy⟩))
      exact (Bool.and_eq_true_iff.mp (flags_bit.symm.trans hbit)).2
    · rintro he hy
      have hbit := h 21 (flags_bit.trans (Bool.and_eq_true_iff.mpr ⟨he, hy⟩))
      exact (Bool.and_eq_true_iff.mp (flags_bit.symm.trans hbit)).2
  · rintro ⟨hmode, hincludes⟩ i h
    rw [flags_bit] at h ⊢
    have hi : i < y.bits.length := by
      by_contra hle
      rw [List.getD_eq_default _ _ (Nat.le_of_not_lt hle)] at h
      exact absurd h Bool.false_ne_true
    change i < 23 at hi
    interval_cases i
    case «0» => exact hincludes.rampTms h
    case «19» =>
      obtain ⟨he, hy⟩ := Bool.and_eq_true_iff.mp h
      exact Bool.and_eq_true_iff.mpr ⟨hmode _ he, hincludes.energize he hy⟩
    case «21» =>
      obtain ⟨he, hy⟩ := Bool.and_eq_true_iff.mp h
      exact Bool.and_eq_true_iff.mpr ⟨hmode _ he, hincludes.connect he hy⟩
    all_goals exact hmode _ h

end DERControlBase

section Masks
variable {x y : BitVec 32}

/-- What is trimmed is zero if all of it is in the other mask. -/
theorem trimmed_zero_iff : y &&& ~~~x = 0 ↔ ∀ i, y.getLsbD i = true → x.getLsbD i = true := by
  constructor
  · rintro h i hy
    have hi : i < 32 := BitVec.lt_of_getLsbD hy
    have hbit := congrArg (fun z => z.getLsbD i) h
    simpa [hy, hi] using hbit
  · rintro h
    refine BitVec.eq_of_getLsbD_eq fun i hi => ?_
    have hbit := h i
    cases hy : y.getLsbD i with
    | false => simp [hy]
    | true => simp [hy, hbit hy]

/-- A bit is trimmed if it is in both masks. -/
theorem trimmed_bit {i : ℕ} (h : y.getLsbD i = true → x.getLsbD i = false) :
    (y &&& ~~~x).getLsbD i = y.getLsbD i := by
  rw [BitVec.getLsbD_and, BitVec.getLsbD_not]
  cases hy : y.getLsbD i with
  | false => rfl
  | true => rw [h hy, decide_eq_true (BitVec.lt_of_getLsbD hy)]; rfl

end Masks

namespace Core
variable {c : Core} {a b : BlockId} {x y : DERControlBase}

/-! ## `block_supersede` -/

/-- A block that has priority and some mode takes its modes from the other one. -/
theorem blockSupersede_outranks (h : c.Outranks a b) (ha : (c.block a).der ≠ 0) :
    c.blockSupersede a b =
      (c.modifyBlock b fun e => { e with der := e.der &&& ~~~(c.block a).der },
        decide ((c.block b).der &&& ~~~(c.block a).der = 0)) := by
  unfold Outranks at h
  unfold blockSupersede
  dsimp only
  rw [if_pos h, if_pos ha, modifyBlock_same]

theorem blockSupersede_plain (h : c.Outranks a b) (ha : (c.block a).der = 0) :
    c.blockSupersede a b = (c, true) := by
  unfold Outranks at h
  unfold blockSupersede
  dsimp only
  rw [if_pos h, if_neg (not_not_intro ha)]

/-- A block without priority leaves its modes to the other one. -/
theorem blockSupersede_outranked (h : ¬c.Outranks a b) :
    c.blockSupersede a b =
      (c.modifyBlock a fun e => { e with der := e.der &&& ~~~(c.block b).der }, false) := by
  unfold Outranks at h
  unfold blockSupersede
  dsimp only
  rw [if_neg h]

/-- What is of a control mode that only one of the blocks has, stays with it. -/
theorem blockSupersede_kept (hne : a ≠ b) (ha : (c.block a).der = x.flags)
    (hb : (c.block b).der = y.flags) {m : ControlMode} (hm : x.has m ≠ y.has m) {i : ℕ}
    (hi : i ∈ m.bits) :
    ((c.blockSupersede a b).1.block a).der.getLsbD i = (c.block a).der.getLsbD i ∧
      ((c.blockSupersede a b).1.block b).der.getLsbD i = (c.block b).der.getLsbD i := by
  have hclash : x.flags.getLsbD i = true → ¬y.flags.getLsbD i = true := fun hx hy =>
    hm ((DERControlBase.has_of_bit hi hx).trans (DERControlBase.has_of_bit hi hy).symm)
  by_cases hrank : c.Outranks a b
  · by_cases hzero : (c.block a).der = 0
    · rw [blockSupersede_plain hrank hzero]
      exact ⟨rfl, rfl⟩
    · rw [blockSupersede_outranks hrank hzero]
      dsimp only
      rw [modifyBlock_of_ne _ _ hne, modifyBlock_same]
      refine ⟨rfl, ?_⟩
      dsimp only
      rw [ha, hb]
      exact trimmed_bit fun hy => Bool.eq_false_iff.mpr fun hx => hclash hx hy
  · rw [blockSupersede_outranked hrank]
    dsimp only
    rw [modifyBlock_same, modifyBlock_of_ne _ _ hne.symm]
    refine ⟨?_, rfl⟩
    dsimp only
    rw [ha, hb]
    exact trimmed_bit fun hx => Bool.eq_false_iff.mpr fun hy => hclash hx hy

/-- **Superseding is by control mode** exactly where the block that has priority and all the control
modes has also a rampTms if the other one has, and a boolean mode is true if that of the other one
is, or where it has nothing at all. -/
theorem supersedesByMode_iff (hne : a ≠ b) (ha : c.BasedOn a x) (hb : c.BasedOn b y) :
    c.SupersedesByMode a b x y ↔
      (c.Outranks a b → (∀ m, y.has m = true → x.has m = true) → x.flags = 0 ∨ x.Includes y) := by
  have hx := ha.der.trans ha.base
  have hy := hb.der.trans hb.base
  constructor
  · rintro h hrank hmodes
    by_cases hzero : x.flags = 0
    · exact Or.inl hzero
    · have hres := (h.covered hrank hmodes).1
      rw [blockSupersede_outranks hrank (hx ▸ hzero), hx, hy] at hres
      have hbits := trimmed_zero_iff.mp (of_decide_eq_true hres)
      exact Or.inr (DERControlBase.bits_le_iff.mp hbits).2
  · rintro h
    refine ⟨fun hrank hmodes => ?_, fun m hm i hi => blockSupersede_kept hne hx hy hm hi⟩
    by_cases hzero : x.flags = 0
    · rw [blockSupersede_plain hrank (hx.trans hzero)]
      refine ⟨rfl, fun m i hi => Bool.eq_false_iff.mpr fun hbit => ?_⟩
      -- a mode of the other block is one of the first, whose flags are zero
      have hhas := hmodes m (DERControlBase.has_of_bit hi (hy ▸ hbit))
      obtain ⟨j, hj, hflag⟩ := DERControlBase.exists_bit x m
      rw [hzero, hhas] at hflag
      exact absurd (hflag.symm.trans BitVec.getLsbD_zero) Bool.true_eq_false.mp
    · have hincludes := (h hrank hmodes).resolve_left hzero
      have htrim : y.flags &&& ~~~x.flags = 0 :=
        trimmed_zero_iff.mpr (DERControlBase.bits_le_iff.mpr ⟨hmodes, hincludes⟩)
      rw [blockSupersede_outranks hrank (hx ▸ hzero), hx, hy]
      refine ⟨decide_eq_true htrim, fun m i hi => ?_⟩
      dsimp only
      rw [modifyBlock_same]
      dsimp only
      rw [hy, htrim]
      exact BitVec.getLsbD_zero

end Core

/-! ## Connecting and disconnecting -/

/-- A DERControlBase that connects, or disconnects. -/
def DERControlBase.switch (connect : Bool) : DERControlBase where
  has m := m = .opModConnect
  opModConnect := connect

/-- The blocks of two controls that switch: the second control is the newer one. -/
def switches (older newer : Bool) : Core :=
  let base := fun e => (DERControlBase.switch (if e = 1 then older else newer)).flags
  let w := World.boot (fun e =>
    { Stub.control e .active 100 100 with
      data := (Stub.control e .active 100 100).data.map fun d =>
        { d with creationTime := e, controlFlags := base e } }) 150
  { w.core with block := fun b => { event := b, der := base b } }

theorem switches_based (older newer : Bool) (b : BlockId) : (switches older newer).BasedOn b
    (DERControlBase.switch (if b = 1 then older else newer)) := ⟨rfl, rfl, rfl⟩

/-- A newer control that connects supersedes an older one. -/
theorem supersedesByMode_connect : (switches false true).SupersedesByMode 2 1
    (DERControlBase.switch true) (DERControlBase.switch false) :=
  (Core.supersedesByMode_iff (by decide) (switches_based false true 2)
    (switches_based false true 1)).mpr fun _ _ => Or.inr
      ⟨id, fun h _ => absurd h (by decide), fun _ _ => rfl⟩

/-- A newer control that disconnects does not supersede one that connects. -/
theorem not_supersedesByMode : ¬(switches true false).SupersedesByMode 2 1
    (DERControlBase.switch false) (DERControlBase.switch true) := by
  intro h
  have hres := (h.covered (by decide) fun _ => id).1
  exact absurd hres (by decide)

end SeClient
