import Mathlib.Data.Int.Notation
import Mathlib.Data.List.Basic
import Mathlib.Data.List.Induction
import Mathlib.Logic.Function.Basic

/-!
# The gateway bridge

`gateway/bridge.py`: `DERBridge` turns the events of the client into writes of the registers of
a device.  It keeps the registers written since the last event that ended, whatever event they
were written for.
-/

namespace SeClient

/-- `RegisterMap` -/
structure RegisterMap where
  activePower : ℤ := 40100
  reactivePower : ℤ := 40101
  maxPowerLimit : ℤ := 40102
  rampTime : ℤ := 40103
  connect : ℤ := 40104
  energize : ℤ := 40105
deriving DecidableEq, Repr

/-- The `control` of an event: the keys that are in it. -/
structure Control where
  opModFixedW : Option ℤ := none
  opModTargetW : Option ℤ := none
  opModMaxLimW : Option ℤ := none
  opModFixedVar : Option ℤ := none
  opModTargetVar : Option ℤ := none
  rampTms : Option ℤ := none
  opModConnect : Option Bool := none
  opModEnergize : Option Bool := none
deriving DecidableEq, Repr

/-- An event by its `type`. -/
inductive BridgeEvent
  | start (mrid : String) (control : Control)
  | ended (mrid : String)
  | defaultControl (control : Control)
  | unhandled
deriving DecidableEq, Repr

/-- `DERBridge`, with the registers of the device behind `protocol`. -/
structure DERBridge where
  device : ℤ → ℤ
  activeRegisters : List (ℤ × ℤ) := []

/-- `d[key] = value` of a dictionary. -/
def setItem (key value : ℤ) (d : List (ℤ × ℤ)) : List (ℤ × ℤ) :=
  if key ∈ d.map Prod.fst then d.map fun x => if x.1 = key then (key, value) else x
  else d ++ [(key, value)]

/-- The writes of `_apply_control`, in its order. -/
def Control.writes (c : Control) (reg : RegisterMap) : List (ℤ × ℤ) :=
  (c.opModFixedW.map fun v => (reg.activePower, v)).toList ++
  (c.opModTargetW.map fun v => (reg.activePower, v)).toList ++
  (c.opModMaxLimW.map fun v => (reg.maxPowerLimit, v)).toList ++
  (c.opModFixedVar.map fun v => (reg.reactivePower, v)).toList ++
  (c.opModTargetVar.map fun v => (reg.reactivePower, v)).toList ++
  (c.rampTms.map fun v => (reg.rampTime, v)).toList ++
  (c.opModConnect.map fun v => (reg.connect, if v then 1 else 0)).toList ++
  (c.opModEnergize.map fun v => (reg.energize, if v then 1 else 0)).toList

namespace DERBridge
variable (reg : RegisterMap)

/-- `write_register` -/
def writeRegister (b : DERBridge) (address value : ℤ) : DERBridge :=
  { b with device := Function.update b.device address value }

/-- `_write` -/
def write (b : DERBridge) (x : ℤ × ℤ) : DERBridge :=
  let b := b.writeRegister x.1 x.2
  { b with activeRegisters := setItem x.1 x.2 b.activeRegisters }

/-- `_apply_control` -/
def applyControl (b : DERBridge) (c : Control) : DERBridge := (c.writes reg).foldl write b

/-- `_relinquish` -/
def relinquish (b : DERBridge) : DERBridge :=
  if b.activeRegisters = [] then b
  else
    let b := b.activeRegisters.foldl (fun b x => b.writeRegister x.1 0) b
    { b with activeRegisters := [] }

/-- `apply` -/
def apply (b : DERBridge) : BridgeEvent → DERBridge
  | .start _ control => b.applyControl reg control
  | .ended _ => b.relinquish
  | .defaultControl control => { b with activeRegisters := [] }.applyControl reg control
  | .unhandled => b

end DERBridge

/-! ## The events that are active -/

/-- The events started and not ended, the most recent one last, and all that were started. -/
structure Started where
  live : List (String × Control) := []
  mrids : List String := []
deriving DecidableEq, Repr

namespace Started
variable (reg : RegisterMap)

def note (s : Started) : BridgeEvent → Started
  | .start mrid control => ⟨s.live ++ [(mrid, control)], s.mrids ++ [mrid]⟩
  | .ended mrid => { s with live := s.live.filter fun x => x.1 ≠ mrid }
  | .defaultControl _ => s
  | .unhandled => s

/-- The event can come now: an event starts once and ends once, after its start, and a default
control comes when no event is active. -/
def Allows (s : Started) : BridgeEvent → Prop
  | .start mrid _ => mrid ∉ s.mrids
  | .ended mrid => mrid ∈ s.live.map Prod.fst
  | .defaultControl _ => s.live = []
  | .unhandled => True

instance (s : Started) : DecidablePred s.Allows := fun e => by
  cases e <;> unfold Allows <;> infer_instance

def after (es : List BridgeEvent) : Started := es.foldl note {}

end Started

/-- The value a control sets a register to, if it sets it. -/
def Control.sets (c : Control) (reg : RegisterMap) (r : ℤ) : Option ℤ :=
  (c.writes reg).reverse.lookup r

/-- The value of a register by the most recently started of the events that set it. -/
def Started.governs (s : Started) (reg : RegisterMap) (r : ℤ) : Option ℤ :=
  s.live.reverse.findSome? fun x => x.2.sets reg r

/-- Every register that an active event sets holds the value of the last of them. -/
def Governed (reg : RegisterMap) (b : DERBridge) (s : Started) : Prop :=
  ∀ r v, s.governs reg r = some v → b.device r = v

/-- An order of events that the client can deliver. -/
def Started.Orderly : Started → List BridgeEvent → Prop
  | _, [] => True
  | s, e :: es => s.Allows e ∧ (s.note e).Orderly es

instance Started.decidableOrderly : ∀ (s : Started) (es : List BridgeEvent),
    Decidable (s.Orderly es)
  | _, [] => isTrue trivial
  | s, e :: es =>
    have := decidableOrderly (s.note e) es
    inferInstanceAs (Decidable (s.Allows e ∧ (s.note e).Orderly es))

section Lemmas
variable {reg : RegisterMap} {b : DERBridge} {s : Started} {c : Control} {r v : ℤ}

theorem mem_setItem {key value : ℤ} {d : List (ℤ × ℤ)} :
    r ∈ (setItem key value d).map Prod.fst ↔ r = key ∨ r ∈ d.map Prod.fst := by
  unfold setItem
  split
  · rename_i hkey
    have hmap : (d.map fun x => if x.1 = key then (key, value) else x).map Prod.fst =
        d.map Prod.fst := by
      rw [List.map_map]
      refine List.map_congr_left fun x _ => ?_
      by_cases hx : x.1 = key
      · simp [hx]
      · simp [hx]
    rw [hmap]
    exact ⟨.inr, fun h => h.elim (fun h => h ▸ hkey) id⟩
  · simp [or_comm]

/-- A row of writes leaves the last value written. -/
theorem foldl_write (l : List (ℤ × ℤ)) :
    (l.foldl DERBridge.write b).device r = (l.reverse.lookup r).getD (b.device r) ∧
      (r ∈ (l.foldl DERBridge.write b).activeRegisters.map Prod.fst ↔
        (l.reverse.lookup r).isSome ∨ r ∈ b.activeRegisters.map Prod.fst) := by
  induction l using List.reverseRecOn with
  | nil => exact ⟨rfl, by simp⟩
  | append_singleton l x ih =>
    obtain ⟨hdev, hact⟩ := ih
    obtain ⟨key, value⟩ := x
    rw [List.foldl_append, List.reverse_append]
    simp only [List.foldl_cons, List.foldl_nil, List.reverse_cons, List.reverse_nil,
      List.nil_append, List.cons_append, List.lookup_cons, DERBridge.write,
      DERBridge.writeRegister, mem_setItem, Function.update_apply]
    by_cases hr : r = key
    · simp [hr]
    · simp only [hr, if_false, beq_eq_false_iff_ne.2 hr, false_or]
      exact ⟨hdev, hact⟩

theorem applyControl_device :
    (b.applyControl reg c).device r = (c.sets reg r).getD (b.device r) := (foldl_write _).1

theorem applyControl_active : r ∈ (b.applyControl reg c).activeRegisters.map Prod.fst ↔
    (c.sets reg r).isSome ∨ r ∈ b.activeRegisters.map Prod.fst := (foldl_write _).2

theorem foldl_clear (l : List (ℤ × ℤ)) :
    (l.foldl (fun b x => b.writeRegister x.1 0) b).device r =
      if r ∈ l.map Prod.fst then 0 else b.device r := by
  induction l generalizing b with
  | nil => rfl
  | cons x l ih =>
    rw [List.foldl_cons, ih, List.map_cons]
    by_cases hl : r ∈ l.map Prod.fst
    · rw [if_pos hl, if_pos (List.mem_cons_of_mem _ hl)]
    · by_cases hx : r = x.1
      · simp [hx, DERBridge.writeRegister]
      · simp [hl, hx, DERBridge.writeRegister]

theorem relinquish_device : b.relinquish.device r =
    if r ∈ b.activeRegisters.map Prod.fst then 0 else b.device r := by
  unfold DERBridge.relinquish
  split
  · rename_i h
    simp [h]
  · exact foldl_clear _

theorem governs_start {mrid : String} :
    (s.note (.start mrid c)).governs reg r = (c.sets reg r).or (s.governs reg r) := by
  simp only [Started.governs, Started.note, List.reverse_append, List.reverse_cons,
    List.reverse_nil, List.nil_append, List.cons_append, List.findSome?_cons]
  cases c.sets reg r <;> rfl

theorem governs_of_filter {mrid : String}
    (h : (s.note (.ended mrid)).governs reg r = some v) : ∃ v, s.governs reg r = some v := by
  obtain ⟨x, hx, hv⟩ := List.exists_of_findSome?_eq_some h
  rw [← Option.isSome_iff_exists, Started.governs, List.findSome?_isSome_iff]
  have hmem : x ∈ s.live := List.mem_of_mem_filter (List.mem_reverse.1 hx)
  exact ⟨x, List.mem_reverse.2 hmem, by rw [hv]; rfl⟩

theorem governs_nil (h : s.live = []) : s.governs reg r = none := by
  simp [Started.governs, h]

/-- A register that an active event sets is among those the bridge keeps, or was cleared. -/
def Tracked (reg : RegisterMap) (b : DERBridge) (s : Started) : Prop :=
  ∀ r v, s.governs reg r = some v → r ∈ b.activeRegisters.map Prod.fst ∨ b.device r = 0

theorem Tracked.apply {e : BridgeEvent} (h : Tracked reg b s) (ha : s.Allows e) :
    Tracked reg (b.apply reg e) (s.note e) := by
  intro r v hv
  cases e with
  | start mrid c =>
    rw [governs_start] at hv
    unfold DERBridge.apply
    rw [applyControl_active, applyControl_device]
    cases hc : c.sets reg r with
    | some u => exact .inl (.inl rfl)
    | none =>
      rw [hc, Option.none_or] at hv
      exact (h r v hv).imp .inr id
  | ended mrid =>
    obtain ⟨u, hu⟩ := governs_of_filter hv
    refine .inr ?_
    unfold DERBridge.apply
    rw [relinquish_device]
    split
    · rfl
    · rename_i hact
      exact (h r u hu).resolve_left hact
  | defaultControl c =>
    have hlive : s.live = [] := ha
    rw [show s.note (.defaultControl c) = s from rfl, governs_nil hlive] at hv
    exact absurd hv (by simp)
  | unhandled => exact h r v hv

/-- When an event ends, the registers of the others are cleared. -/
theorem Tracked.ended {mrid : String} (h : Tracked reg b s)
    (hv : (s.note (.ended mrid)).governs reg r = some v) :
    (b.apply reg (.ended mrid)).device r = 0 := by
  obtain ⟨u, hu⟩ := governs_of_filter hv
  unfold DERBridge.apply
  rw [relinquish_device]
  split
  · rfl
  · rename_i hact
    exact (h r u hu).resolve_left hact

theorem Governed.apply {e : BridgeEvent} (h : Governed reg b s) (ht : Tracked reg b s)
    (ha : s.Allows e)
    (hend : ∀ mrid, e = .ended mrid → ∀ r v, (s.note e).governs reg r = some v → v = 0) :
    Governed reg (b.apply reg e) (s.note e) := by
  intro r v hv
  cases e with
  | start mrid c =>
    rw [governs_start] at hv
    unfold DERBridge.apply
    rw [applyControl_device]
    cases hc : c.sets reg r with
    | some u =>
      rw [hc, Option.some_or] at hv
      exact Option.some.inj hv
    | none =>
      rw [hc, Option.none_or] at hv
      exact h r v hv
  | ended mrid => rw [ht.ended hv, hend mrid rfl r v hv]
  | defaultControl c =>
    have hlive : s.live = [] := ha
    rw [show s.note (.defaultControl c) = s from rfl, governs_nil hlive] at hv
    exact absurd hv (by simp)
  | unhandled => exact h r v hv

theorem orderly_append {past future : List BridgeEvent} :
    s.Orderly (past ++ future) ↔ s.Orderly past ∧ (past.foldl Started.note s).Orderly future := by
  induction past generalizing s with
  | nil => exact (iff_of_eq (true_and _)).symm
  | cons e past ih =>
    simp only [List.cons_append, Started.Orderly, ih, List.foldl_cons, and_assoc]

/-- The bridge after a row of events. -/
def DERBridge.run (reg : RegisterMap) (device : ℤ → ℤ) (es : List BridgeEvent) : DERBridge :=
  es.foldl (DERBridge.apply reg) { device }

theorem run_append {device : ℤ → ℤ} {es : List BridgeEvent} {e : BridgeEvent} :
    DERBridge.run reg device (es ++ [e]) = (DERBridge.run reg device es).apply reg e := by
  unfold DERBridge.run
  rw [List.foldl_append]
  rfl

theorem after_append {es : List BridgeEvent} {e : BridgeEvent} :
    Started.after (es ++ [e]) = (Started.after es).note e := by
  unfold Started.after
  rw [List.foldl_append]
  rfl

theorem run_tracked {device : ℤ → ℤ} {es : List BridgeEvent}
    (h : Started.Orderly {} es) :
    Tracked reg (DERBridge.run reg device es) (Started.after es) := by
  induction es using List.reverseRecOn with
  | nil => exact fun r v hv => absurd hv (by simp [Started.after, Started.governs])
  | append_singleton es e ih =>
    obtain ⟨hes, he, -⟩ := orderly_append.1 h
    rw [run_append, after_append]
    exact (ih hes).apply he

end Lemmas

/-- **Overlapping events.**  Each register is as the active events set it, after every event,
exactly when no event ends while another one sets a register to something else than 0. -/
theorem governed_iff (reg : RegisterMap) (device : ℤ → ℤ) (es : List BridgeEvent)
    (h : Started.Orderly {} es) :
    (∀ past future, es = past ++ future →
      Governed reg (DERBridge.run reg device past) (Started.after past)) ↔
    ∀ past mrid future, es = past ++ .ended mrid :: future → ∀ r v,
      (Started.after (past ++ [.ended mrid])).governs reg r = some v → v = 0 := by
  constructor
  · rintro hall past mrid future rfl r v hv
    have hg := hall (past ++ [.ended mrid]) future (by simp) r v hv
    rw [run_append] at hg
    rw [after_append] at hv
    exact hg.symm.trans ((run_tracked (orderly_append.1 h).1).ended hv)
  · intro hend past
    induction past using List.reverseRecOn with
    | nil => exact fun _ _ r v hv => absurd hv (by simp [Started.after, Started.governs])
    | append_singleton past e ih =>
      rintro future rfl
      rw [run_append, after_append]
      rw [List.append_assoc, List.singleton_append] at h
      obtain ⟨hpast, he, -⟩ := orderly_append.1 h
      refine (ih (e :: future) (by simp)).apply (run_tracked hpast) he ?_
      rintro mrid rfl r v hv
      exact hend past mrid future (by simp) r v (by rwa [after_append])

/-- Two events for different registers, of which the first ends. -/
def twoModes : List BridgeEvent :=
  [.start "a" { opModFixedW := some 50 }, .start "b" { opModFixedVar := some 20 }, .ended "a"]

theorem governed_iff_twoModes :
    Started.Orderly {} twoModes ∧
    ((∀ past future, twoModes = past ++ future →
      Governed {} (DERBridge.run {} (fun _ => 0) past) (Started.after past)) ↔
    ∀ past mrid future, twoModes = past ++ .ended mrid :: future → ∀ r v,
      (Started.after (past ++ [.ended mrid])).governs {} r = some v → v = 0) :=
  ⟨by decide, governed_iff {} (fun _ => 0) twoModes (by decide)⟩

/-- The end of the first event clears the register of the second. -/
theorem not_governed :
    ¬∀ (reg : RegisterMap) (device : ℤ → ℤ) (es : List BridgeEvent), Started.Orderly {} es →
      ∀ past future, es = past ++ future →
        Governed reg (DERBridge.run reg device past) (Started.after past) := by
  intro h
  have hclear := h {} (fun _ => 0) twoModes (by decide) twoModes [] (List.append_nil _).symm
    40101 20 (by decide)
  revert hclear
  decide

end SeClient
