import SeClient.Changes

/-!
# What each function does to the memory

The functions of `schedule.c` that act on the memory alone, as changes: some are
`Quiet`, the others are one `Touch`.
-/

namespace SeClient
open Transition

/-! ## The event queue -/

theorem filter_place {α : Type*} {p : α → Bool} {compare : α → α → Int} {e : α} {l : List α}
    (he : p e = false) : (Chain.place compare e l).filter p = l.filter p := by
  rw [Chain.place, List.filter_append, List.filter_cons_of_neg (by simp [he]), ← List.filter_append,
    List.takeWhile_append_dropWhile]

namespace Still
variable {c : Core}

/-- The events about something else than a block are removed. -/
theorem removeEvent {d : EventData} (hd : ∀ b, d ≠ .block b) : Still c (c.removeEvent d) := by
  have hfilter : ∀ l : List Event,
      (l.filter fun e => e.data ≠ d).filter Event.ofBlock = l.filter Event.ofBlock := by
    intro l
    rw [List.filter_filter]
    refine List.filter_congr fun e _ => ?_
    cases he : e.data with
    | block b => simp [Event.ofBlock, he, (hd b).symm]
    | _ => simp [Event.ofBlock, he]
  exact { Still.refl c with
    imEvent := hfilter _
    curEvent := hfilter _ }

/-- The time a Schedule was last armed for changes. -/
theorem setNext (s : ScheduleId) (next : Int) :
    Still c (c.modifySchedule s fun t => { t with next := next }) := by
  have hkeep : ∀ {α : Type} (p : Schedule → α), (∀ t, p { t with next := next } = p t) →
      ∀ x, p ((c.modifySchedule s fun t => { t with next := next }).schedule x) =
        p (c.schedule x) := by
    intro α p hp x
    by_cases hx : x = s
    · subst hx; rw [Core.modifySchedule_same, hp]
    · rw [Core.modifySchedule_of_ne _ _ hx]
  exact { Still.refl c with
    blocks := hkeep _ fun _ => rfl
    device := hkeep _ fun _ => rfl }

end Still

namespace Quiet
variable {c c' : Core}

/-- An event about something else than a block is queued. -/
theorem insertEvent {d : EventData} (hd : ∀ b, d ≠ .block b) (type : EventType) (time : Int) :
    Quiet c (c.insertEvent d type time) := by
  have hof : Event.ofBlock ⟨d, type, time⟩ = false := by
    cases d with
    | block b => exact absurd rfl (hd b)
    | _ => rfl
  unfold Core.insertEvent
  dsimp only
  split
  · exact { Still.refl c with
      imEvent := by simp [hof]
      timer := fun e he => he
      next := fun s => rfl }
  · exact { Still.refl c with
      curEvent := filter_place hof
      timer := fun e he => Chain.mem_place.mpr (Or.inr he)
      next := fun s => rfl }

/-- A Stub changes, but not the object it holds. -/
theorem modifyStub {s : StubId} {g : Stub → Stub}
    (hdata : (g (c.stub s)).data.getD {} = { (c.stub s).data.getD {} with
      lFDI := ((g (c.stub s)).data.getD {}).lFDI })
    (hlist : (c.stub s).schedules.Nodup → (g (c.stub s)).schedules.Nodup) :
    Quiet c (c.modifyStub s g) :=
  { Still.refl c with
    data := fun e => by
      unfold Core.data
      by_cases he : e = s
      · subst he; rw [Core.modifyStub_same]; exact hdata
      · rw [Core.modifyStub_of_ne _ _ he]
    lists := fun e hnd => by
      by_cases he : e = s
      · subst he; rw [Core.modifyStub_same]; exact hlist hnd
      · rw [Core.modifyStub_of_ne _ _ he]; exact hnd
    timer := fun e he => he
    next := fun s => rfl }

/-- A block changes, but not its status or its times. -/
theorem modifyBlock {b : BlockId} {f : EventBlock → EventBlock}
    (hf : ∀ x, (f x).event = x.event ∧ (f x).status = x.status ∧ (f x).start = x.start ∧
      (f x).stop = x.stop) : Quiet c (c.modifyBlock b f) := by
  have hkeep : ∀ {α : Type} (p : EventBlock → α), (∀ x, p (f x) = p x) →
      ∀ x, p ((c.modifyBlock b f).block x) = p (c.block x) := by
    intro α p hp x
    rw [Core.modifyBlock_block]
    split
    · rename_i h; rw [h, hp]
    · rfl
  exact { Still.refl c with
    event := hkeep _ fun x => (hf x).1
    status := hkeep _ fun x => (hf x).2.1
    start := hkeep _ fun x => (hf x).2.2.1
    stop := hkeep _ fun x => (hf x).2.2.2
    timer := fun e he => he
    next := fun s => rfl }

theorem loadDer (eb : BlockId) : Quiet c (c.loadDer eb) := by
  unfold Core.loadDer
  dsimp only
  split
  · exact modifyBlock fun x => ⟨rfl, rfl, rfl, rfl⟩
  · exact refl c

theorem blockSupersede (a b : BlockId) : Quiet c (c.blockSupersede a b).1 := by
  unfold Core.blockSupersede
  dsimp only
  split
  · split
    · exact modifyBlock (f := fun e => { e with der := e.der &&& ~~~(c.block a).der })
        fun x => ⟨rfl, rfl, rfl, rfl⟩
    · exact refl c
  · exact modifyBlock (f := fun e => { e with der := e.der &&& ~~~(c.block b).der })
      fun x => ⟨rfl, rfl, rfl, rfl⟩

/-- `poll_resource` queues an event about a Stub at most. -/
theorem pollResource (s : StubId) : Quiet c (c.pollResource s) := by
  unfold Core.pollResource
  dsimp only
  split
  · exact refl c
  · split
    · exact (modifyStub rfl id).trans (insertEvent (fun b => EventData.noConfusion) _ _)
    · exact refl c

theorem depReset {fuel : Nat} {s : StubId} (h : Core.depReset fuel c s = some c') :
    Quiet c c' := by
  induction fuel generalizing c c' s with
  | zero => cases h
  | succ fuel ih =>
    refine foldlM_preserves h (fun c₁ d c₂ _ h₁ h₂ => h₁.trans (Quiet.trans ?_ (ih h₂)))
      (modifyStub rfl id)
    split
    · exact modifyStub rfl id
    · exact modifyStub rfl id

/-- `update_resource` sends a request and resets dependents. -/
theorem updateResource {fuel : Nat} {s : StubId} (h : Core.updateResource fuel c s = some c') :
    Quiet c c' := by
  unfold Core.updateResource at h
  dsimp only at h
  split at h
  · exact Option.some.inj h ▸ refl c
  · obtain ⟨c₂, hreset, rfl⟩ := Option.map_eq_some_iff.mp h
    have hsend : Quiet c₂ (Core.getSeq (c₂.modifyStub s fun t => { t with status := -1 }) s 0
        ((c₂.modifyStub s fun t => { t with status := -1 }).stub s).all.toInt) :=
      (modifyStub (s := s) (g := fun t => { t with status := -1 }) rfl id).trans
        { Still.refl _ with timer := fun e he => he, next := fun s => rfl }
    refine Quiet.trans ?_ hsend
    generalize hc₁ : (if (c.stub s).all ≠ 0 then c.modifyStub s fun t => { t with offset := 0 }
      else c) = c₁ at hreset
    have hoffset : Quiet c c₁ := by
      rw [← hc₁]
      split
      · exact modifyStub rfl id
      · exact refl c
    have hlist : Quiet c₁ (c₁.modifyStub s fun t => { t with list := t.reqs, reqs := [] }) :=
      modifyStub rfl id
    refine (hoffset.trans hlist).trans ?_
    split at hreset
    · exact depReset hreset
    · rw [← Option.some.inj hreset]
      exact modifyStub rfl id

end Quiet

/-- Arming the timer of a Schedule. -/
theorem Still.armTimer {c : Core} (s : ScheduleId) (last : Int) : Still c (c.armTimer s last) := by
  unfold Core.armTimer
  dsimp only
  split
  · refine Still.trans ?_ (Still.setNext s last)
    split
    · exact (Still.removeEvent fun b => EventData.noConfusion).trans
        (Quiet.insertEvent (fun b => EventData.noConfusion) _ _).toStill
    · exact Still.refl c
  · exact Still.setNext s 0

/-! ## Touches -/

namespace Core
variable (c : Core)

/-- An active block is superseded by `eb` in `insert_active`. -/
def beaten (s : ScheduleId) (eb a : BlockId) : Touch where
  sched := s
  block := a
  found := (c.block a).status
  status := .superseded
  start := (c.block a).start
  stop := (c.block eb).start
  mark := if (c.block a).status = .active then some .eventEnd else none
  posted := c.posted (c.schedule s).device (c.block a).event .eventSuperseded

/-- The status of a block changes and its times do not. -/
def turn (s : ScheduleId) (eb : BlockId) (status : EventStatus) (mark : Option EventType)
    (posted : List Response) : Touch where
  sched := s
  block := eb
  found := (c.block eb).status
  status := status
  start := (c.block eb).start
  stop := (c.block eb).stop
  mark := mark
  posted := posted

/-- A block becomes superseded. -/
def outdone (s : ScheduleId) (eb : BlockId) : Touch :=
  c.turn s eb .superseded none (c.posted (c.schedule s).device (c.block eb).event .eventSuperseded)

/-- A block becomes active. -/
def begun (s : ScheduleId) (eb : BlockId) : Touch :=
  c.turn s eb .active (some .eventStart)
    (c.posted (c.schedule s).device (c.block eb).event .eventStarted)

/-- The time of an active block is over. -/
def expired (s : ScheduleId) (eb : BlockId) : Touch :=
  if (c.block eb).status = .active then
    c.turn s eb .completed (some .eventEnd)
      (c.posted (c.schedule s).device (c.block eb).event .eventCompleted)
  else c.turn s eb .completed none []

theorem expired_block (s : ScheduleId) (eb : BlockId) : (c.expired s eb).block = eb := by
  unfold expired; split <;> rfl

/-- A block gets a terminal status from its event, and ends now if it is active. -/
def ended (s : ScheduleId) (eb : BlockId) (status : EventStatus) (posted : List Response) :
    Touch where
  sched := s
  block := eb
  found := (c.block eb).status
  status := status
  start := (c.block eb).start
  stop := if (c.block eb).status = .active then c.seTime else (c.block eb).stop
  mark := if (c.block eb).status = .active then some .eventEnd else none
  posted := posted

/-- The times of a block change and its status does not. -/
def adjusted (s : ScheduleId) (e : BlockId) (start stop : Int) : Touch where
  sched := s
  block := e
  found := (c.block e).status
  status := (c.block e).status
  start := start
  stop := stop

theorem supersedeActive_eq (s : ScheduleId) (eb a : BlockId) :
    c.supersedeActive s eb a = c.touch (c.beaten s eb a) := by
  unfold supersedeActive touch beaten starts
  rw [deviceResponse_eq]
  by_cases h : (c.block a).status = .active <;>
    simp [h, modifyBlock, insertEvent, posted, Core.data]

theorem yieldActive_eq (s : ScheduleId) (eb : BlockId) :
    c.yieldActive s eb = c.touch (c.outdone s eb) := by
  unfold yieldActive touch outdone turn starts
  rw [deviceResponse_eq]
  simp [modifyBlock, posted, Core.data]

theorem retireBlock_eq (s : ScheduleId) (eb : BlockId) :
    c.retireBlock s eb = c.touch (c.outdone s eb) := by
  unfold retireBlock touch outdone turn starts
  rw [deviceResponse_eq]
  simp [modifyBlock, posted, Core.data]

theorem beginBlock_eq (s : ScheduleId) (eb : BlockId) :
    c.beginBlock s eb = c.touch (c.begun s eb) := by
  unfold beginBlock touch begun turn starts noteStart
  rw [deviceResponse_eq]
  simp [modifyBlock, insertEvent, posted, Core.data, Core.seTime]

theorem expireBlock_eq (s : ScheduleId) (eb : BlockId) :
    c.expireBlock s eb = c.touch (c.expired s eb) := by
  unfold expireBlock touch expired turn starts
  by_cases h : (c.block eb).status = .active
  · simp [h, deviceResponse_eq, modifyBlock, insertEvent]
  · simp [h, modifyBlock]

theorem blockUpdate_eq (s : ScheduleId) (eb : BlockId) (status : EventStatus)
    (responses : List Response) :
    Core.blockUpdate { c with responses := c.responses ++ responses } eb status =
      c.touch (c.ended s eb status responses) := by
  unfold blockUpdate touch ended starts
  by_cases h : (c.block eb).status = .active <;>
    simp [h, modifyBlock, insertEvent, Core.seTime]

theorem modifyBlock_status_eq (s : ScheduleId) (eb : BlockId) (status : EventStatus) :
    c.modifyBlock eb (fun b => { b with status := status }) =
      c.touch (c.turn s eb status none []) := by
  unfold touch turn starts
  simp [modifyBlock]

theorem modifyBlock_start_eq (s : ScheduleId) (e : BlockId) (start : Int) :
    c.modifyBlock e (fun b => { b with start := start }) =
      c.touch (c.adjusted s e start (c.block e).stop) := by
  unfold touch adjusted starts
  simp [modifyBlock]

theorem modifyBlock_stop_eq (s : ScheduleId) (e : BlockId) (stop : Int) :
    c.modifyBlock e (fun b => { b with stop := stop }) =
      c.touch (c.adjusted s e (c.block e).start stop) := by
  unfold touch adjusted starts
  simp [modifyBlock]

end Core
end SeClient
