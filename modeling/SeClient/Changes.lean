import SeClient.Board
import SeClient.Transition

/-!
# What a scheduling operation can do

Every operation of the scheduler is a sequence of a few kinds of changes: a block
leaves a queue, is put into one, gets a new status together with the event and the
Response that go with it, loses its pending events, is registered or freed.
`Change` says so once, on the board and the core memory; everything that is proved
about runs of the scheduler is proved about `Change` and nothing else of the code.

* `Still` and `Quiet`: a change of the memory that is not about the schedule.
* `Act`: the label of a change, with what the change found.
* `Sound`: what every change preserves.
-/

namespace SeClient

/-- The board and the memory. -/
structure Plan where
  queue : Board
  core : Core

namespace Event

/-- The event is about an EventBlock. -/
def ofBlock (e : Event) : Bool :=
  match e.data with
  | .block _ => true
  | _ => false

end Event

/-! ## Changes that are not about the schedule -/

/-- Nothing changes that the scheduler keeps in its blocks, but perhaps its timers and
the primacies and control modes of the blocks. -/
structure Still (c c' : Core) : Prop where
  event : ∀ b, (c'.block b).event = (c.block b).event
  status : ∀ b, (c'.block b).status = (c.block b).status
  start : ∀ b, (c'.block b).start = (c.block b).start
  stop : ∀ b, (c'.block b).stop = (c.block b).stop
  data : ∀ e, c'.data e = { c.data e with lFDI := (c'.data e).lFDI }
  blocks : ∀ s, (c'.schedule s).blocks = (c.schedule s).blocks
  device : ∀ s, (c'.schedule s).device = (c.schedule s).device
  seTime : c'.seTime = c.seTime
  imEvent : c'.imEvent.filter Event.ofBlock = c.imEvent.filter Event.ofBlock
  curEvent : c'.curEvent.filter Event.ofBlock = c.curEvent.filter Event.ofBlock
  responses : c'.responses = c.responses
  started : c'.started = c.started
  freshBlock : c'.freshBlock = c.freshBlock
  freshDevice : c.freshDevice ≤ c'.freshDevice
  lists : ∀ e, (c.stub e).schedules.Nodup → (c'.stub e).schedules.Nodup
  devices : (∀ d ∈ c.devices, d < c.freshDevice) → ∀ d ∈ c'.devices, d < c'.freshDevice

/-- The timers of the schedules do not change either. -/
structure Quiet (c c' : Core) : Prop extends Still c c' where
  timer : ∀ e ∈ c.curEvent, e ∈ c'.curEvent
  next : ∀ s, (c'.schedule s).next = (c.schedule s).next

section Still
variable {c c' c'' : Core}

theorem Still.refl (c : Core) : Still c c where
  event _ := rfl
  status _ := rfl
  start _ := rfl
  stop _ := rfl
  data _ := rfl
  blocks _ := rfl
  device _ := rfl
  seTime := rfl
  imEvent := rfl
  curEvent := rfl
  responses := rfl
  started := rfl
  freshBlock := rfl
  freshDevice := Nat.le_refl _
  lists _ h := h
  devices h := h

theorem Still.trans (h : Still c c') (h' : Still c' c'') : Still c c'' where
  event b := (h'.event b).trans (h.event b)
  status b := (h'.status b).trans (h.status b)
  start b := (h'.start b).trans (h.start b)
  stop b := (h'.stop b).trans (h.stop b)
  data e := by rw [h'.data e, h.data e]
  blocks s := (h'.blocks s).trans (h.blocks s)
  device s := (h'.device s).trans (h.device s)
  seTime := h'.seTime.trans h.seTime
  imEvent := h'.imEvent.trans h.imEvent
  curEvent := h'.curEvent.trans h.curEvent
  responses := h'.responses.trans h.responses
  started := h'.started.trans h.started
  freshBlock := h'.freshBlock.trans h.freshBlock
  freshDevice := Nat.le_trans h.freshDevice h'.freshDevice
  lists e hnd := h'.lists e (h.lists e hnd)
  devices hd := h'.devices (h.devices hd)

theorem Still.eventStatus (h : Still c c') (e : StubId) : c'.eventStatus e = c.eventStatus e := by
  unfold Core.eventStatus
  rw [h.data e]

theorem Still.mRID (h : Still c c') (e : StubId) : (c'.data e).mRID = (c.data e).mRID := by
  rw [h.data e]

theorem Still.creationTime (h : Still c c') (e : StubId) :
    (c'.data e).creationTime = (c.data e).creationTime := by
  rw [h.data e]

theorem Still.eventInterval (h : Still c c') (e : StubId) :
    c'.eventInterval e = c.eventInterval e := by
  unfold Core.eventInterval
  rw [h.data e]

theorem Still.findBlock (h : Still c c') (s : ScheduleId) (key : Nat) :
    c'.findBlock s key = c.findBlock s key := by
  unfold Core.findBlock Core.mridKey
  rw [h.blocks s]
  congr
  funext b
  rw [h.event b, h.mRID]

theorem Quiet.refl (c : Core) : Quiet c c := ⟨Still.refl c, fun _ h => h, fun _ => rfl⟩

theorem Quiet.trans (h : Quiet c c') (h' : Quiet c' c'') : Quiet c c'' :=
  ⟨h.toStill.trans h'.toStill, fun e he => h'.timer e (h.timer e he),
    fun s => (h'.next s).trans (h.next s)⟩

end Still

/-! ## The changes of one block -/

/-- A block gets a new status and perhaps new times; perhaps an event about it is
queued and Responses about it are posted. -/
structure Touch where
  sched : ScheduleId
  block : BlockId
  /-- The status the change finds. -/
  found : EventStatus
  status : EventStatus
  start : Int
  stop : Int
  mark : Option EventType := none
  posted : List Response := []

namespace Core
variable (c : Core)

/-- The events about a block in the queue of immediate events. -/
def pending (b : BlockId) : List Event := c.imEvent.filter fun e => e.data = .block b

/-- What the START events of a change add to the history. -/
def starts (t : Touch) : List Start :=
  if t.mark = some .eventStart then [⟨t.block, t.start, t.stop, c.seTime⟩] else []

/-- The memory after the change of one block. -/
def touch (t : Touch) : Core :=
  { c with
    block := Function.update c.block t.block
      { c.block t.block with status := t.status, start := t.start, stop := t.stop }
    imEvent := c.imEvent ++ t.mark.toList.map fun type => ⟨.block t.block, type, 0⟩
    responses := c.responses ++ t.posted
    started := c.started ++ c.starts t }

/-- The Response `device_response` posts, if any. -/
def posted (device : Option StubId) (event : StubId) (status : ResponseType) : List Response :=
  let required := (c.data event).responseRequired
  if (status = .eventReceived ∧ required.testBit 0) ∨ required.testBit 1 then
    [⟨device, event, status⟩]
  else []

theorem deviceResponse_eq (device : Option StubId) (event : StubId) (status : ResponseType) :
    c.deviceResponse device event status =
      { c with responses := c.responses ++ c.posted device event status } := by
  unfold deviceResponse posted
  dsimp only
  split
  · rfl
  · rw [List.append_nil]

theorem posted_congr {c c' : Core} {event : StubId} (h : c'.data event = c.data event)
    {device : Option StubId} {status : ResponseType} :
    c'.posted device event status = c.posted device event status := by
  unfold posted
  rw [h]

theorem posted_spec {device : Option StubId} {event : StubId} {status : ResponseType}
    {r : Response} (hr : r ∈ c.posted device event status) :
    r = ⟨device, event, status⟩ := by
  unfold posted at hr
  dsimp only at hr
  split at hr
  · simpa using hr
  · simp at hr

theorem posted_length_le {device : Option StubId} {event : StubId} {status : ResponseType} :
    (c.posted device event status).length ≤ 1 := by
  unfold posted
  dsimp only
  split <;> simp

/-- The memory after a new block is registered. -/
def enroll (s : ScheduleId) (block : EventBlock) : Core :=
  Core.modifySchedule { c with
    block := Function.update c.block c.freshBlock block
    freshBlock := c.freshBlock + 1 } s fun t => { t with blocks := t.blocks ++ [c.freshBlock] }

/-- The memory after a block is taken out of the registry. -/
def strike (s : ScheduleId) (b : BlockId) : Core :=
  c.modifySchedule s fun t => { t with blocks := t.blocks.erase b }

/-- The memory after a Schedule gets its device. -/
def assign (s : ScheduleId) (device : StubId) : Core :=
  c.modifySchedule s fun t => { t with device := some device }

@[simp] theorem assign_blocks (s s' : ScheduleId) (device : StubId) :
    ((c.assign s device).schedule s').blocks = (c.schedule s').blocks := by
  unfold assign
  by_cases h : s' = s
  · rw [h, modifySchedule_same]
  · rw [modifySchedule_of_ne _ _ h]

theorem assign_device (s s' : ScheduleId) (device : StubId) :
    ((c.assign s device).schedule s').device =
      if s' = s then some device else (c.schedule s').device := by
  unfold assign
  split
  · rename_i h; rw [h, modifySchedule_same]
  · rename_i h; rw [modifySchedule_of_ne _ _ h]

theorem enroll_device (s s' : ScheduleId) (block : EventBlock) :
    ((c.enroll s block).schedule s').device = (c.schedule s').device := by
  unfold enroll
  by_cases h : s' = s
  · rw [h, modifySchedule_same]
  · rw [modifySchedule_of_ne _ _ h]

theorem enroll_blocks (s s' : ScheduleId) (block : EventBlock) :
    ((c.enroll s block).schedule s').blocks =
      if s' = s then (c.schedule s).blocks ++ [c.freshBlock] else (c.schedule s').blocks := by
  unfold enroll
  split
  · rename_i h; subst h; rw [modifySchedule_same]
  · rename_i h; rw [modifySchedule_of_ne _ _ h]

theorem mem_enroll_blocks {s s' : ScheduleId} {block : EventBlock} {b : BlockId} :
    b ∈ ((c.enroll s block).schedule s').blocks ↔
      b ∈ (c.schedule s').blocks ∨ (s' = s ∧ b = c.freshBlock) := by
  rw [enroll_blocks]
  split
  · rename_i h; subst h; simp
  · rename_i h; simp [h]

theorem strike_blocks (s s' : ScheduleId) (b : BlockId) :
    ((c.strike s b).schedule s').blocks =
      if s' = s then (c.schedule s).blocks.erase b else (c.schedule s').blocks := by
  unfold strike
  split
  · rename_i h; subst h; rw [modifySchedule_same]
  · rename_i h; rw [modifySchedule_of_ne _ _ h]

theorem mem_of_mem_strike {s s' : ScheduleId} {b x : BlockId}
    (h : x ∈ ((c.strike s b).schedule s').blocks) : x ∈ (c.schedule s').blocks := by
  rw [strike_blocks] at h
  split at h
  · rename_i he; subst he; exact List.mem_of_mem_erase h
  · exact h

end Core

/-- The statuses of the blocks a queue is for. -/
def QueueName.fits : QueueName → EventStatus → Prop
  | .scheduled, status => status = .scheduled
  | .active, _ => True
  | .superseded, status => status = .scheduleSuperseded

/-- The labels of the changes. -/
inductive Act
  /-- Something that is not about the schedule. -/
  | quiet
  /-- The timers change. -/
  | signal
  /-- A Schedule gets its device. -/
  | assign (s : ScheduleId) (device : StubId)
  | touch (t : Touch)
  /-- A block leaves a queue. -/
  | take (s : ScheduleId) (n : QueueName) (b : BlockId)
  /-- The blocks at the front of a queue are dropped. -/
  | drop (s : ScheduleId) (n : QueueName) (pre : List BlockId)
  /-- A block is put at the head of a queue. -/
  | push (s : ScheduleId) (n : QueueName) (b : BlockId)
  /-- A block is put into a sorted queue. -/
  | place (s : ScheduleId) (n : QueueName) (b : BlockId)
  /-- The pending events about a block, `found` in the queue of immediate events, are
  removed. -/
  | discard (b : BlockId) (found : List Event)
  /-- A new block is registered for an event. -/
  | register (s : ScheduleId) (b : BlockId) (event : StubId)
  /-- A block is freed. -/
  | delete (s : ScheduleId) (b : BlockId) (found : EventStatus)

/-- The block whose record or pending events a change rewrites. -/
def Act.subject : Act → Option BlockId
  | .touch t => some t.block
  | .discard b _ => some b
  | .register _ b _ => some b
  | _ => none

/-- A change that leaves the registries and the devices of the schedules alone. -/
def Act.Plain : Act → Prop
  | .assign _ _ | .register _ _ _ | .delete _ _ _ => False
  | _ => True

/-- A plain change that is about the one block, if about any. -/
def Act.Only (eb : BlockId) (a : Act) : Prop := a.Plain ∧ ∀ b, a.subject = some b → b = eb

/-- A block keeps its event, its status, its times and its pending events. -/
structure Core.Keeps (c c' : Core) (b : BlockId) : Prop where
  event : (c'.block b).event = (c.block b).event
  status : (c'.block b).status = (c.block b).status
  start : (c'.block b).start = (c.block b).start
  stop : (c'.block b).stop = (c.block b).stop
  pending : c'.pending b = c.pending b

/-- The objects of the events and the clock stay as they are. -/
structure Core.Ambient (c c' : Core) : Prop where
  data : ∀ e, c'.data e = { c.data e with lFDI := (c'.data e).lFDI }
  seTime : c'.seTime = c.seTime

section Frame
variable {c c' c'' : Core} {b b' : BlockId}

theorem Core.Keeps.refl (c : Core) (b : BlockId) : c.Keeps c b := ⟨rfl, rfl, rfl, rfl, rfl⟩

theorem Core.Keeps.trans (h : c.Keeps c' b) (h' : c'.Keeps c'' b) : c.Keeps c'' b :=
  ⟨h'.event.trans h.event, h'.status.trans h.status, h'.start.trans h.start,
    h'.stop.trans h.stop, h'.pending.trans h.pending⟩

theorem Core.Ambient.refl (c : Core) : c.Ambient c := ⟨fun _ => rfl, rfl⟩

theorem Core.Ambient.trans (h : c.Ambient c') (h' : c'.Ambient c'') : c.Ambient c'' :=
  ⟨fun e => by rw [h'.data e, h.data e], h'.seTime.trans h.seTime⟩

theorem Core.Ambient.eventStatus (h : c.Ambient c') (e : StubId) :
    c'.eventStatus e = c.eventStatus e := by
  unfold Core.eventStatus
  rw [h.data e]

theorem Core.Ambient.mRID (h : c.Ambient c') (e : StubId) :
    (c'.data e).mRID = (c.data e).mRID := by
  rw [h.data e]

theorem Core.Ambient.eventInterval (h : c.Ambient c') (e : StubId) :
    c'.eventInterval e = c.eventInterval e := by
  unfold Core.eventInterval
  rw [h.data e]

theorem Core.Ambient.posted (h : c.Ambient c') (device : Option StubId) (event : StubId)
    (status : ResponseType) : c'.posted device event status = c.posted device event status := by
  unfold Core.posted
  rw [h.data event]

theorem Still.ambient (h : Still c c') : c.Ambient c' := ⟨h.data, h.seTime⟩

theorem Core.pending_eq (c : Core) (b : BlockId) :
    c.pending b = (c.imEvent.filter Event.ofBlock).filter fun e => e.data = .block b := by
  rw [Core.pending, List.filter_filter]
  refine List.filter_congr fun e _ => ?_
  by_cases he : e.data = .block b <;> simp [Event.ofBlock, he]

theorem Still.keeps (h : Still c c') (b : BlockId) : c.Keeps c' b :=
  ⟨h.event b, h.status b, h.start b, h.stop b, by
    rw [c'.pending_eq, c.pending_eq, h.imEvent]⟩

theorem Core.touch_block_of_ne {t : Touch} (h : b ≠ t.block) : (c.touch t).block b = c.block b :=
  Function.update_of_ne h ..

theorem Core.touch_event {t : Touch} (b : BlockId) :
    ((c.touch t).block b).event = (c.block b).event := by
  by_cases hb : b = t.block
  · subst hb; simp [Core.touch]
  · exact congrArg EventBlock.event (Core.touch_block_of_ne hb)

theorem Core.touch_keeps {t : Touch} (h : b ≠ t.block) : c.Keeps (c.touch t) b := by
  have := Core.touch_block_of_ne (c := c) h
  refine ⟨by rw [this], by rw [this], by rw [this], by rw [this], ?_⟩
  cases hm : t.mark <;> simp [Core.pending, Core.touch, hm, Ne.symm h]

theorem Core.pending_removeEvent (h : b ≠ b') :
    (c.removeEvent (.block b')).pending b = c.pending b := by
  unfold Core.pending Core.removeEvent
  rw [List.filter_filter]
  refine List.filter_congr fun e _ => ?_
  by_cases he : e.data = .block b <;> simp [he, h]

end Frame

namespace Plan

/-- The order of a queue that is kept sorted. -/
def compare (c : Core) : QueueName → BlockId → BlockId → Int
  | .active => c.compareEnd
  | _ => c.compareStart

/-- **What one change does.** -/
inductive Change : Plan → Act → Plan → Prop
  | quiet {q : Board} {c c' : Core} : Quiet c c' → Change ⟨q, c⟩ .quiet ⟨q, c'⟩
  | signal {q : Board} {c c' : Core} : Still c c' → Change ⟨q, c⟩ .signal ⟨q, c'⟩
  | assign {q : Board} {c : Core} {s : ScheduleId} {device : StubId} : s < c.freshDevice →
      Change ⟨q, c⟩ (.assign s device) ⟨q, c.assign s device⟩
  | touch {q : Board} {c : Core} {t : Touch} :
      t.found = (c.block t.block).status → t.block ∈ (c.schedule t.sched).blocks →
      (∀ r ∈ t.posted, r.device = (c.schedule t.sched).device ∧
        (c.data r.event).mRID = c.mridKey t.block) →
      (t.status = t.found ∨ ∀ s, t.block ∉ q s .scheduled ∧ t.block ∉ q s .superseded) →
      Change ⟨q, c⟩ (.touch t) ⟨q, c.touch t⟩
  | take {q : Board} {c : Core} {s : ScheduleId} {n : QueueName} {b : BlockId} :
      Change ⟨q, c⟩ (.take s n b) ⟨q.set s n ((q s n).erase b), c⟩
  | drop {q : Board} {c : Core} {s : ScheduleId} {n : QueueName} {pre l : List BlockId} :
      q s n = pre ++ l → Change ⟨q, c⟩ (.drop s n pre) ⟨q.set s n l, c⟩
  | push {q : Board} {c : Core} {s : ScheduleId} {n : QueueName} {b : BlockId} :
      q.Loose b → b ∈ (c.schedule s).blocks → n.fits (c.block b).status →
      Change ⟨q, c⟩ (.push s n b) ⟨q.set s n (b :: q s n), c⟩
  | place {q : Board} {c : Core} {s : ScheduleId} {n : QueueName} {b : BlockId} :
      q.Loose b → b ∈ (c.schedule s).blocks → n.fits (c.block b).status →
      Change ⟨q, c⟩ (.place s n b) ⟨q.set s n (Chain.place (compare c n) b (q s n)), c⟩
  | discard {q : Board} {c : Core} {b : BlockId} :
      Change ⟨q, c⟩ (.discard b (c.pending b)) ⟨q, c.removeEvent (.block b)⟩
  | register {q : Board} {c : Core} {s : ScheduleId} {block : EventBlock} :
      s < c.freshDevice → (c.schedule s).device ≠ none → block.status = .scheduled →
      c.findBlock s (c.data block.event).mRID = none →
      Change ⟨q, c⟩ (.register s c.freshBlock block.event) ⟨q, c.enroll s block⟩
  | delete {q : Board} {c : Core} {s : ScheduleId} {b : BlockId} :
      q.Loose b → b ∈ (c.schedule s).blocks →
      Change ⟨q, c⟩ (.delete s b (c.block b).status) ⟨q, c.strike s b⟩

/-! ## What every change preserves -/

/-- The board and the registries agree: a block of a queue is registered in the
queue's Schedule and has a status the queue is for. -/
structure Sound (p : Plan) : Prop where
  fits : ∀ {s n b}, b ∈ p.queue s n → n.fits (p.core.block b).status
  home : ∀ {s n b}, b ∈ p.queue s n → b ∈ (p.core.schedule s).blocks
  nodup : ∀ s, (p.core.schedule s).blocks.Nodup
  once : ∀ {s s' b}, b ∈ (p.core.schedule s).blocks → b ∈ (p.core.schedule s').blocks → s = s'
  alloc : ∀ {s b}, b ∈ (p.core.schedule s).blocks → b < p.core.freshBlock
  fresh : ∀ s, p.core.freshDevice ≤ s →
    (p.core.schedule s).blocks = [] ∧ (p.core.schedule s).device = none
  lists : ∀ e, (p.core.stub e).schedules.Nodup
  devices : ∀ d ∈ p.core.devices, d < p.core.freshDevice

/-- A queue has no more blocks than there are. -/
theorem Sound.length_le {p : Plan} (h : Sound p) {k : Links} (hr : k.Represents p.queue)
    (s : ScheduleId) (n : QueueName) : (p.queue s n).length ≤ p.core.freshBlock := by
  have hsub : p.queue s n ⊆ List.range p.core.freshBlock :=
    fun b hb => List.mem_range.mpr (h.alloc (h.home hb))
  simpa using (hr.nodup s n).length_le_of_subset hsub

theorem Sound.still {q : Board} {c c' : Core} (h : Sound ⟨q, c⟩) (hc : Still c c') :
    Sound ⟨q, c'⟩ where
  fits hb := by rw [hc.status]; exact h.fits hb
  home hb := by rw [hc.blocks]; exact h.home hb
  nodup s := by rw [hc.blocks]; exact h.nodup s
  once hb hb' := by rw [hc.blocks] at hb hb'; exact h.once hb hb'
  alloc hb := by rw [hc.blocks] at hb; rw [hc.freshBlock]; exact h.alloc hb
  fresh s hs := by
    rw [hc.blocks, hc.device]
    exact h.fresh s (Nat.le_trans hc.freshDevice hs)
  lists e := hc.lists e (h.lists e)
  devices := hc.devices h.devices

/-- A queue may lose blocks. -/
theorem Sound.shrink {q : Board} {c : Core} {s : ScheduleId} {n : QueueName}
    {l : List BlockId} (h : Sound ⟨q, c⟩) (hl : ∀ b ∈ l, b ∈ q s n) :
    Sound ⟨q.set s n l, c⟩ := by
  have hmem : ∀ {s' n' b}, b ∈ q.set s n l s' n' → b ∈ q s' n' := by
    intro s' n' b hb
    rcases (Board.mem_set _).mp hb with ⟨rfl, rfl, hb'⟩ | ⟨_, hb'⟩
    · exact hl b hb'
    · exact hb'
  exact ⟨fun hb => h.fits (hmem hb), fun hb => h.home (hmem hb), h.nodup, h.once, h.alloc,
    h.fresh, h.lists, h.devices⟩

/-- A queue may get a block that is registered and has the right status. -/
theorem Sound.extend {q : Board} {c : Core} {s : ScheduleId} {n : QueueName} {b : BlockId}
    {l : List BlockId} (h : Sound ⟨q, c⟩) (hhome : b ∈ (c.schedule s).blocks)
    (hfits : n.fits (c.block b).status) (hl : ∀ x ∈ l, x = b ∨ x ∈ q s n) :
    Sound ⟨q.set s n l, c⟩ := by
  have hmem : ∀ {s' n' x}, x ∈ q.set s n l s' n' → (s' = s ∧ n' = n ∧ x = b) ∨ x ∈ q s' n' := by
    intro s' n' x hx
    rcases (Board.mem_set _).mp hx with ⟨rfl, rfl, hx'⟩ | ⟨_, hx'⟩
    · exact (hl x hx').imp (fun he => ⟨rfl, rfl, he⟩) id
    · exact Or.inr hx'
  refine ⟨fun hx => ?_, fun hx => ?_, h.nodup, h.once, h.alloc, h.fresh, h.lists,
    h.devices⟩
  · rcases hmem hx with ⟨rfl, rfl, rfl⟩ | hx
    · exact hfits
    · exact h.fits hx
  · rcases hmem hx with ⟨rfl, rfl, rfl⟩ | hx
    · exact hhome
    · exact h.home hx

/-- **Every change keeps the plan sound.** -/
theorem Change.sound {p p' : Plan} {a : Act} (hc : Change p a p') (h : Sound p) : Sound p' := by
  cases hc with
  | quiet hq => exact h.still hq.toStill
  | signal hq => exact h.still hq
  | @assign q c s device hs =>
    refine ⟨h.fits, fun hb => ?_, fun s => ?_, fun hb hb' => ?_, fun hb => ?_, fun s' hs' => ?_,
      h.lists, h.devices⟩
    · rw [Core.assign_blocks]; exact h.home hb
    · rw [Core.assign_blocks]; exact h.nodup s
    · rw [Core.assign_blocks] at hb hb'; exact h.once hb hb'
    · rw [Core.assign_blocks] at hb; exact h.alloc hb
    · have hne : s' ≠ s := fun he => Nat.lt_irrefl _ (Nat.lt_of_lt_of_le hs (he ▸ hs'))
      rw [Core.assign_blocks, Core.assign_device, if_neg hne]
      exact h.fresh s' hs'
  | @touch q c t hfound hhome hposted hstatus =>
    refine ⟨fun {s n b} hb => ?_, h.home, h.nodup, h.once, h.alloc, h.fresh, h.lists,
    h.devices⟩
    by_cases he : b = t.block
    · subst he
      have hnew : ((c.touch t).block t.block).status = t.status := by simp [Core.touch]
      rw [hnew]
      rcases hstatus with hst | hout
      · rw [hst, hfound]; exact h.fits hb
      · cases n with
        | scheduled => exact absurd hb (hout s).1
        | active => trivial
        | superseded => exact absurd hb (hout s).2
    · have hsame : (c.touch t).block b = c.block b := Function.update_of_ne he _ _
      rw [hsame]
      exact h.fits hb
  | take => exact h.shrink fun b hb => List.mem_of_mem_erase hb
  | drop hq => exact h.shrink fun b hb => by rw [hq]; exact List.mem_append_right _ hb
  | push hl hhome hfits =>
    exact h.extend hhome hfits fun x hx => List.mem_cons.mp hx
  | place hl hhome hfits =>
    exact h.extend hhome hfits fun x hx => Chain.mem_place.mp hx
  | discard => exact ⟨h.fits, h.home, h.nodup, h.once, h.alloc, h.fresh, h.lists,
    h.devices⟩
  | @register q c s block hs hdevice hstatus hnone =>
    have hfresh : ∀ {s' b}, b ∈ (c.schedule s').blocks → b ≠ c.freshBlock :=
      fun hb he => Nat.lt_irrefl _ (he ▸ h.alloc hb)
    refine ⟨fun {s' n b} hb => ?_, fun hb => ?_, fun s' => ?_, fun {s₁ s₂ b} h₁ h₂ => ?_,
      fun hb => ?_, fun s' hs' => ?_, h.lists, h.devices⟩
    · have hsame : (c.enroll s block).block b = c.block b :=
        Function.update_of_ne (hfresh (h.home hb)) _ _
      rw [hsame]
      exact h.fits hb
    · exact (Core.mem_enroll_blocks c).mpr (Or.inl (h.home hb))
    · dsimp only
      rw [Core.enroll_blocks]
      split
      · refine List.nodup_append.mpr ⟨h.nodup s, by simp, fun x hx y hy => ?_⟩
        rw [List.mem_singleton.mp hy]
        exact hfresh hx
      · exact h.nodup s'
    · rcases (Core.mem_enroll_blocks c).mp h₁ with hb₁ | ⟨hs₁, hb₁⟩ <;>
        rcases (Core.mem_enroll_blocks c).mp h₂ with hb₂ | ⟨hs₂, hb₂⟩
      · exact h.once hb₁ hb₂
      · exact absurd hb₂ (hfresh hb₁)
      · exact absurd hb₁ (hfresh hb₂)
      · exact hs₁.trans hs₂.symm
    · rcases (Core.mem_enroll_blocks c).mp hb with hb' | ⟨_, hb'⟩
      · exact Nat.lt_succ_of_lt (h.alloc hb')
      · rw [hb']; exact Nat.lt_succ_self _
    · have hne : s' ≠ s := fun he => Nat.lt_irrefl _ (Nat.lt_of_lt_of_le hs (he ▸ hs'))
      dsimp only [Core.enroll]
      rw [Core.modifySchedule_of_ne _ _ hne]
      exact h.fresh s' hs'
  | @delete q c s b hloose hb =>
    refine ⟨h.fits, fun {s' n x} hx => ?_, fun s' => ?_, fun hx hx' => ?_, fun hx => ?_,
      fun s' hs' => ?_, h.lists, h.devices⟩
    · have hne : x ≠ b := fun he => hloose s' n (he ▸ hx)
      dsimp only
      rw [Core.strike_blocks]
      split
      · rename_i he; subst he; exact (List.mem_erase_of_ne hne).mpr (h.home hx)
      · exact h.home hx
    · dsimp only
      rw [Core.strike_blocks]
      split
      · exact (h.nodup s).erase _
      · exact h.nodup s'
    · exact h.once (c.mem_of_mem_strike hx) (c.mem_of_mem_strike hx')
    · exact h.alloc (c.mem_of_mem_strike hx)
    · have hne : s' ≠ s := fun he => by
        subst he
        exact List.not_mem_nil ((h.fresh s' hs').1 ▸ hb)
      dsimp only [Core.strike]
      rw [Core.modifySchedule_of_ne _ _ hne]
      exact h.fresh s' hs'

/-- **Frame.**  A change rewrites the record of no block but its subject. -/
theorem Change.keeps {p p' : Plan} {a : Act} {b : BlockId} (hc : Change p a p')
    (hb : a.subject ≠ some b) : p.core.Keeps p'.core b := by
  cases hc with
  | quiet h => exact h.toStill.keeps b
  | signal h => exact h.keeps b
  | touch _ _ _ _ => exact Core.touch_keeps fun he => hb (by rw [he]; rfl)
  | @register q c s block _ _ _ _ =>
    have hne : b ≠ c.freshBlock := fun he => hb (by rw [he]; rfl)
    have hsame : (c.enroll s block).block b = c.block b := Function.update_of_ne hne ..
    exact ⟨by rw [hsame], by rw [hsame], by rw [hsame], by rw [hsame], rfl⟩
  | discard => exact ⟨rfl, rfl, rfl, rfl, Core.pending_removeEvent fun he => hb (by rw [he]; rfl)⟩
  | _ => exact ⟨rfl, rfl, rfl, rfl, rfl⟩

theorem Change.ambient {p p' : Plan} {a : Act} (hc : Change p a p') :
    p.core.Ambient p'.core := by
  cases hc with
  | quiet h => exact h.toStill.ambient
  | signal h => exact h.ambient
  | _ => exact ⟨fun _ => rfl, rfl⟩

theorem run_keeps {p p' : Plan} {acts : List Act} {b : BlockId}
    (hr : Transition.Run Change p acts p') (hb : ∀ a ∈ acts, a.subject ≠ some b) :
    p.core.Keeps p'.core b :=
  hr.preserves (J := fun p' => p.core.Keeps p'.core b) hb
    (fun _ _ _ hne h hc => h.trans (hc.keeps hne)) (Core.Keeps.refl _ b)

theorem run_ambient {p p' : Plan} {acts : List Act} (hr : Transition.Run Change p acts p') :
    p.core.Ambient p'.core :=
  hr.preserves (J := fun p' => p.core.Ambient p'.core) (G := fun _ => True)
    (fun _ _ => trivial) (fun _ _ _ _ h hc => h.trans hc.ambient) (Core.Ambient.refl _)

/-- The times of a block are those that every change of it writes. -/
theorem run_times {p p' : Plan} {acts : List Act} {b : BlockId} {start stop : Int}
    (hr : Transition.Run Change p acts p')
    (htouch : ∀ t, .touch t ∈ acts → t.block = b → t.start = start ∧ t.stop = stop)
    (hregister : ∀ s event, .register s b event ∉ acts)
    (h₀ : (p.core.block b).start = start ∧ (p.core.block b).stop = stop) :
    (p'.core.block b).start = start ∧ (p'.core.block b).stop = stop := by
  refine hr.preserves (G := fun a => a ∈ acts)
    (J := fun p => (p.core.block b).start = start ∧ (p.core.block b).stop = stop)
    (fun _ ha => ha) (fun p₁ a p₂ ha h hc => ?_) h₀
  by_cases hb : a.subject = some b
  · cases hc with
    | @touch q c t _ _ _ _ =>
      have hb' : t.block = b := Option.some.inj hb
      obtain ⟨h₁, h₂⟩ := htouch t ha hb'
      subst hb'
      simp [Core.touch, h₁, h₂]
    | @register q c s block _ _ _ _ =>
      have hb' : c.freshBlock = b := Option.some.inj hb
      exact absurd ha (hb' ▸ hregister s block.event)
    | discard => exact h
    | _ => cases hb
  · have hk := hc.keeps hb
    rw [hk.start, hk.stop]
    exact h

/-- A block stays registered unless it is deleted. -/
theorem Change.home {p p' : Plan} {a : Act} {s : ScheduleId} {b : BlockId} (hc : Change p a p')
    (ha : ∀ s b found, a ≠ .delete s b found) (hb : b ∈ (p.core.schedule s).blocks) :
    b ∈ (p'.core.schedule s).blocks := by
  cases hc with
  | quiet h => rw [h.blocks]; exact hb
  | signal h => rw [h.blocks]; exact hb
  | assign => rw [Core.assign_blocks]; exact hb
  | register _ _ _ _ => exact (Core.mem_enroll_blocks _).mpr (Or.inl hb)
  | delete _ _ => exact absurd rfl (ha _ _ _)
  | _ => exact hb

theorem run_home {p p' : Plan} {acts : List Act} {s : ScheduleId} {b : BlockId}
    (hr : Transition.Run Change p acts p') (hacts : ∀ s b found, .delete s b found ∉ acts)
    (hb : b ∈ (p.core.schedule s).blocks) : b ∈ (p'.core.schedule s).blocks :=
  hr.preserves (G := fun a => ∀ s b found, a ≠ .delete s b found)
    (J := fun p => b ∈ (p.core.schedule s).blocks)
    (fun _ ha s b found he => hacts s b found (he ▸ ha)) (fun _ _ _ ha h hc => hc.home ha h) hb

/-- A run of plain changes leaves the registries alone, and the event of every block. -/
theorem run_plain {p p' : Plan} {acts : List Act} (hr : Transition.Run Change p acts p')
    (hacts : ∀ a ∈ acts, a.Plain) :
    (∀ s, (p'.core.schedule s).blocks = (p.core.schedule s).blocks) ∧
      (∀ s, (p'.core.schedule s).device = (p.core.schedule s).device) ∧
      ∀ b, (p'.core.block b).event = (p.core.block b).event := by
  refine hr.preserves (G := Act.Plain)
    (J := fun p' => (∀ s, (p'.core.schedule s).blocks = (p.core.schedule s).blocks) ∧
      (∀ s, (p'.core.schedule s).device = (p.core.schedule s).device) ∧
      ∀ b, (p'.core.block b).event = (p.core.block b).event) hacts ?_
    ⟨fun _ => rfl, fun _ => rfl, fun _ => rfl⟩
  intro p₁ a p₂ ha ⟨hblocks, hdevice, hevent⟩ hc
  cases hc with
  | quiet h =>
    exact ⟨fun s => (h.blocks s).trans (hblocks s), fun s => (h.device s).trans (hdevice s),
      fun b => (h.event b).trans (hevent b)⟩
  | signal h =>
    exact ⟨fun s => (h.blocks s).trans (hblocks s), fun s => (h.device s).trans (hdevice s),
      fun b => (h.event b).trans (hevent b)⟩
  | @touch q c t _ _ _ _ =>
    exact ⟨hblocks, hdevice, fun b => (Core.touch_event b).trans (hevent b)⟩
  | assign => exact absurd ha id
  | register => exact absurd ha id
  | delete => exact absurd ha id
  | _ => exact ⟨hblocks, hdevice, hevent⟩

/-- A run of changes about one block leaves every other block alone. -/
theorem run_only {p p' : Plan} {acts : List Act} {eb b : BlockId}
    (hr : Transition.Run Change p acts p') (hacts : ∀ a ∈ acts, a.Only eb) (hb : b ≠ eb) :
    p.core.Keeps p'.core b :=
  run_keeps hr fun a ha he => hb ((hacts a ha).2 b he)

theorem run_sound {p p' : Plan} {acts : List Act} (hr : Transition.Run Change p acts p')
    (h : Sound p) : Sound p' :=
  hr.preserves (G := fun _ => True) (fun _ _ => trivial) (fun _ _ _ _ hs hc => hc.sound hs) h

end Plan
end SeClient
