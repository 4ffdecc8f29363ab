import SeClient.Devices

/-!
# Runs of the client

A run is any order of the operations of the scheduler, of `insert_event` and `next_event`,
and of what happens around them: the clock moves, responses of the server change the Stubs.
`Effect` says what one step does as changes of the board; in a tidy run the links stand for
a board all the time.
-/

namespace SeClient
open Transition

/-- The operations. -/
inductive Op
  | scheduleDer (edev : StubId)
  | scheduleEvent (s : ScheduleId) (event : StubId) (primacy : Nat)
  | eventUpdate (event : StubId)
  | updateSchedule (s : ScheduleId)
  | removePrograms (s : ScheduleId) (derpl : List StubId)
  | deleteBlocks (event : StubId)
  | insertEvent (data : EventData) (type : EventType) (time : Int)
  | nextEvent (e : Option Event)
  | environment
deriving DecidableEq, Repr

/-- An operation with the fuel its loops get. -/
structure Invocation where
  op : Op
  fuel : Nat
deriving DecidableEq, Repr

/-- What may happen between two operations.  The clock is set, timers and events about
Stubs come and go, objects are retrieved; of an event that a block or a Response is about
only the status changes. -/
structure Environment (c c' : Core) : Prop where
  block : c'.block = c.block
  schedule : c'.schedule = c.schedule
  data : ∀ e, (∃ b < c.freshBlock, (c.block b).event = e) ∨ (∃ r ∈ c.responses, r.event = e) →
    c'.data e = { c.data e with
      currentStatus := (c'.data e).currentStatus
      lFDI := (c'.data e).lFDI }
  lists : ∀ e, (c'.stub e).schedules = (c.stub e).schedules ∨ (c'.stub e).schedules = []
  imEvent : c'.imEvent.filter Event.ofBlock = c.imEvent.filter Event.ofBlock
  curEvent : c'.curEvent.filter Event.ofBlock = c.curEvent.filter Event.ofBlock
  responses : c'.responses = c.responses
  started : c'.started = c.started
  freshBlock : c'.freshBlock = c.freshBlock
  devices : c'.devices = c.devices
  freshDevice : c'.freshDevice = c.freshDevice

/-- One step of a run. -/
inductive Step (cl : Client) : World → Invocation → World → Prop
  | scheduleDer {w w' : World} {edev : StubId} {fuel : Nat} :
      w.scheduleDer cl fuel edev = some w' → Step cl w ⟨.scheduleDer edev, fuel⟩ w'
  | scheduleEvent {w w' : World} {s : ScheduleId} {event : StubId} {primacy fuel : Nat}
      {eb : BlockId} : s < w.core.freshDevice →
      w.scheduleEvent fuel s event primacy = some (w', eb) →
      Step cl w ⟨.scheduleEvent s event primacy, fuel⟩ w'
  | eventUpdate {w w' : World} {event : StubId} {fuel : Nat} :
      w.eventUpdate fuel event = some w' → Step cl w ⟨.eventUpdate event, fuel⟩ w'
  | updateSchedule {w w' : World} {s : ScheduleId} {fuel : Nat} :
      w.updateSchedule fuel s = some w' → Step cl w ⟨.updateSchedule s, fuel⟩ w'
  | removePrograms {w w' : World} {s : ScheduleId} {derpl : List StubId} {fuel : Nat} :
      w.removePrograms fuel s derpl = some w' → Step cl w ⟨.removePrograms s derpl, fuel⟩ w'
  | deleteBlocks {w : World} {event : StubId} {fuel : Nat} :
      Step cl w ⟨.deleteBlocks event, fuel⟩ ⟨w.links, w.core.deleteBlocks event⟩
  | insertEvent {w : World} {data : EventData} {type : EventType} {time : Int} {fuel : Nat} :
      (∀ b, data ≠ .block b) →
      Step cl w ⟨.insertEvent data type time, fuel⟩ ⟨w.links, w.core.insertEvent data type time⟩
  | nextEvent {w : World} {c : Core} {e : Option Event} {fuel : Nat} :
      w.core.nextEvent = (c, e) → Step cl w ⟨.nextEvent e, fuel⟩ ⟨w.links, c⟩
  | environment {w : World} {c : Core} {fuel : Nat} :
      Environment w.core c → Step cl w ⟨.environment, fuel⟩ ⟨w.links, c⟩

/-- The client before its first operation: no Schedule has a block. -/
structure World.Initial (w : World) : Prop where
  head : ∀ s n, w.links.head s n = none
  blocks : ∀ s, (w.core.schedule s).blocks = []
  device : ∀ s, w.core.freshDevice ≤ s → (w.core.schedule s).device = none
  apart : ∀ s s', (w.core.schedule s).device ≠ none →
    (w.core.schedule s).device = (w.core.schedule s').device → s = s'
  schedules : ∀ e, (w.core.stub e).schedules = []
  devices : ∀ d ∈ w.core.devices, d < w.core.freshDevice
  imEvent : w.core.imEvent = []
  curEvent : w.core.curEvent = []
  responses : w.core.responses = []
  started : w.core.started = []

/-- The calls of `schedule_event` in a step. -/
def World.calls (cl : Client) (w : World) (i : Invocation) : List EventCall :=
  match i.op with
  | .scheduleDer edev => w.derCalls cl i.fuel edev
  | .scheduleEvent s event primacy => [⟨w, s, event, primacy⟩]
  | _ => []

/-- The call `remove_programs (s, derpl)` in a step, on the memory `c`. -/
inductive World.Removes (cl : Client) (w : World) (i : Invocation) :
    Core → ScheduleId → List StubId → Prop
  | call {s : ScheduleId} {derpl : List StubId} : i.op = .removePrograms s derpl →
      Removes cl w i w.core s derpl
  | derive {edev fsa : StubId} {w₀ : World} {d : ScheduleId} : i.op = .scheduleDer edev →
      w.getDevice (w.core.data edev).sFDI = (w₀, d) →
      w₀.core.getSubordinate edev SeType.functionSetAssignmentsList = some fsa →
      Removes cl w i (w₀.withLFDI d edev) d (w₀.gonePrograms cl d edev fsa)

/-- The queues hold up: `schedule_event` is not called for a block that still is in a queue,
unless the block is done with, and no block that still is in a queue is freed. -/
structure World.Tidy (cl : Client) (w : World) (i : Invocation) : Prop where
  calls : ∀ x ∈ w.calls cl i, x.Tidy
  delete : ∀ event, i.op = .deleteBlocks event → ∀ s ∈ (w.core.stub event).schedules, ∀ eb,
    w.core.getBlock s event = some eb → w.Loose eb

/-! ## What a step does -/

/-- What a step does to the board and the memory. -/
inductive Effect (cl : Client) (w : World) (q : Board) : Invocation → Plan → Prop
  | ignore {edev : StubId} {fuel : Nat} {c : Core} : Still w.core c →
      w.derCalls cl fuel edev = [] →
      Effect cl w q ⟨.scheduleDer edev, fuel⟩ ⟨q, c⟩
  | derive {edev fsa : StubId} {d : ScheduleId} {fuel : Nat} {w₀ w' : World} {p : Plan}
      (r : World.Derivation w₀ q cl d edev fsa (w.derCalls cl fuel edev) w') :
      w.getDevice (w.core.data edev).sFDI = (w₀, d) →
      w₀.core.getSubordinate edev SeType.functionSetAssignmentsList = some fsa →
      Still w.core w₀.core → d < w₀.core.freshDevice → p.queue = r.late.queue → p.core = w'.core →
      Effect cl w q ⟨.scheduleDer edev, fuel⟩ p
  | admitted {s : ScheduleId} {event : StubId} {primacy fuel : Nat} {p : Plan} :
      Plan.Admission ⟨q, w.core⟩ ⟨w, s, event, primacy⟩ p →
      Effect cl w q ⟨.scheduleEvent s event primacy, fuel⟩ p
  | postpone {event : StubId} {fuel : Nat} {c : Core} :
      w.core.eventStatus event = .scheduled → Environment w.core c →
      Effect cl w q ⟨.eventUpdate event, fuel⟩ ⟨q, c⟩
  | activate {event : StubId} {fuel : Nat} {p : Plan} : w.core.eventStatus event = .active →
      Run Plan.Change ⟨q, w.core⟩ (w.core.activateBlocksActs event) p →
      Effect cl w q ⟨.eventUpdate event, fuel⟩ p
  | remove {event : StubId} {fuel : Nat} {p : Plan} {response : ResponseType} :
      (w.core.eventStatus event = .canceled ∨ w.core.eventStatus event = .canceledRandom) ∧
        response = .eventCanceled ∨
      w.core.eventStatus event = .superseded ∧ response = .eventSuperseded →
      Run Plan.Change ⟨q, w.core⟩ (w.core.removeBlocksActs event response) p →
      Effect cl w q ⟨.eventUpdate event, fuel⟩ p
  | settled {event : StubId} {fuel : Nat} : Effect cl w q ⟨.eventUpdate event, fuel⟩ ⟨q, w.core⟩
  | update {s : ScheduleId} {fuel : Nat} {w' : World} {p : Plan}
      (r : World.Update w q s fuel w') : p.queue = r.final.queue → p.core = w'.core →
      Effect cl w q ⟨.updateSchedule s, fuel⟩ p
  | abort {s : ScheduleId} {derpl : List StubId} {fuel : Nat} {p : Plan} :
      Run Plan.Change ⟨q, w.core⟩ (w.core.removeProgramsActs s derpl) p →
      Effect cl w q ⟨.removePrograms s derpl, fuel⟩ p
  | delete {event : StubId} {fuel : Nat} {p : Plan} :
      Run Plan.Change ⟨q, w.core⟩ (w.core.deleteBlocksActs event) p →
      Effect cl w q ⟨.deleteBlocks event, fuel⟩ p
  | insert {data : EventData} {type : EventType} {time : Int} {fuel : Nat} {c : Core} :
      Quiet w.core c → Effect cl w q ⟨.insertEvent data type time, fuel⟩ ⟨q, c⟩
  | next {e : Option Event} {fuel : Nat} {c : Core} : w.core.nextEvent = (c, e) →
      Effect cl w q ⟨.nextEvent e, fuel⟩ ⟨q, c⟩
  | environment {fuel : Nat} {c : Core} : Environment w.core c →
      Effect cl w q ⟨.environment, fuel⟩ ⟨q, c⟩

namespace Environment
variable {c c' : Core}

theorem sound {q : Board} (h : Environment c c') (hs : Plan.Sound ⟨q, c⟩) :
    Plan.Sound ⟨q, c'⟩ where
  fits hb := by rw [h.block]; exact hs.fits hb
  home hb := by rw [h.schedule]; exact hs.home hb
  nodup s := by rw [h.schedule]; exact hs.nodup s
  once hb hb' := by rw [h.schedule] at hb hb'; exact hs.once hb hb'
  alloc hb := by rw [h.schedule] at hb; rw [h.freshBlock]; exact hs.alloc hb
  fresh s hs' := by rw [h.schedule]; exact hs.fresh s (h.freshDevice ▸ hs')
  lists e := by
    rcases h.lists e with he | he <;> rw [he]
    · exact hs.lists e
    · exact List.nodup_nil
  devices := by rw [h.devices, h.freshDevice]; exact hs.devices

/-- `event_update` of an event that has not started sets the clock back and tries again. -/
theorem postpone (c : Core) (offset sync : Int) (event : StubId) (time : Int) :
    Environment c (Core.insertEvent { c with seTimeOffset := offset, syncTime := sync }
      (.stub event) .resourceUpdate time) := by
  have h := Quiet.insertEvent (c := { c with seTimeOffset := offset, syncTime := sync })
    (d := .stub event) (fun _ => EventData.noConfusion) .resourceUpdate time
  unfold Core.insertEvent at h ⊢
  dsimp only at h ⊢
  split <;> rename_i ht
  · rw [if_pos ht] at h
    exact ⟨rfl, rfl, fun _ _ => rfl, fun _ => Or.inl rfl, h.imEvent, rfl, rfl, rfl, rfl, rfl, rfl⟩
  · rw [if_neg ht] at h
    exact ⟨rfl, rfl, fun _ _ => rfl, fun _ => Or.inl rfl, rfl, h.curEvent, rfl, rfl, rfl, rfl, rfl⟩

end Environment

/-- An event is taken from the queue it is at the head of. -/
theorem Core.nextEvent_spec {c c' : Core} {e : Option Event} (h : c.nextEvent = (c', e)) :
    (e = none ∧ c' = c) ∨
      (∃ x im, e = some x ∧ c.imEvent = x :: im ∧ c' = { c with imEvent := im }) ∨
      ∃ x cur, e = some x ∧ c.imEvent = [] ∧ c.curEvent = x :: cur ∧ x.time ≤ c.seTime ∧
        c' = { c with curEvent := cur } := by
  unfold Core.nextEvent at h
  split at h
  · rename_i x im him
    obtain ⟨rfl, rfl⟩ := Prod.mk.inj h
    exact Or.inr (Or.inl ⟨x, im, rfl, him, rfl⟩)
  · rename_i him
    split at h
    · obtain ⟨rfl, rfl⟩ := Prod.mk.inj h
      exact Or.inl ⟨rfl, rfl⟩
    · rename_i x cur hcur
      split at h
      · rename_i hle
        obtain ⟨rfl, rfl⟩ := Prod.mk.inj h
        exact Or.inr (Or.inr ⟨x, cur, rfl, him, hcur, hle, rfl⟩)
      · obtain ⟨rfl, rfl⟩ := Prod.mk.inj h
        exact Or.inl ⟨rfl, rfl⟩

namespace Step
variable {cl : Client} {w w' : World} {i : Invocation} {q : Board}

/-- **What a tidy step does.** -/
theorem effect (h : Step cl w i w') (ht : w.Tidy cl i) (hr : w.links.Represents q)
    (hs : Plan.Sound ⟨q, w.core⟩) :
    ∃ q', w'.links.Represents q' ∧ Effect cl w q i ⟨q', w'.core⟩ := by
  cases h with
  | @scheduleDer _ edev fuel hres =>
    obtain ⟨hlinks, hstill, hd⟩ := World.getDevice_spec hr hs (w.core.data edev).sFDI
    have h := World.scheduleDer_run hr hs ht.calls hres
    dsimp only at h
    split at h
    · rename_i hsub
      rw [h, hlinks]
      exact ⟨q, hr, Effect.ignore hstill (World.derCalls_nil hsub)⟩
    · rename_i fsa hsub
      obtain ⟨r⟩ := h
      exact ⟨r.late.queue, r.rep, Effect.derive r rfl hsub hstill hd rfl rfl⟩
  | @scheduleEvent _ s event primacy fuel eb hd hres =>
    obtain ⟨acts, q', hrep, hacts, hrun⟩ := World.scheduleEvent_run hr hs hd
      (ht.calls _ (List.mem_singleton.mpr rfl)) hres
    refine ⟨q', hrep, Effect.admitted ⟨rfl, hr, hd, acts, [], hacts, by simp, ?_⟩⟩
    rw [List.append_nil]
    exact hrun
  | @eventUpdate _ event fuel hres =>
    unfold World.eventUpdate at hres
    split at hres
    · rename_i hst
      dsimp only at hres
      split at hres
      · rw [← Option.some.inj hres]
        exact ⟨q, hr, Effect.postpone hst (Environment.postpone ..)⟩
      · rw [← Option.some.inj hres]
        exact ⟨q, hr, Effect.postpone hst
          (Environment.postpone w.core w.core.seTimeOffset w.core.syncTime event _)⟩
    · rename_i hst
      obtain ⟨c, hactivate, rfl⟩ := Option.map_eq_some_iff.mp hres
      obtain ⟨q', hrep, hrun⟩ := World.activateBlocks_run hr hs hactivate
      exact ⟨q', hrep, Effect.activate hst hrun⟩
    · rename_i hst
      obtain ⟨q', hrep, hrun⟩ := World.removeBlocks_run hr hs hres
      exact ⟨q', hrep, Effect.remove (Or.inl ⟨Or.inl hst, rfl⟩) hrun⟩
    · rename_i hst
      obtain ⟨q', hrep, hrun⟩ := World.removeBlocks_run hr hs hres
      exact ⟨q', hrep, Effect.remove (Or.inl ⟨Or.inr hst, rfl⟩) hrun⟩
    · rename_i hst
      obtain ⟨q', hrep, hrun⟩ := World.removeBlocks_run hr hs hres
      exact ⟨q', hrep, Effect.remove (Or.inr ⟨hst, rfl⟩) hrun⟩
    · rw [← Option.some.inj hres]
      exact ⟨q, hr, Effect.settled⟩
  | updateSchedule hres =>
    obtain ⟨r⟩ := World.updateSchedule_run hr hs hres
    exact ⟨r.final.queue, r.rep, Effect.update r rfl rfl⟩
  | removePrograms hres =>
    obtain ⟨q', hrep, hrun⟩ := World.removePrograms_run hr hs hres
    exact ⟨q', hrep, Effect.abort hrun⟩
  | deleteBlocks =>
    exact ⟨q, hr, Effect.delete (World.deleteBlocks_run hs fun s hs' eb heb =>
      (World.loose_iff hr hs eb).mp (ht.delete _ rfl s hs' eb heb))⟩
  | insertEvent hd => exact ⟨q, hr, Effect.insert (Quiet.insertEvent hd _ _)⟩
  | nextEvent hnext => exact ⟨q, hr, Effect.next hnext⟩
  | environment henv => exact ⟨q, hr, Effect.environment henv⟩

end Step

namespace Effect
variable {cl : Client} {w : World} {q : Board} {i : Invocation} {p : Plan}

/-- **Every step keeps the plan sound.** -/
theorem sound (h : Effect cl w q i p) (hs : Plan.Sound ⟨q, w.core⟩) : p.Sound := by
  have hchange : ∀ {p₁ p₂ acts}, Run Plan.Change p₁ acts p₂ → p₁.Sound → p₂.Sound :=
    fun hrun h => Plan.run_sound hrun h
  cases h with
  | ignore h => exact hs.still h
  | @derive edev fsa d fuel w₀ w' p r _ _ h hd hq hc =>
    have hs₁ := hchange r.remove ((hs.still h).still (w₀.withLFDI_quiet d edev).toStill)
    have hd₁ : d < r.kept.core.freshDevice := Nat.lt_of_lt_of_le
      (Nat.lt_of_lt_of_le hd (w₀.withLFDI_quiet d edev).freshDevice) (Plan.run_freshDevice r.remove)
    have hs₂ : Plan.Sound ⟨World.cleared r.kept.queue d, r.kept.core⟩ :=
      ((hs₁.shrink (n := .scheduled) (l := []) (by simp)).shrink (n := .active) (l := [])
        (by simp)).shrink (n := .superseded) (l := []) (by simp)
    have hs₃ : r.late.Sound := r.admitted.preserves (G := fun _ => True) (J := Plan.Sound)
      (fun _ _ => trivial) (fun _ _ _ _ h ha => ha.sound h) ((Plan.Change.assign hd₁).sound hs₂)
    obtain ⟨q', c'⟩ := p
    dsimp only at hq hc
    subst hq hc
    exact hs₃.still r.finish.toStill
  | admitted h => exact h.sound hs
  | postpone _ h => exact h.sound hs
  | activate _ h => exact hchange h hs
  | remove _ h => exact hchange h hs
  | settled => exact hs
  | @update s fuel w' p r hq hc =>
    have hs₁ := hchange r.expire hs
    have hs₂ : r.late.Sound := r.promote.preserves (G := fun _ => True) (J := Plan.Sound)
      (fun _ _ => trivial) (fun _ _ _ _ h hp => hp.sound h) hs₁
    obtain ⟨q', c'⟩ := p
    dsimp only at hq hc
    subst hq hc
    rw [r.arm]
    exact (hchange r.retire hs₂).still (Still.armTimer s _)
  | abort h => exact hchange h hs
  | delete h => exact hchange h hs
  | insert h => exact hs.still h.toStill
  | next h =>
    rcases Core.nextEvent_spec h with ⟨_, rfl⟩ | ⟨_, _, _, _, rfl⟩ | ⟨_, _, _, _, _, _, rfl⟩
    · exact hs
    · exact ⟨hs.fits, hs.home, hs.nodup, hs.once, hs.alloc, hs.fresh, hs.lists, hs.devices⟩
    · exact ⟨hs.fits, hs.home, hs.nodup, hs.once, hs.alloc, hs.fresh, hs.lists, hs.devices⟩
  | environment h => exact h.sound hs

/-! ## The changes of a step -/

/-- The changes that a step other than `next_event` and the environment may consist of. -/
inductive Does (cl : Client) (w : World) (q : Board) (i : Invocation) : Act → Prop
  | frame {a : Act} : a.Plain → a.subject = none → Does cl w q i a
  | assign {edev fsa : StubId} {w₀ : World} {d : ScheduleId} : i.op = .scheduleDer edev →
      w.getDevice (w.core.data edev).sFDI = (w₀, d) →
      w₀.core.getSubordinate edev SeType.functionSetAssignmentsList = some fsa →
      Does cl w q i (.assign d edev)
  | admitted {x : EventCall} {q' : Board} {acts : List Act} {a : Act} : x ∈ w.calls cl i →
      x.world.links.Represents q' → Plan.Sound ⟨q', x.world.core⟩ →
      x.world.core.seTime = w.core.seTime → x.Acts q' acts → a ∈ acts → Does cl w q i a
  | promote {s : ScheduleId} {call : Call} {p : Plan} {a : Act} : i.op = .updateSchedule s →
      call ∈ w.updateCalls i.fuel s → p.Sound → p.core = call.core →
      call.block ∈ p.queue s .scheduled → (∀ b ∈ call.active, b ∈ p.queue s .active) →
      (call.core.block call.block).start ≤ w.core.seTime → call.core.seTime = w.core.seTime →
      a ∈ call.core.insertActiveActs s call.block call.active → Does cl w q i a
  | expire {s : ScheduleId} {a : Act} : i.op = .updateSchedule s →
      a ∈ w.core.expireActs s w.core.seTime (q s .active) → Does cl w q i a
  | retire {s : ScheduleId} {a : Act} : i.op = .updateSchedule s →
      a ∈ w.core.retireActs s w.core.seTime (q s .superseded) → Does cl w q i a
  | activate {event : StubId} {a : Act} : i.op = .eventUpdate event →
      w.core.eventStatus event = .active → a ∈ w.core.activateBlocksActs event →
      Does cl w q i a
  | remove {event : StubId} {response : ResponseType} {a : Act} : i.op = .eventUpdate event →
      (w.core.eventStatus event = .canceled ∨ w.core.eventStatus event = .canceledRandom) ∧
          response = .eventCanceled ∨
        w.core.eventStatus event = .superseded ∧ response = .eventSuperseded →
      a ∈ w.core.removeBlocksActs event response → Does cl w q i a
  | abort {c : Core} {s : ScheduleId} {derpl : List StubId} {a : Act} :
      w.Removes cl i c s derpl → Still w.core c → a ∈ c.removeProgramsActs s derpl →
      Does cl w q i a
  | delete {event : StubId} {a : Act} : i.op = .deleteBlocks event →
      a ∈ w.core.deleteBlocksActs event → Does cl w q i a

theorem does_quiet : Does cl w q i .quiet := Does.frame trivial rfl

theorem does_signal : Does cl w q i .signal := Does.frame trivial rfl

theorem does_of_mem_clearActs {q' : Board} {s : ScheduleId} {a : Act}
    (h : a ∈ World.clearActs q' s) : Does cl w q i a := by
  simp only [World.clearActs, List.mem_cons, List.not_mem_nil, or_false] at h
  rcases h with rfl | rfl | rfl <;> exact Does.frame trivial rfl

/-- The calls of `schedule_event` in a step, as changes. -/
theorem run_admission {p₁ p₂ : Plan} {calls : List EventCall}
    (h : Run Plan.Admission p₁ calls p₂) (hcalls : ∀ x ∈ calls, x ∈ w.calls cl i)
    (hs : p₁.Sound) (htime : p₁.core.seTime = w.core.seTime) :
    ∃ acts, Run Plan.Change p₁ acts p₂ ∧ ∀ a ∈ acts, Does cl w q i a := by
  refine (h.flatten (S := Plan.Change) (G := Does cl w q i)
    (J := fun p => p.Sound ∧ p.core.seTime = w.core.seTime) ⟨hs, htime⟩ ?_).2
  rintro ⟨q₁, c₁⟩ x p hx ⟨hs₁, ht₁⟩ ha
  obtain ⟨acts, note, hacts, hnote, hrun⟩ := ha.run
  have hcore : c₁ = x.world.core := ha.core
  subst hcore
  refine ⟨⟨ha.sound hs₁, (Plan.run_ambient hrun).seTime.trans ht₁⟩, _, hrun, fun a hmem => ?_⟩
  rcases List.mem_append.mp hmem with hmem | hmem
  · exact Does.admitted (hcalls x hx) ha.rep hs₁ ht₁ hacts hmem
  · rw [hnote a hmem]; exact does_quiet

/-- `next_event` is the only step that takes an event. -/
theorem of_next {e : Option Event} (h : Effect cl w q i p) (hop : i.op = .nextEvent e) :
    p.queue = q ∧ w.core.nextEvent = (p.core, e) := by
  cases h with
  | next h =>
    obtain rfl := Op.nextEvent.inj hop
    exact ⟨rfl, h⟩
  | _ => cases hop

/-- **Every step is a run of changes**, the clock's and the event loop's steps apart. -/
theorem run (h : Effect cl w q i p) (hs : Plan.Sound ⟨q, w.core⟩)
    (hop : ∀ e, i.op ≠ .nextEvent e) :
    (p.queue = q ∧ Environment w.core p.core) ∨
      ∃ acts, Run Plan.Change ⟨q, w.core⟩ acts p ∧ ∀ a ∈ acts, Does cl w q i a := by
  cases h with
  | ignore h =>
    exact Or.inr ⟨[.signal], Run.single (Plan.Change.signal h), by simp [does_signal]⟩
  | @derive edev fsa d fuel w₀ w' p r hget hfsa hstill hd hq hc =>
    have hquiet := w₀.withLFDI_quiet d edev
    have hs₁ : Plan.Sound ⟨q, w₀.withLFDI d edev⟩ := (hs.still hstill).still hquiet.toStill
    have hs₂ := Plan.run_sound r.remove hs₁
    have hd₂ : d < r.kept.core.freshDevice :=
      Nat.lt_of_lt_of_le hd (Nat.le_trans hquiet.freshDevice (Plan.run_freshDevice r.remove))
    have hclear : Run Plan.Change r.kept (World.clearActs r.kept.queue d)
        ⟨World.cleared r.kept.queue d, r.kept.core⟩ := World.clear_run r.kept d
    have hassign : Plan.Change ⟨World.cleared r.kept.queue d, r.kept.core⟩ (.assign d edev)
        ⟨World.cleared r.kept.queue d, r.kept.core.assign d edev⟩ := Plan.Change.assign hd₂
    have htime : r.kept.core.seTime = w.core.seTime :=
      (Plan.run_ambient r.remove).seTime.trans (hquiet.seTime.trans hstill.seTime)
    obtain ⟨acts, hrun, hacts⟩ := run_admission (q := q) (i := ⟨.scheduleDer edev, fuel⟩) r.admitted
      (fun x hx => hx) (hassign.sound (Plan.run_sound hclear hs₂)) htime
    have hfinish : Plan.Change r.late .quiet p := by
      obtain ⟨q', c'⟩ := p
      dsimp only at hq hc
      subst hq hc
      exact Plan.Change.quiet r.finish
    refine Or.inr ⟨_, Run.cons (Plan.Change.signal hstill) (Run.cons
      (Plan.Change.quiet hquiet) (r.remove.trans (hclear.trans (Run.cons hassign
        (hrun.snoc hfinish))))), fun a ha => ?_⟩
    simp only [List.mem_cons, List.mem_append, List.not_mem_nil, or_false] at ha
    rcases ha with rfl | rfl | ha | ha | rfl | ha | rfl
    · exact does_signal
    · exact does_quiet
    · exact Does.abort (World.Removes.derive rfl hget hfsa) (hstill.trans hquiet.toStill) ha
    · exact does_of_mem_clearActs ha
    · exact Does.assign rfl hget hfsa
    · exact hacts a ha
    · exact does_quiet
  | @admitted s event primacy fuel p h =>
    exact Or.inr (run_admission (Run.single h) (fun x hx => hx) hs rfl)
  | postpone _ h => exact Or.inl ⟨rfl, h⟩
  | activate hst h => exact Or.inr ⟨_, h, fun a ha => Does.activate rfl hst ha⟩
  | remove hst h => exact Or.inr ⟨_, h, fun a ha => Does.remove rfl hst ha⟩
  | settled => exact Or.inr ⟨[], Run.nil, by simp⟩
  | @update s fuel w' p r hq hc =>
    have hs₁ := Plan.run_sound r.expire hs
    have htime₁ := (Plan.run_ambient r.expire).seTime
    have hpromote := r.promote.flatten (S := Plan.Change)
      (G := Does cl w q ⟨.updateSchedule s, fuel⟩)
      (J := fun p => p.Sound ∧ p.core.seTime = w.core.seTime) ⟨hs₁, htime₁⟩
      fun p₁ call p₂ hcall ⟨hs₂, ht₂⟩ hp => by
        refine ⟨⟨hp.sound hs₂, (Plan.run_ambient hp.run).seTime.trans ht₂⟩, _, hp.run,
          fun a ha => ?_⟩
        rcases List.mem_cons.mp ha with rfl | ha
        · exact Does.frame trivial rfl
        · obtain ⟨l, hl⟩ := hp.head
          refine Does.promote rfl hcall hs₂ hp.core (by rw [hl]; simp) (fun b hb => ?_) ?_ ?_ ha
          · rw [hp.active]; exact hb
          · rw [← hp.core]; exact hp.due
          · rw [← hp.core]; exact ht₂
    obtain ⟨_, acts, hrun, hacts⟩ := hpromote
    have harm : Plan.Change r.final .signal p := by
      obtain ⟨q', c'⟩ := p
      dsimp only at hq hc
      subst hq hc
      rw [r.arm]
      exact Plan.Change.signal (Still.armTimer s _)
    refine Or.inr ⟨_, r.expire.trans (hrun.trans (r.retire.snoc harm)), fun a ha => ?_⟩
    simp only [List.mem_append, List.mem_cons, List.not_mem_nil, or_false] at ha
    rcases ha with ha | ha | ha | rfl
    · exact Does.expire rfl ha
    · exact hacts a ha
    · exact Does.retire rfl ha
    · exact does_signal
  | abort h =>
    exact Or.inr ⟨_, h, fun a ha => Does.abort (World.Removes.call rfl) (Still.refl _) ha⟩
  | delete h => exact Or.inr ⟨_, h, fun a ha => Does.delete rfl ha⟩
  | insert h =>
    exact Or.inr ⟨[.quiet], Run.single (Plan.Change.quiet h), by simp [does_quiet]⟩
  | next => exact absurd rfl (hop _)
  | environment h => exact Or.inl ⟨rfl, h⟩

end Effect

/-! ## Runs -/

namespace World.Initial
variable {w : World}

theorem represents (h : w.Initial) : w.links.Represents fun _ _ => [] where
  linked s n := h.head s n
  nodup _ _ := List.nodup_nil
  once hb := absurd hb List.not_mem_nil

theorem sound (h : w.Initial) : Plan.Sound ⟨fun _ _ => [], w.core⟩ where
  fits hb := absurd hb List.not_mem_nil
  home hb := absurd hb List.not_mem_nil
  nodup s := by rw [h.blocks]; exact List.nodup_nil
  once hb := by rw [h.blocks] at hb; exact absurd hb List.not_mem_nil
  alloc hb := by rw [h.blocks] at hb; exact absurd hb List.not_mem_nil
  fresh s hs := ⟨h.blocks s, h.device s hs⟩
  lists e := by rw [h.schedules]; exact List.nodup_nil
  devices := h.devices

end World.Initial

/-- **The induction rule of client runs.**  While the steps are tidy the links stand for a
sound board, and an invariant of the board, the memory and the history follows from what
one step does. -/
theorem run_invariant_from {cl : Client} {ok : World → Invocation → Prop}
    {J : List Invocation → Plan → Prop} {w₀ w : World} {q₀ : Board} {is : List Invocation}
    (h : Run (Guarded (Step cl) ok) w₀ is w) (hr₀ : w₀.links.Represents q₀)
    (hs₀ : Plan.Sound ⟨q₀, w₀.core⟩) (htidy : ∀ w i, ok w i → w.Tidy cl i)
    (hJ₀ : J [] ⟨q₀, w₀.core⟩)
    (hstep : ∀ is w i q p, ok w i → w.links.Represents q → Plan.Sound ⟨q, w.core⟩ →
      Effect cl w q i p → J is ⟨q, w.core⟩ → J (is ++ [i]) p) :
    ∃ q, w.links.Represents q ∧ Plan.Sound ⟨q, w.core⟩ ∧ J is ⟨q, w.core⟩ := by
  refine h.invariant (J := fun is w => ∃ q, w.links.Represents q ∧ Plan.Sound ⟨q, w.core⟩ ∧
    J is ⟨q, w.core⟩) ⟨q₀, hr₀, hs₀, hJ₀⟩ ?_
  rintro is w i w' ⟨q, hr, hs, hJ⟩ ⟨hok, hi⟩
  obtain ⟨q', hr', heff⟩ := hi.effect (htidy w i hok) hr hs
  exact ⟨q', hr', heff.sound hs, hstep is w i q _ hok hr hs heff hJ⟩

/-- The induction rule, for runs from an initial state. -/
theorem run_invariant {cl : Client} {ok : World → Invocation → Prop}
    {J : List Invocation → Plan → Prop} {w₀ w : World} {is : List Invocation}
    (h : Run (Guarded (Step cl) ok) w₀ is w) (h₀ : w₀.Initial)
    (htidy : ∀ w i, ok w i → w.Tidy cl i) (hJ₀ : J [] ⟨fun _ _ => [], w₀.core⟩)
    (hstep : ∀ is w i q p, ok w i → w.links.Represents q → Plan.Sound ⟨q, w.core⟩ →
      Effect cl w q i p → J is ⟨q, w.core⟩ → J (is ++ [i]) p) :
    ∃ q, w.links.Represents q ∧ Plan.Sound ⟨q, w.core⟩ ∧ J is ⟨q, w.core⟩ :=
  run_invariant_from h h₀.represents h₀.sound htidy hJ₀ hstep

/-! ## A client to start from -/

/-- A client without an application. -/
def Client.idle : Client where
  compareKeys _ _ _ := 0
  resolve _ _ := none
  dep _ _ := []
  target path := path
  pointerBytes _ := ""

/-- A client with one DerDevice, number 0, whose EndDevice is Stub 0. -/
def World.boot (stub : StubId → Stub) (time : Int) (rand : List Nat := []) : World where
  links := ⟨fun _ => none, fun _ _ => none⟩
  core :=
    { stub
      block := fun _ => {}
      schedule := fun s => if s = 0 then { device := some 0 } else {}
      device := fun _ => {}
      devices := [0]
      imEvent := []
      curEvent := []
      responses := []
      requests := []
      completions := []
      started := []
      resources := fun _ => none
      stubNext := fun _ => none
      time
      seTimeOffset := 0
      syncTime := 0
      activePollRate := 300
      rand
      freshStub := 8
      freshBlock := 0
      freshDevice := 1 }

theorem World.boot_initial {stub : StubId → Stub} (time : Int) (rand : List Nat)
    (hs : ∀ e, (stub e).schedules = []) : (World.boot stub time rand).Initial where
  head _ _ := rfl
  blocks s := by
    unfold boot
    dsimp only
    split <;> rfl
  device s hs := by
    unfold boot at hs ⊢
    dsimp only at hs ⊢
    rw [if_neg (Nat.ne_of_gt hs)]
  apart s s' hs he := by
    unfold boot at hs he
    by_cases h : s = 0 <;> by_cases h' : s' = 0 <;> simp_all
  schedules := hs
  devices d hd := by rw [List.mem_singleton.mp hd]; exact Nat.zero_lt_one
  imEvent := rfl
  curEvent := rfl
  responses := rfl
  started := rfl

/-- The Stub of a DERControl. -/
def Stub.control (mRID : Nat) (status : EventStatus) (start : Int) (duration : Nat) : Stub :=
  { type := SeType.derControl
    status := 200
    pollRate := 900
    data := some { mRID, currentStatus := status, start, duration, responseRequired := 3 } }

/-- A call that returns is a step. -/
theorem Step.of_isSome {cl : Client} {w : World} {s : ScheduleId} {event : StubId}
    {primacy fuel : Nat} (hs : s < w.core.freshDevice)
    (h : (w.scheduleEvent fuel s event primacy).isSome) :
    Step cl w ⟨.scheduleEvent s event primacy, fuel⟩
      ((w.scheduleEvent fuel s event primacy).get h).1 :=
  let r := (w.scheduleEvent fuel s event primacy).get h
  have hr : w.scheduleEvent fuel s event primacy = some (r.1, r.2) := (Option.some_get h).symm
  Step.scheduleEvent hs hr

end SeClient
