import SeClient.Removal

/-!
# Scheduling an event

`schedule_event` registers a new event or finds the block of a known one, and places the
block according to the status of the event.
-/

namespace SeClient
open Transition

namespace Core
variable (c : Core)

/-- What `schedule_event` does with a block whose status is not terminal, on a board `q`. -/
def placeActs (q : Board) (s : ScheduleId) (event : StubId) (eb : BlockId) : List Act :=
  match c.eventStatus event with
  | .scheduled =>
    if (c.block eb).status ≠ .activeWait then c.insertBlockActs s eb (q s .scheduled)
    else c.insertActiveActs s eb (q s .active)
  | .active => c.insertActiveActs s eb (q s .active)
  | .canceled =>
    [.touch (c.ended s eb .canceled (c.posted (c.schedule s).device event .eventCanceled))]
  | .canceledRandom =>
    [.touch (c.ended s eb .canceledRandom (c.posted (c.schedule s).device event .eventCanceled))]
  | .superseded =>
    [.touch (c.ended s eb .superseded (c.posted (c.schedule s).device event .eventSuperseded))]
  | _ => []

/-- The block of an event that is known already gets the primacy of its program. -/
def withPrimacy (eb : BlockId) (primacy : Nat) : Core :=
  c.modifyBlock eb fun b => { b with primacy := primacy % 256 }

variable {c} {s : ScheduleId} {event : StubId} {eb : BlockId}

theorem withPrimacy_quiet (eb : BlockId) (primacy : Nat) : Quiet c (c.withPrimacy eb primacy) :=
  Quiet.modifyBlock fun _ => ⟨rfl, rfl, rfl, rfl⟩

theorem randBound_quiet {bound x : Int} {c' : Core} (h : c.randBound bound = some (c', x)) :
    Quiet c c' := by
  unfold randBound at h
  split at h
  · rw [← (Prod.mk.inj (Option.some.inj h)).1]; exact Quiet.refl c
  · obtain ⟨r, _, hr⟩ := Option.map_eq_some_iff.mp h
    rw [← (Prod.mk.inj hr).1]
    exact { Still.refl c with timer := fun e he => he, next := fun _ => rfl }

/-- `new_block` draws random numbers and fills in a fresh block. -/
theorem newBlock_spec {primacy : Nat} {c' : Core} (h : c.newBlock event primacy = some (c', eb)) :
    ∃ c₁ block, Quiet c c₁ ∧ eb = c₁.freshBlock ∧ block.event = event ∧
      block.status = .scheduled ∧
      (∃ r, c.randomizeStart event = some r ∧ block.start = (c.data event).start + r.2) ∧
      c' = { c₁ with
        block := Function.update c₁.block c₁.freshBlock block
        freshBlock := c₁.freshBlock + 1 } := by
  unfold newBlock at h
  obtain ⟨⟨c₁, x⟩, h₁, h⟩ := Option.bind_eq_some_iff.mp h
  obtain ⟨⟨c₂, y⟩, h₂, h⟩ := Option.bind_eq_some_iff.mp h
  obtain ⟨hc', rfl⟩ := Prod.mk.inj (Option.some.inj h)
  have hq₁ : Quiet c c₁ := by
    unfold randomizeStart at h₁
    split at h₁
    · exact randBound_quiet h₁
    · rw [← (Prod.mk.inj (Option.some.inj h₁)).1]; exact Quiet.refl c
  have hq₂ : Quiet c₁ c₂ := by
    unfold randomizeDuration at h₂
    split at h₂
    · exact randBound_quiet h₂
    · rw [← (Prod.mk.inj (Option.some.inj h₂)).1]; exact Quiet.refl c₁
  exact ⟨c₂, _, hq₁.trans hq₂, rfl, rfl, rfl, ⟨_, h₁, rfl⟩, hc'.symm⟩

/-- Random numbers do not depend on what a Stub is scheduled for. -/
theorem randomizeStart_modifyStub {f : Stub → Stub} (htype : (f (c.stub event)).type = c.type event)
    (hdata : (f (c.stub event)).data = (c.stub event).data) :
    ((c.modifyStub event f).randomizeStart event).map Prod.snd =
      (c.randomizeStart event).map Prod.snd := by
  have ht : (c.modifyStub event f).type event = c.type event := by
    unfold Core.type
    rw [modifyStub_same, htype]
    rfl
  have hd : (c.modifyStub event f).data event = c.data event := by
    unfold Core.data
    rw [modifyStub_same, hdata]
  unfold randomizeStart
  rw [ht, hd]
  split
  · unfold randBound
    split
    · rfl
    · rw [Option.map_map, Option.map_map]
      rfl
  · rfl

theorem insertUnique_nodup {l : List Nat} {s : Nat} (h : l.Nodup) : (insertUnique l s).Nodup := by
  unfold insertUnique
  split
  · exact h
  · rename_i hs; exact List.nodup_cons.mpr ⟨hs, h⟩

/-- A Response is posted about a block. -/
theorem respond_eq (c : Core) (s : ScheduleId) (eb : BlockId) (responses : List Response) :
    { c with responses := c.responses ++ responses } =
      c.touch (c.turn s eb (c.block eb).status none responses) := by
  unfold touch turn starts
  simp

/-- A block gets a new status and a Response is posted about it. -/
theorem settle_eq (c : Core) (s : ScheduleId) (eb : BlockId) (status : EventStatus)
    (device : Option StubId) (event : StubId) (response : ResponseType) :
    (c.modifyBlock eb fun b => { b with status := status }).deviceResponse device event response =
      c.touch (c.turn s eb status none (c.posted device event response)) := by
  rw [deviceResponse_eq]
  unfold touch turn starts
  simp [modifyBlock, posted, Core.data]

/-- What `schedule_event` does to register a new event, where `t` posts EventReceived and
`responses` are posted when the event has ended already. -/
def registerActs (s : ScheduleId) (eb : BlockId) (event : StubId) (t : Touch) (expired : Bool)
    (responses : List Response) : List Act :=
  [.quiet, .register s eb event, .touch t] ++
    if expired then [.touch { t with status := .completed, posted := responses }] else []

/-- What there is to know about the registration of a new event. -/
structure Registration (c : Core) (q : Board) (s : ScheduleId) (event : StubId) (eb : BlockId)
    (expired : Bool) (c' : Core) where
  notice : Touch
  responses : List Response
  sched : notice.sched = s
  block : notice.block = eb
  found : notice.found = .scheduled
  status : notice.status = .scheduled
  mark : notice.mark = none
  start : notice.start = (c'.block eb).start
  stop : notice.stop = (c'.block eb).stop
  run : Run Plan.Change ⟨q, c⟩ (registerActs s eb event notice expired responses) ⟨q, c'⟩
  fresh : eb = c.freshBlock
  blockEvent : (c'.block eb).event = event
  blockStatus : (c'.block eb).status = if expired then .completed else .scheduled
  home : eb ∈ (c'.schedule s).blocks
  loose : q.Loose eb
  received : ∀ r ∈ notice.posted, r.status = .eventReceived
  late : ∀ r ∈ responses, r.status = .eventExpired
  brief : responses.length ≤ 1
  elapsed : expired = decide ((c'.block eb).stop ≤ c.seTime)
  drawn : ∃ r, c.randomizeStart event = some r ∧ (c'.block eb).start = (c.data event).start + r.2

/-- **Registering a new event.** -/
theorem registerEvent_run {q : Board} {primacy : Nat} {c' : Core} {expired : Bool}
    (hs : Plan.Sound ⟨q, c⟩) (hexists : s < c.freshDevice) (hnone : c.getBlock s event = none)
    (h : c.registerEvent s event primacy = some (c', eb, expired)) :
    Nonempty (Registration c q s event eb expired c') := by
  unfold registerEvent at h
  obtain ⟨⟨c₂, eb'⟩, hnew, h⟩ := Option.bind_eq_some_iff.mp h
  obtain ⟨c₁, block, hq₁, rfl, hevent, hstatus, ⟨x, hx, hxstart⟩, rfl⟩ := newBlock_spec hnew
  have hdrawn : ∃ r, c.randomizeStart event = some r ∧
      block.start = (c.data event).start + r.2 := by
    have hsame : _ = (c.randomizeStart event).map Prod.snd :=
      randomizeStart_modifyStub (f := fun t => { t with
        schedules := insertUnique t.schedules s
        completion := some .eventUpdate }) rfl rfl
    rw [hx] at hsame
    obtain ⟨r, hr, hrx⟩ := Option.map_eq_some_iff.mp hsame.symm
    refine ⟨r, hr, ?_⟩
    rw [hxstart, hrx]
    unfold Core.data
    rw [modifyStub_same]
  have hquiet : Quiet c c₁ := Quiet.trans (Quiet.modifyStub rfl insertUnique_nodup) hq₁
  have hstep₁ : Plan.Change ⟨q, c⟩ .quiet ⟨q, c₁⟩ := Plan.Change.quiet hquiet
  have hs₁ := hstep₁.sound hs
  have hfind₁ : c₁.findBlock s (c₁.data block.event).mRID = none := by
    rw [hquiet.findBlock, hquiet.mRID, hevent]; exact hnone
  have hput : Core.putBlock { c₁ with
      block := Function.update c₁.block c₁.freshBlock block
      freshBlock := c₁.freshBlock + 1 } s c₁.freshBlock = c₁.enroll s block := by
    have hfind : Core.findBlock { c₁ with
        block := Function.update c₁.block c₁.freshBlock block
        freshBlock := c₁.freshBlock + 1 } s (c₁.data block.event).mRID = none := by
      rw [← hfind₁]
      refine findBlock_congr (c := c₁) _ rfl fun b hb => ?_
      have hne : b ≠ c₁.freshBlock := fun he => Nat.lt_irrefl _ (he ▸ hs₁.alloc hb)
      unfold Core.mridKey
      dsimp only
      rw [Function.update_of_ne hne]
      rfl
    have hkey : Core.mridKey { c₁ with
        block := Function.update c₁.block c₁.freshBlock block
        freshBlock := c₁.freshBlock + 1 } c₁.freshBlock = (c₁.data block.event).mRID := by
      unfold Core.mridKey
      dsimp only
      rw [Function.update_self]
      rfl
    unfold putBlock enroll
    simp only [hkey, hfind]
  have hloose : q.Loose c₁.freshBlock := fun s' n hb =>
    Nat.lt_irrefl _ (hs₁.alloc (hs₁.home hb))
  have hblock : (c₁.enroll s block).block c₁.freshBlock = block := Function.update_self ..
  have hhome : c₁.freshBlock ∈ ((c₁.enroll s block).schedule s).blocks :=
    (mem_enroll_blocks c₁).mpr (Or.inr ⟨rfl, rfl⟩)
  have htime : (c₁.enroll s block).seTime = c.seTime := hquiet.seTime
  dsimp only at h
  rw [hput] at h
  obtain ⟨device, hdevice, h⟩ := Option.bind_eq_some_iff.mp h
  have hdevice₁ : (c₁.schedule s).device ≠ none := by
    intro hnull
    rw [enroll, modifySchedule_same] at hdevice
    cases hnull.symm.trans hdevice
  have hstep₂ : Plan.Change ⟨q, c₁⟩ (.register s c₁.freshBlock event)
      ⟨q, c₁.enroll s block⟩ := by
    rw [← hevent]
    exact Plan.Change.register (Nat.lt_of_lt_of_le hexists hquiet.freshDevice) hdevice₁ hstatus
      hfind₁
  rw [← hdevice, deviceResponse_eq, respond_eq _ s c₁.freshBlock] at h
  generalize hresp : (c₁.enroll s block).posted ((c₁.enroll s block).schedule s).device event
    .eventReceived = received at h
  have hreceived : ∀ r ∈ received, r.device = ((c₁.enroll s block).schedule s).device ∧
      ((c₁.enroll s block).data r.event).mRID = (c₁.enroll s block).mridKey c₁.freshBlock := by
    intro r hr
    rw [← hresp] at hr
    rw [posted_spec _ hr]
    unfold mridKey
    rw [hblock, hevent]
    exact ⟨rfl, rfl⟩
  generalize hcore : c₁.enroll s block = c₃ at *
  have hstep₃ : Plan.Change ⟨q, c₃⟩
      (.touch (c₃.turn s c₁.freshBlock (c₃.block c₁.freshBlock).status none received))
      ⟨q, c₃.touch (c₃.turn s c₁.freshBlock (c₃.block c₁.freshBlock).status none received)⟩ :=
    Plan.Change.touch rfl hhome hreceived (Or.inl rfl)
  generalize ht : c₃.turn s c₁.freshBlock (c₃.block c₁.freshBlock).status none received = t at *
  have htouched : (c₃.touch t).block c₁.freshBlock = block := by
    rw [← ht, ← hblock]
    simp [Core.touch, Core.turn]
  have hfields : t.sched = s ∧ t.block = c₁.freshBlock ∧ t.found = .scheduled ∧
      t.status = .scheduled ∧ t.mark = none ∧ t.start = block.start ∧ t.stop = block.stop := by
    rw [← ht]
    simp [Core.turn, hblock, hstatus]
  obtain ⟨hsched, hb, hfound, hstat, hmark, hstart, hstop⟩ := hfields
  have hkind : ∀ r ∈ t.posted, r.status = .eventReceived := by
    intro r hr
    rw [← ht, Core.turn, ← hresp] at hr
    rw [posted_spec _ hr]
  have hnow : (c₃.touch t).seTime = c.seTime := htime
  have hrun := Run.cons hstep₁ (Run.cons hstep₂ (Run.single hstep₃))
  have hlast : ∀ responses, (c₃.touch t).turn s c₁.freshBlock .completed none responses =
      { t with status := .completed, posted := responses } := by
    intro responses
    unfold Core.turn
    rw [htouched, hstatus]
    cases t
    simp_all
  split at h
  · rename_i hover
    simp only [Option.some.injEq, Prod.mk.injEq] at h
    obtain ⟨hc', rfl, rfl⟩ := h
    rw [settle_eq _ s] at hc'
    generalize hpost : (c₃.touch t).posted _ event .eventExpired = responses at hc'
    have hstep₄ : Plan.Change ⟨q, c₃.touch t⟩
        (.touch ((c₃.touch t).turn s c₁.freshBlock .completed none responses)) ⟨q, c'⟩ := by
      rw [← hc']
      refine Plan.Change.turn _ _ _ hhome (fun r hr => ?_) (Plan.loose_out hloose)
      rw [← hpost] at hr
      rw [posted_spec _ hr]
      unfold mridKey
      rw [htouched, hevent]
      exact ⟨rfl, rfl⟩
    have hfinal : c'.block c₁.freshBlock = { block with status := .completed } := by
      rw [← hc', ← htouched]
      simp [Core.touch, Core.turn]
    rw [htouched, hnow] at hover
    rw [hlast] at hstep₄
    exact ⟨{
      notice := t
      responses := responses
      sched := hsched
      block := hb
      found := hfound
      status := hstat
      mark := hmark
      start := by rw [hfinal, hstart]
      stop := by rw [hfinal, hstop]
      run := hrun.trans (Run.single hstep₄)
      fresh := hquiet.freshBlock
      blockEvent := by rw [hfinal]; exact hevent
      blockStatus := by rw [hfinal]; rfl
      home := by rw [← hc']; exact hhome
      loose := hloose
      received := hkind
      late := fun r hr => by
        rw [← hpost] at hr
        rw [posted_spec _ hr]
      brief := by rw [← hpost]; exact posted_length_le _
      elapsed := by rw [hfinal]; exact (decide_eq_true hover).symm
      drawn := by rw [hfinal]; exact hdrawn }⟩
  · rename_i hover
    simp only [Option.some.injEq, Prod.mk.injEq] at h
    obtain ⟨hc', rfl, rfl⟩ := h
    have hfinal : c'.block c₁.freshBlock = block := by rw [← hc', htouched]
    rw [htouched, hnow] at hover
    exact ⟨{
      notice := t
      responses := []
      sched := hsched
      block := hb
      found := hfound
      status := hstat
      mark := hmark
      start := by rw [hfinal, hstart]
      stop := by rw [hfinal, hstop]
      run := by rw [← hc']; exact hrun
      fresh := hquiet.freshBlock
      blockEvent := by rw [hfinal]; exact hevent
      blockStatus := by rw [hfinal]; exact hstatus
      home := by rw [← hc']; exact hhome
      loose := hloose
      received := hkind
      late := fun r hr => by cases hr
      brief := Nat.zero_le _
      elapsed := by rw [hfinal]; exact (decide_eq_false hover).symm
      drawn := by rw [hfinal]; exact hdrawn }⟩

end Core

namespace World
variable {w w' : World} {q : Board} {s : ScheduleId} {event : StubId} {eb : BlockId}
  {fuel primacy : Nat}

/-- **The switch of `schedule_event`**, for a block that is in no queue. -/
theorem placeBlock_run (hr : w.links.Represents q) (hs : Plan.Sound ⟨q, w.core⟩)
    (hloose : q.Loose eb) (hhome : eb ∈ (w.core.schedule s).blocks)
    (hkey : (w.core.data event).mRID = w.core.mridKey eb)
    (hres : w.placeBlock fuel s event eb = some w') :
    ∃ q', w'.links.Represents q' ∧
      Run Plan.Change ⟨q, w.core⟩ (w.core.placeActs q s event eb) ⟨q', w'.core⟩ := by
  have hconclude : ∀ (status : EventStatus) (response : ResponseType),
      Plan.Change ⟨q, w.core⟩
        (.touch (w.core.ended s eb status
          (w.core.posted (w.core.schedule s).device event response)))
        ⟨q, Core.blockUpdate (w.core.deviceResponse (w.core.schedule s).device event response)
          eb status⟩ := by
    intro status response
    rw [Core.deviceResponse_eq, Core.blockUpdate_eq _ s]
    refine Plan.Change.touch rfl hhome (fun r hr => ?_) (Or.inr (Plan.loose_out hloose))
    rw [Core.posted_spec _ hr]
    exact ⟨rfl, hkey⟩
  have hactive := fun (h : w.insertActive fuel s eb = some w') =>
    insertActive_run hr hs hloose hhome h
  unfold placeBlock at hres
  dsimp only at hres
  split at hres
  · rename_i hst
    unfold Core.placeActs
    rw [hst]
    dsimp only
    split at hres
    · rename_i hwait
      rw [if_pos hwait]
      exact insertBlock_run hr hs hloose hhome hres
    · rename_i hwait
      rw [if_neg hwait]
      obtain ⟨l, _, hrep, hrun⟩ := hactive hres
      exact ⟨_, hrep, hrun⟩
  · rename_i hst
    unfold Core.placeActs
    rw [hst]
    obtain ⟨l, _, hrep, hrun⟩ := hactive hres
    exact ⟨_, hrep, hrun⟩
  · rename_i hst
    unfold Core.placeActs
    rw [hst] at hres ⊢
    obtain rfl := Option.some.inj hres
    exact ⟨q, hr, Run.single (hconclude _ _)⟩
  · rename_i hst
    unfold Core.placeActs
    rw [hst] at hres ⊢
    obtain rfl := Option.some.inj hres
    exact ⟨q, hr, Run.single (hconclude _ _)⟩
  · rename_i hst
    unfold Core.placeActs
    rw [hst] at hres ⊢
    obtain rfl := Option.some.inj hres
    exact ⟨q, hr, Run.single (hconclude _ _)⟩
  · obtain rfl := Option.some.inj hres
    refine ⟨q, hr, ?_⟩
    unfold Core.placeActs
    split <;> first | contradiction | exact Run.nil

/-- **`schedule_event`** for an event that is known. -/
theorem scheduleEvent_known_run (hr : w.links.Represents q) (hs : Plan.Sound ⟨q, w.core⟩)
    {eb' : BlockId} (hget : w.core.getBlock s event = some eb)
    (hloose : (w.core.block eb).status.terminal = false → q.Loose eb)
    (hres : w.scheduleEvent fuel s event primacy = some (w', eb')) :
    eb' = eb ∧ ∃ q', w'.links.Represents q' ∧ Run Plan.Change ⟨q, w.core⟩
      (.quiet :: if (w.core.block eb).status.terminal then []
        else (w.core.withPrimacy eb primacy).placeActs q s event eb) ⟨q', w'.core⟩ := by
  have hquiet := Core.withPrimacy_quiet (c := w.core) eb primacy
  have hstep := Plan.Change.quiet (q := q) hquiet
  unfold scheduleEvent at hres
  rw [hget] at hres
  dsimp only at hres
  change (if ((w.core.withPrimacy eb primacy).block eb).status.terminal then
    some ((⟨w.links, w.core.withPrimacy eb primacy⟩ : World), eb)
    else (placeBlock ⟨w.links, w.core.withPrimacy eb primacy⟩ fuel s event eb).map
      fun w => (w, eb)) = _ at hres
  rw [hquiet.status] at hres
  by_cases hterm : (w.core.block eb).status.terminal = true
  · rw [if_pos hterm] at hres ⊢
    obtain ⟨rfl, rfl⟩ := Prod.mk.inj (Option.some.inj hres)
    exact ⟨rfl, q, hr, Run.single hstep⟩
  · rw [if_neg hterm] at hres ⊢
    obtain ⟨w₁, hplace, hw⟩ := Option.map_eq_some_iff.mp hres
    obtain ⟨rfl, rfl⟩ := Prod.mk.inj hw
    obtain ⟨hhome, hkey⟩ := Core.findBlock_spec hget
    obtain ⟨q', hrep, hrun⟩ := placeBlock_run (w := ⟨w.links, w.core.withPrimacy eb primacy⟩)
      hr (hstep.sound hs) (hloose (by simpa using hterm)) (by rw [hquiet.blocks]; exact hhome)
      (by rw [hquiet.mRID, hquiet.ambient.mridKey (hquiet.event eb), hkey]) hplace
    exact ⟨rfl, q', hrep, Run.cons hstep hrun⟩

/-- **`schedule_event`** for a new event. -/
theorem scheduleEvent_new_run (hr : w.links.Represents q) (hs : Plan.Sound ⟨q, w.core⟩)
    (hexists : s < w.core.freshDevice) (hnone : w.core.getBlock s event = none)
    (hres : w.scheduleEvent fuel s event primacy = some (w', eb)) :
    ∃ c₁ expired, w.core.registerEvent s event primacy = some (c₁, eb, expired) ∧
      ∃ (r : Core.Registration w.core q s event eb expired c₁) (q' : Board),
        w'.links.Represents q' ∧ Run Plan.Change ⟨q, w.core⟩
          (Core.registerActs s eb event r.notice expired r.responses ++
            if expired then [] else c₁.placeActs q s event eb) ⟨q', w'.core⟩ := by
  unfold scheduleEvent at hres
  rw [hnone] at hres
  obtain ⟨⟨c₁, eb', expired⟩, hreg, hres⟩ := Option.bind_eq_some_iff.mp hres
  obtain ⟨r⟩ := Core.registerEvent_run hs hexists hnone hreg
  dsimp only at hres
  cases expired with
  | true =>
    rw [if_pos rfl] at hres
    obtain ⟨rfl, rfl⟩ := Prod.mk.inj (Option.some.inj hres)
    refine ⟨c₁, true, hreg, r, q, hr, ?_⟩
    rw [if_pos rfl, List.append_nil]
    exact r.run
  | false =>
    rw [if_neg Bool.false_ne_true] at hres
    obtain ⟨w₁, hplace, hw⟩ := Option.map_eq_some_iff.mp hres
    obtain ⟨rfl, rfl⟩ := Prod.mk.inj hw
    obtain ⟨q', hrep, hrun⟩ := placeBlock_run (w := ⟨w.links, c₁⟩) hr
      (Plan.run_sound r.run hs) r.loose r.home (by unfold Core.mridKey; rw [r.blockEvent]) hplace
    exact ⟨c₁, false, hreg, r, q', hrep, r.run.trans hrun⟩

end World
end SeClient
