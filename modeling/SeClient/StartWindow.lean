import SeClient.Pairing

/-!
# The start window

An EVENT_START is queued by `insert_active`, called by `schedule_event` and by
`update_schedule`, and by `activate_blocks`, which `event_update` calls.  None of them checks
both times of the block.  The start lies in the window of the block where the server has the event
as Active in that window only, and the clock is not set back behind the start of a block that waits.
-/

namespace SeClient
open Transition

namespace Core
variable (c : Core)

/-- The server has the event as Active although the block is past its end. -/
def Stale (event : StubId) (eb : BlockId) : Prop :=
  c.eventStatus event = .active ∧ (c.block eb).stop ≤ c.seTime

/-- The clock is not set back behind the start of a block that waits for its event. -/
def Steady (c c' : Core) : Prop :=
  ∀ s, ∀ b ∈ (c.schedule s).blocks, (c.block b).status = .activeWait →
    (c.block b).start ≤ c.seTime → (c.block b).start ≤ c'.seTime

end Core

namespace EventCall

/-- The call hands the block to `insert_active`. -/
def Activates (x : EventCall) (c : Core) (eb : BlockId) : Prop :=
  c.eventStatus x.event = .scheduled ∧ (c.block eb).status = .activeWait ∨
    c.eventStatus x.event = .active

/-- The effective start of the event: that of its block, unless it is done with, and for a new one
the start of the interval with the random offset that is drawn. -/
def start (x : EventCall) : Option Int :=
  match x.world.core.getBlock x.sched x.event with
  | some eb =>
    if (x.world.core.block eb).status.terminal then none else some (x.world.core.block eb).start
  | none =>
    (x.world.core.randomizeStart x.event).map fun r => (x.world.core.data x.event).start + r.2

/-- The server has the event as Active in the window of its block only. -/
structure Timely (x : EventCall) : Prop where
  begun : x.world.core.eventStatus x.event = .active →
    ∀ start ∈ x.start, start ≤ x.world.core.seTime
  /-- The end of a new block is checked by `schedule_event`. -/
  lasting : ∀ eb, x.world.core.getBlock x.sched x.event = some eb →
    (x.world.core.block eb).status.terminal = false → (x.world.core.block eb).status ≠ .active →
    x.Activates x.world.core eb → ¬x.world.core.Stale (x.world.core.block eb).event eb

end EventCall

/-- The steps at which the server has the events as Active in the windows of their blocks only. -/
structure World.Timely (cl : Client) (w : World) (i : Invocation) : Prop extends w.Tidy cl i where
  admitted : ∀ x ∈ w.calls cl i, x.Timely
  /-- `update_schedule` comes before a block that is due is over. -/
  promoted : ∀ s, i.op = .updateSchedule s →
    ∀ b ∈ (w.queue s .scheduled).takeWhile (w.core.due w.core.seTime),
      ¬w.core.Stale (w.core.block b).event b
  /-- So does `event_update`, of a block that waits. -/
  woken : ∀ event, i.op = .eventUpdate event → ∀ s ∈ (w.core.stub event).schedules, ∀ eb,
    w.core.getBlock s event = some eb → (w.core.block eb).status = .activeWait →
      ¬w.core.Stale event eb

/-- The steps at which the tables of the Schedules serve too. -/
structure Logged.Timely (cl : Client) (l : Logged) (i : Invocation) : Prop where
  world : l.world.Timely cl i
  served : l.Served cl i

/-- One step, with the clock and the server in agreement. -/
def TimelyStep (cl : Client) (l : Logged) (i : Invocation) (l' : Logged) : Prop :=
  Guarded (LoggedStep cl) (Logged.Timely cl) l i l' ∧ l.world.core.Steady l'.world.core

/-- Every EVENT_START that was delivered or is pending is in the history, and those of the
history were queued in the windows of their blocks. -/
structure StartsInWindow (past : List Event) (c : Core) : Prop where
  timed : c.curEvent.filter Event.ofBlock = []
  logged : ∀ b, (marksOf (past ++ c.imEvent) b).count .eventStart ≤
    c.started.countP fun e => e.block = b
  window : ∀ e ∈ c.started, e.start ≤ e.now ∧ e.now < e.stop

/-- A block that waits for its event is not before its start. -/
def Core.Begun (c : Core) : Prop :=
  ∀ s, ∀ b ∈ (c.schedule s).blocks, (c.block b).status = .activeWait →
    (c.block b).start ≤ c.seTime

/-- At the time `now`, a change starts a block in its window only, and no block waits before its
start. -/
def Act.Timely (now : Int) : Act → Prop
  | .touch t => (t.mark = some .eventStart → t.start ≤ now ∧ now < t.stop) ∧
      (t.status = .activeWait → t.start ≤ now)
  | _ => True

/-! ## Changes -/

section Changes
variable {past : List Event} {c c' : Core} {p p' : Plan} {a : Act} {acts : List Act}

theorem StartsInWindow.still (h : StartsInWindow past c)
    (htimed : c'.curEvent.filter Event.ofBlock = c.curEvent.filter Event.ofBlock)
    (hpending : ∀ b, c'.pending b = c.pending b) (hstarted : c'.started = c.started) :
    StartsInWindow past c' :=
  ⟨htimed.trans h.timed, fun b => by rw [marksOf_congr (hpending b), hstarted]; exact h.logged b,
    by rw [hstarted]; exact h.window⟩

/-- **One timely change.** -/
theorem StartsInWindow.change (h : StartsInWindow past p.core) (ha : a.Timely p.core.seTime)
    (hc : Plan.Change p a p') : StartsInWindow past p'.core := by
  cases hc with
  | quiet hq => exact h.still hq.curEvent (fun b => (hq.keeps b).pending) hq.started
  | signal hq => exact h.still hq.curEvent (fun b => (hq.keeps b).pending) hq.started
  | @touch q c t _ _ _ _ =>
    refine ⟨h.timed, fun b => ?_, fun e he => ?_⟩
    · have hmarks : marksOf (past ++ (c.touch t).imEvent) b =
          marksOf (past ++ c.imEvent) b ++ if t.block = b then t.mark.toList else [] := by
        unfold Core.touch
        rw [marksOf_append, marksOf_append, marksOf_append, List.append_assoc]
        congr 2
        by_cases hb : t.block = b <;> cases t.mark <;> simp [marksOf, hb]
      have hstarted : (c.touch t).started = c.started ++ c.starts t := rfl
      rw [hmarks, hstarted, List.count_append, List.countP_append]
      refine Nat.add_le_add (h.logged b) ?_
      unfold Core.starts
      by_cases hb : t.block = b <;> by_cases hm : t.mark = some .eventStart <;> simp [hb, hm]
      cases hmark : t.mark with
      | none => simp
      | some m =>
        rw [hmark] at hm
        exact List.count_eq_zero.mpr (by simpa using fun he => hm (congrArg some he.symm))
    · rcases List.mem_append.mp he with he | he
      · exact h.window e he
      · unfold Core.starts at he
        split at he
        · rename_i hmark
          rw [List.mem_singleton.mp he]
          exact ha.1 hmark
        · cases he
  | @discard q c b =>
    refine ⟨removeEvent_timed h.timed b, fun x => Nat.le_trans ?_ (h.logged x), h.window⟩
    unfold marksOf Core.removeEvent
    exact ((((List.filter_sublist).append_left past).filter _).map _).count_le _
  | _ => exact ⟨h.timed, h.logged, h.window⟩

theorem Core.Begun.still (h : c.Begun) (hc : Still c c') : c'.Begun := by
  intro s b hb hst
  rw [hc.blocks] at hb
  rw [hc.status] at hst
  rw [hc.start, hc.seTime]
  exact h s b hb hst

theorem Core.Begun.change (h : p.core.Begun) (ha : a.Timely p.core.seTime)
    (hc : Plan.Change p a p') : p'.core.Begun := by
  cases hc with
  | quiet hq => exact h.still hq.toStill
  | signal hq => exact h.still hq
  | @assign q c s device _ =>
    intro s' b hb
    rw [Core.assign_blocks] at hb
    exact h s' b hb
  | @touch q c t _ _ _ _ =>
    intro s b hb hst
    by_cases hbt : b = t.block
    · subst hbt
      have hnew : ((c.touch t).block t.block).status = t.status ∧
          ((c.touch t).block t.block).start = t.start := by simp [Core.touch]
      rw [hnew.1] at hst
      rw [hnew.2]
      exact ha.2 hst
    · rw [Core.touch_block_of_ne hbt] at hst ⊢
      exact h s b hb hst
  | @register q c s block _ _ hstatus _ =>
    intro s' b hb hst
    by_cases hbc : b = c.freshBlock
    · have hnew : (c.enroll s block).block c.freshBlock = block := Function.update_self ..
      rw [hbc, hnew, hstatus] at hst
      cases hst
    · have hsame : (c.enroll s block).block b = c.block b := Function.update_of_ne hbc ..
      rw [hsame] at hst ⊢
      rcases (Core.mem_enroll_blocks c).mp hb with hb | ⟨-, hb⟩
      · exact h s' b hb hst
      · exact absurd hb hbc
  | @delete q c s b _ _ =>
    intro s' x hx
    exact h s' x (c.mem_of_mem_strike hx)
  | _ => exact h

/-- What holds at every point of a run. -/
structure Punctual (past : List Event) (c : Core) : Prop where
  starts : StartsInWindow past c
  begun : c.Begun

/-- **Timely changes.** -/
theorem Punctual.changes (h : Punctual past p.core) (hrun : Run Plan.Change p acts p')
    (hacts : ∀ a ∈ acts, a.Timely p.core.seTime) : Punctual past p'.core := by
  have hboth := hrun.preserves (G := Act.Timely p.core.seTime)
    (J := fun p' => p'.core.seTime = p.core.seTime ∧ Punctual past p'.core) hacts
    (fun p₁ a p₂ ha hp hc => ⟨hc.ambient.seTime.trans hp.1,
      hp.2.starts.change (by rw [hp.1]; exact ha) hc,
      hp.2.begun.change (by rw [hp.1]; exact ha) hc⟩) ⟨rfl, h⟩
  exact hboth.2

theorem Punctual.still (h : Punctual past c) (hc : Still c c') : Punctual past c' :=
  ⟨h.starts.still hc.curEvent (fun b => (hc.keeps b).pending) hc.started, h.begun.still hc⟩

theorem Punctual.environment (h : Punctual past c) (hc : Environment c c') (hsteady : c.Steady c') :
    Punctual past c' := by
  refine ⟨h.starts.still hc.curEvent (fun b => ?_) hc.started, fun s b hb hst => ?_⟩
  · rw [c'.pending_eq, c.pending_eq, hc.imEvent]
  · rw [hc.schedule] at hb
    rw [hc.block] at hst ⊢
    exact hsteady s b hb hst (h.begun s b hb hst)

theorem StartsInWindow.next {e : Option Event} (h : StartsInWindow past c)
    (hc : c.nextEvent = (c', e)) : StartsInWindow (past ++ e.toList) c' := by
  obtain ⟨hmarks, htimed⟩ := marksOf_next (u := past) hc h.timed
  obtain ⟨_, _, hstarted, _⟩ := Core.frame_next hc
  exact ⟨htimed, fun b => by rw [hmarks, hstarted]; exact h.logged b,
    by rw [hstarted]; exact h.window⟩

theorem Core.nextEvent_seTime {e : Option Event} (hc : c.nextEvent = (c', e)) :
    c'.seTime = c.seTime := by
  rcases Core.nextEvent_spec hc with ⟨_, rfl⟩ | ⟨_, _, _, _, rfl⟩ | ⟨_, _, _, _, _, _, rfl⟩ <;> rfl

theorem Punctual.next {e : Option Event} (h : Punctual past c) (hc : c.nextEvent = (c', e)) :
    Punctual (past ++ e.toList) c' := by
  obtain ⟨hblock, hsched, -, -⟩ := Core.frame_next hc
  refine ⟨h.starts.next hc, fun s b hb hst => ?_⟩
  rw [hsched] at hb
  rw [hblock] at hst ⊢
  rw [Core.nextEvent_seTime hc]
  exact h.begun s b hb hst

end Changes

/-! ## Steps -/

section Steps
variable {cl : Client} {w w' : World} {q : Board} {i : Invocation} {t : Touch} {s : ScheduleId}
  {c : Core} {eb : BlockId} {l : List BlockId} {x : EventCall} {past : List Event} {p p' : Plan}

/-- **A call of `schedule_event`** hands no block to `insert_active` before its start, and none that
starts after its end. -/
theorem EventCall.Places.window (h : x.Places q c eb) (hx : x.Timely)
    (hbegun : x.world.core.Begun) (hst : x.Activates c eb) :
    (c.block eb).start ≤ c.seTime ∧
      (c.eventStatus (c.block eb).event = .active → (c.block eb).status ≠ .active →
        c.seTime < (c.block eb).stop) := by
  unfold Activates at hst
  have htime := h.ambient.seTime
  rw [h.ambient.eventStatus] at hst
  cases h with
  | known hget hterm _ =>
    have hquiet := Core.withPrimacy_quiet (c := x.world.core) eb x.primacy
    rw [hquiet.status] at hst
    have hstart : x.world.core.eventStatus x.event = .active →
        (x.world.core.block eb).start ≤ x.world.core.seTime := by
      intro hactive
      refine hx.begun hactive _ ?_
      unfold EventCall.start
      rw [hget]
      dsimp only
      rw [hterm, if_neg Bool.false_ne_true]
      rfl
    rw [hquiet.start, hquiet.stop, hquiet.event, hquiet.status, hquiet.ambient.eventStatus, htime]
    constructor
    · rcases hst with ⟨-, hwait⟩ | hactive
      · exact hbegun x.sched eb (Core.findBlock_spec hget).1 hwait
      · exact hstart hactive
    · intro hlive hne
      exact Int.lt_of_not_ge fun hover => hx.lasting eb hget hterm hne hst ⟨hlive, hover⟩
  | new hget hreg r =>
    obtain ⟨offset, hdraw, hdrawn⟩ := r.drawn
    have hactive : x.world.core.eventStatus x.event = .active := by
      rcases hst with ⟨-, hwait⟩ | hactive
      · rw [r.blockStatus] at hwait
        cases hwait
      · exact hactive
    rw [htime]
    constructor
    · rw [hdrawn]
      refine hx.begun hactive _ ?_
      unfold EventCall.start
      rw [hget]
      dsimp only
      rw [hdraw]
      rfl
    · intro _ _
      have hover : ¬(c.block eb).stop ≤ x.world.core.seTime := of_decide_eq_false r.elapsed.symm
      exact Int.lt_of_not_ge hover

/-- What is known about the calls that a step makes. -/
structure Met (cl : Client) (w : World) (i : Invocation) : Prop where
  timely : w.Timely cl i
  begun : w.core.Begun
  /-- The step is not one of several calls of `schedule_event`. -/
  calls : ∀ x ∈ w.calls cl i, x.world = w
  promoted : ∀ s, i.op = .updateSchedule s → ∀ call ∈ w.updateCalls i.fuel s,
    call.block ∈ (w.queue s .scheduled).takeWhile (w.core.due w.core.seTime) ∧
      w.core.Keeps call.core call.block ∧ w.core.Ambient call.core

/-- **A block that is handed to `insert_active`** is not before its start, and not past its end
where it starts. -/
theorem Enters.window (h : Enters cl w i s c eb l) (hmet : Met cl w i) :
    (c.block eb).start ≤ w.core.seTime ∧
      (c.eventStatus (c.block eb).event = .active → (c.block eb).status ≠ .active →
        w.core.seTime < (c.block eb).stop) := by
  cases h with
  | @admitted x q' c eb hplaces hst =>
    have hbegun : x.world.core.Begun := by
      rw [hmet.calls x hplaces.call]
      exact hmet.begun
    have hwindow := hplaces.places.window (hmet.timely.admitted x hplaces.call) hbegun hst
    rwa [hplaces.places.ambient.seTime, hplaces.time] at hwindow
  | @promote _ call p hop hcall _ _ _ _ hdue _ =>
    obtain ⟨hmem, hkeeps, hambient⟩ := hmet.promoted s hop call hcall
    refine ⟨hdue, fun hlive _ => Int.lt_of_not_ge fun hover => ?_⟩
    refine hmet.timely.promoted s hop call.block hmem ⟨?_, ?_⟩
    · rw [← hkeeps.event, ← hambient.eventStatus]
      exact hlive
    · rw [← hkeeps.stop]
      exact hover

/-- **A block is started in its window**, and waits from its start on. -/
theorem Cause.timely (h : Cause cl w q i t) (hmet : Met cl w i) :
    Act.Timely w.core.seTime (.touch t) := by
  have hother : t.mark ≠ some .eventStart → t.status ≠ .activeWait →
      Act.Timely w.core.seTime (.touch t) := fun hmark hstatus =>
    ⟨fun h => absurd h hmark, fun h => absurd h hstatus⟩
  cases h with
  | begins henter _ hst hne =>
    obtain ⟨hstart, hstop⟩ := henter.window hmet
    exact ⟨fun _ => ⟨hstart, hstop hst hne⟩, fun h => by cases h⟩
  | waits henter _ _ => exact ⟨fun h => (by cases h), fun _ => (henter.window hmet).1⟩
  | @wakes event s eb hop hst hs hget hwait =>
    have hstart := hmet.begun s eb (Core.findBlock_spec hget).1 hwait
    have hstop := hmet.timely.woken event hop s hs eb hget hwait
    exact ⟨fun _ => ⟨hstart, Int.lt_of_not_ge fun hover => hstop ⟨hst, hover⟩⟩, fun h => by cases h⟩
  | beaten =>
    refine hother ?_ EventStatus.noConfusion
    unfold Core.beaten
    dsimp only
    split <;> simp
  | yields => exact hother (fun h => by cases h) EventStatus.noConfusion
  | enqueued => exact hother (fun h => by cases h) EventStatus.noConfusion
  | demoted _ hstatus hmark _ =>
    refine hother ?_ ?_
    · rw [hmark]; exact fun h => by cases h
    · rw [hstatus]; exact EventStatus.noConfusion
  | shifted _ hstatus hmark _ =>
    refine hother ?_ ?_
    · rw [hmark]; exact fun h => by cases h
    · rw [hstatus]; exact EventStatus.noConfusion
  | noticed _ _ _ r =>
    refine hother ?_ ?_
    · rw [r.mark]; exact fun h => by cases h
    · rw [r.status]; exact EventStatus.noConfusion
  | belated _ _ _ r =>
    refine hother ?_ EventStatus.noConfusion
    dsimp only
    rw [r.mark]
    exact fun h => by cases h
  | expires =>
    refine hother ?_ ?_
    · unfold Core.expired Core.turn
      split <;> exact fun h => by cases h
    · unfold Core.expired Core.turn
      split <;> exact EventStatus.noConfusion
  | retires => exact hother (fun h => by cases h) EventStatus.noConfusion
  | concluded _ _ hk =>
    refine hother ?_ ?_
    · unfold Core.ended
      dsimp only
      split <;> simp
    · rcases hk with ⟨rfl | rfl, -⟩ | ⟨rfl, -⟩ <;> exact EventStatus.noConfusion
  | dismissed hdis =>
    refine hother ?_ ?_
    · unfold Core.ended
      dsimp only
      split <;> simp
    · cases hdis with
      | remove _ hst _ _ =>
        rcases hst with ⟨h | h, -⟩ | ⟨h, -⟩ <;> rw [Core.ended, h] <;> exact EventStatus.noConfusion
      | abort => exact EventStatus.noConfusion

/-- The calls that a step makes, `schedule_der` apart. -/
theorem met_of_effect (he : Effect cl w q i p) (hr : w.links.Represents q)
    (hs : Plan.Sound ⟨q, w.core⟩) (hop : ∀ edev, i.op ≠ .scheduleDer edev)
    (hok : w.Timely cl i) (hbegun : w.core.Begun) : Met cl w i := by
  refine ⟨hok, hbegun, fun x hx => ?_, fun s hs' => ?_⟩
  · unfold World.calls at hx
    split at hx
    · rename_i edev hder
      exact absurd hder (hop edev)
    · rw [List.mem_singleton.mp hx]
    · cases hx
  · cases he with
    | update r =>
      obtain rfl := Op.updateSchedule.inj hs'
      rw [World.queue_eq hr hs]
      exact r.calls
    | _ => cases hs'

/-- **One step**, `schedule_der` and `next_event` apart. -/
theorem Punctual.effect (h : Punctual past w.core) (he : Effect cl w q i p)
    (hr : w.links.Represents q) (hs : Plan.Sound ⟨q, w.core⟩)
    (hder : ∀ edev, i.op ≠ .scheduleDer edev) (hnext : ∀ e, i.op ≠ .nextEvent e)
    (hok : w.Timely cl i) (hsteady : w.core.Steady p.core) : Punctual past p.core := by
  have hmet := met_of_effect he hr hs hder hok h.begun
  rcases he.run hs hnext with ⟨-, henv⟩ | ⟨acts, hrun, hacts⟩
  · exact h.environment henv hsteady
  · refine h.changes hrun fun a ha => ?_
    cases a with
    | touch t => exact (hacts _ ha).cause.timely hmet
    | _ => trivial

/-- **The calls of `schedule_event` that `schedule_der` makes**, one after the other. -/
theorem Punctual.admissions {calls : List EventCall} (h : Punctual past p.core) (hs : p.Sound)
    (hrun : Run Plan.Admission p calls p') (hcalls : ∀ x ∈ calls, x.Tidy ∧ x.Timely) :
    Punctual past p'.core := by
  refine (hrun.preserves (G := fun x => x.Tidy ∧ x.Timely)
    (J := fun p => p.Sound ∧ Punctual past p.core) hcalls ?_ ⟨hs, h⟩).2
  rintro ⟨q₁, c₁⟩ x p₁ ⟨htidy, htimely⟩ ⟨hs₁, h₁⟩ ha
  refine ⟨ha.sound hs₁, ?_⟩
  have hcore : c₁ = x.world.core := ha.core
  subst hcore
  -- the call is a step of its own, from the memory it finds
  have hok : x.world.Timely Client.idle ⟨.scheduleEvent x.sched x.event x.primacy, 0⟩ := by
    refine ⟨⟨fun y hy => ?_, fun _ hop => (by cases hop)⟩, fun y hy => ?_,
      fun _ hop => (by cases hop), fun _ hop => (by cases hop)⟩
    · rw [List.mem_singleton.mp hy]
      exact htidy
    · rw [List.mem_singleton.mp hy]
      exact htimely
  refine h₁.effect (Effect.admitted ha) ha.rep hs₁ (fun _ hop => by cases hop)
    (fun _ hop => by cases hop) hok fun s b _ _ hstart => ?_
  obtain ⟨acts, note, -, -, hacts⟩ := ha.run
  rw [(Plan.run_ambient hacts).seTime]
  exact hstart

/-- Blocks that are aborted do not start. -/
theorem Core.removePrograms_timely {now : Int} {derpl : List StubId} {a : Act}
    (h : a ∈ c.removeProgramsActs s derpl) : a.Timely now := by
  obtain ⟨eb, -, -, h⟩ := Core.mem_removeProgramsActs h
  rcases Core.mem_dismissActs h with ⟨_, rfl⟩ | ⟨_, rfl⟩ | rfl
  · trivial
  · trivial
  · refine ⟨fun hmark => ?_, fun hstatus => by cases hstatus⟩
    unfold Core.ended at hmark
    dsimp only at hmark
    split at hmark <;> cases hmark

theorem clear_timely {now : Int} {q' : Board} {a : Act} (h : a ∈ World.clearActs q' s) :
    a.Timely now := by
  simp only [World.clearActs, List.mem_cons, List.not_mem_nil, or_false] at h
  rcases h with rfl | rfl | rfl <;> trivial

/-- **One step.** -/
theorem Punctual.step {is : List Invocation} (h : Punctual (delivered is) w.core)
    (he : Effect cl w q i p) (hr : w.links.Represents q) (hs : Plan.Sound ⟨q, w.core⟩)
    (hok : w.Timely cl i) (hsteady : w.core.Steady p.core) :
    Punctual (delivered (is ++ [i])) p.core := by
  rw [delivered_snoc]
  by_cases hnext : ∃ e, i.op = .nextEvent e
  · obtain ⟨e, hop⟩ := hnext
    rw [delivered_of_next hop]
    exact h.next (he.of_next hop).2
  · have hnext : ∀ e, i.op ≠ .nextEvent e := fun e he => hnext ⟨e, he⟩
    rw [delivered_of_ne hnext, List.append_nil]
    by_cases hder : ∃ edev, i.op = .scheduleDer edev
    · obtain ⟨edev, hop⟩ := hder
      cases he with
      | ignore hstill => exact h.still hstill
      | @derive edev fsa d fuel w₀ w' p r hget hfsa hstill hd hq hc =>
        have hquiet := w₀.withLFDI_quiet d edev
        have hs₁ : Plan.Sound ⟨q, w₀.withLFDI d edev⟩ := (hs.still hstill).still hquiet.toStill
        have hd₂ : d < r.kept.core.freshDevice :=
          Nat.lt_of_lt_of_le hd (Nat.le_trans hquiet.freshDevice (Plan.run_freshDevice r.remove))
        have hclear := World.clear_run r.kept d
        have hassign : Plan.Change ⟨World.cleared r.kept.queue d, r.kept.core⟩ (.assign d edev)
            ⟨World.cleared r.kept.queue d, r.kept.core.assign d edev⟩ := Plan.Change.assign hd₂
        -- the programs that are gone, the queues, and the device
        have hkept : Punctual (delivered is) r.kept.core :=
          Punctual.changes (p := ⟨q, w₀.withLFDI d edev⟩) ((h.still hstill).still hquiet.toStill)
            r.remove fun a ha => Core.removePrograms_timely ha
        have hassigned := Punctual.changes (hkept.changes hclear fun a ha => clear_timely ha)
          (Run.single hassign) fun a ha => by rw [List.mem_singleton.mp ha]; trivial
        -- the controls
        have hlate := hassigned.admissions (hassign.sound (Plan.run_sound hclear
          (Plan.run_sound r.remove hs₁))) r.admitted fun x hx => ⟨hok.calls x hx, hok.admitted x hx⟩
        rw [hc]
        exact hlate.still r.finish.toStill
      | _ => cases hop
    · exact h.effect he hr hs (fun edev he => hder ⟨edev, he⟩) hnext hok hsteady

end Steps

/-- **Start window**, in runs of timely steps, with tables that answer as the lists of blocks do. -/
theorem start_window {cl : Client} {l₀ l : Logged} {is : List Invocation} (h₀ : l₀.Initial)
    (h : Run (TimelyStep cl) l₀ is l) :
    StartsInWindow (delivered is) l.world.core ∧ l.TablesAgree := by
  have hstart : Punctual (delivered []) l₀.world.core := by
    have hw := h₀.world
    refine ⟨⟨by rw [hw.curEvent]; rfl, fun b => by rw [hw.imEvent]; exact Nat.zero_le _,
      by rw [hw.started]; simp⟩, fun s b hb => ?_⟩
    rw [hw.blocks] at hb
    cases hb
  obtain ⟨q, -, -, hin, htabled⟩ := h.invariant (J := fun is l => ∃ q,
    l.world.links.Represents q ∧ Plan.Sound ⟨q, l.world.core⟩ ∧
      Punctual (delivered is) l.world.core ∧ l.Tabled)
    ⟨_, h₀.world.represents, h₀.world.sound, hstart, h₀.tabled⟩ (by
    rintro is l i l' ⟨q, hr, hs, hin, htabled⟩ ⟨⟨⟨hok, hserved⟩, hstep⟩, hsteady⟩
    obtain ⟨q', hr', heff⟩ := hstep.step.effect hok.toTidy hr hs
    exact ⟨q', hr', heff.sound hs, hin.step heff hr hs hok hsteady,
      htabled.step hstep hok.toTidy hr hs heff hserved⟩)
  exact ⟨hin.starts, htabled.agree⟩

/-- The control of `activeControl` starts in its window. -/
theorem start_window_startedControl :
    StartsInWindow (delivered [⟨.scheduleEvent 0 1 0, 2⟩]) startedControl.core ∧
      Logged.TablesAgree ⟨startedControl, startedLog⟩ := by
  have hstep := @startedControl_step Client.idle
  have hlogged : LoggedStep Client.idle ⟨activeControl, fun _ => []⟩ ⟨.scheduleEvent 0 1 0, 2⟩
      ⟨startedControl, startedLog⟩ := ⟨hstep, fun _ => rfl⟩
  have hnew : activeControl.core.getBlock 0 1 = none := by decide
  refine start_window ⟨activeControl_initial, fun _ => rfl⟩
    (Run.single ⟨⟨⟨⟨⟨fun x hx eb hget => ?_, fun _ hop => (by cases hop)⟩,
      fun x hx => ⟨fun _ start hstart => ?_, fun eb hget => ?_⟩,
      fun _ hop => (by cases hop), fun _ hop => (by cases hop)⟩, startedLog_served⟩, hlogged⟩,
      fun s b hb => ?_⟩)
  · rw [List.mem_singleton.mp hx] at hget
    cases hnew.symm.trans hget
  · rw [List.mem_singleton.mp hx] at hstart ⊢
    -- the interval has begun at 100, and nothing is drawn
    have hbegun : (EventCall.mk activeControl 0 1 0).start = some 100 := by decide
    rw [← Option.some.inj (hbegun.symm.trans hstart)]
    decide
  · rw [List.mem_singleton.mp hx] at hget
    cases hnew.symm.trans hget
  · dsimp only at hb
    rw [activeControl_initial.blocks] at hb
    cases hb

/-- A control that starts between 100 and 200, as the random number says, and is active on the
server already when the clock shows 150. -/
def earlyControl : World :=
  World.boot (fun e => if e = 1 then
    { Stub.control 7 .active 100 100 with
      data := (Stub.control 7 .active 100 100).data.map fun d => { d with randomizeStart := 100 } }
    else {}) 150 [100]

theorem earlyControl_initial : earlyControl.Initial :=
  World.boot_initial 150 [100] fun e => by split <;> rfl

/-- `schedule_event` starts a block before its effective start. -/
theorem not_start_window : ¬ ∀ (cl : Client) (w₀ w : World) (is : List Invocation),
    w₀.Initial → Run (Step cl) w₀ is w → StartsInWindow (delivered is) w.core := by
  intro h
  have hstep : Step Client.idle earlyControl ⟨.scheduleEvent 0 1 0, 2⟩
      ((earlyControl.scheduleEvent 2 0 1 0).get (by decide)).1 := Step.of_isSome (by decide) _
  have hwindow := (h Client.idle _ _ _ earlyControl_initial (Run.single hstep)).window
    ⟨0, 200, 300, 150⟩ (by decide)
  exact absurd hwindow.1 (by decide)

end SeClient
