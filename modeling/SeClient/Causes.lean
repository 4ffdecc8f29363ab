import SeClient.Runs

/-!
# Why a block is changed

`Does` lists the changes of a step by the function that makes them.  `Cause` lists the changes
of one block by their reason, with what is known about the block then: it is what claims about
the status, the events and the Responses of blocks are read off.
-/

namespace SeClient
open Transition

/-! ## The changes of the insertions -/

namespace Core
variable {c c' : Core} {s : ScheduleId} {eb b : BlockId} {event : StubId} {l : List BlockId}
  {os : List (BlockId × Fate)} {a : Act} {t : Touch} {x : Interval}

/-- What `siftActs` consists of, for outcomes against the blocks of `l`. -/
theorem mem_siftActs (hos : ∀ o ∈ os, o.1 ∈ l) (h : a ∈ c.siftActs s eb os) :
    (a.Plain ∧ a.subject = none) ∨
      (∃ e ∈ l, a = .touch (c.turn s e .scheduleSuperseded none [])) ∨
      a = .touch (c.turn s eb .scheduleSuperseded none []) ∨
      (∃ e ∈ l, ∃ start stop, a = .touch (c.adjusted s e start stop)) := by
  induction os with
  | nil => cases h
  | cons o os ih =>
    obtain ⟨e, f⟩ := o
    have hrec := ih fun o ho => hos o (List.mem_cons_of_mem _ ho)
    have he : e ∈ l := hos (e, f) List.mem_cons_self
    cases f with
    | beats =>
      simp only [siftActs, List.mem_cons] at h
      rcases h with rfl | rfl | rfl | rfl | h
      · exact Or.inl ⟨trivial, rfl⟩
      · exact Or.inl ⟨trivial, rfl⟩
      · exact Or.inr (Or.inl ⟨e, he, rfl⟩)
      · exact Or.inl ⟨trivial, rfl⟩
      · exact hrec h
    | yields =>
      simp only [siftActs, List.mem_cons, List.not_mem_nil, or_false] at h
      rcases h with rfl | rfl | rfl
      · exact Or.inl ⟨trivial, rfl⟩
      · exact Or.inr (Or.inr (Or.inl rfl))
      · exact Or.inl ⟨trivial, rfl⟩
    | joins =>
      simp only [siftActs, List.mem_cons] at h
      rcases h with rfl | h
      · exact Or.inr (Or.inr (Or.inr ⟨e, he, _, _, rfl⟩))
      · exact hrec h
    | ends =>
      simp only [siftActs, List.mem_cons] at h
      rcases h with rfl | h
      · exact Or.inr (Or.inr (Or.inr ⟨e, he, _, _, rfl⟩))
      · exact hrec h
    | passes => exact hrec h
    | spares =>
      simp only [siftActs, List.mem_cons] at h
      rcases h with rfl | h
      · exact Or.inl ⟨trivial, rfl⟩
      · exact hrec h

/-- What `insert_block` does to blocks: the inserted block becomes Scheduled, a Scheduled block
becomes ScheduleSuperseded, or only times change. -/
theorem touch_of_mem_insertBlockActs (hl : ∀ e ∈ l, (c.block e).status = .scheduled)
    (h : .touch t ∈ c.insertBlockActs s eb l) :
    t = c.turn s eb .scheduled none [] ∨
      (t.found = .scheduled ∧ t.status = .scheduleSuperseded ∧ t.mark = none ∧ t.posted = []) ∨
      (t.found = .scheduled ∧ t.status = .scheduled ∧ t.mark = none ∧ t.posted = []) := by
  generalize hc₁ : (c.touch (c.turn s eb .scheduled none [])).loadDer eb = c₁
  have hstatus : ∀ e, e = eb ∨ e ∈ l → (c₁.block e).status = .scheduled := by
    intro e he
    rw [← hc₁, (Quiet.loadDer eb).status]
    by_cases heb : e = eb
    · subst heb; simp [touch, turn]
    · rw [touch_block_of_ne heb]; exact hl e (he.resolve_left heb)
  simp only [insertBlockActs, List.mem_cons, List.mem_append, reduceCtorEq, false_or,
    Act.touch.injEq, hc₁] at h
  rcases h with h | h | h
  · exact Or.inl h
  · rcases mem_siftActs (fun o ho => mem_of_mem_sift ho) h with ⟨_, h⟩ | ⟨e, he, h⟩ | h |
      ⟨e, he, start, stop, h⟩
    · cases h
    · obtain rfl := Act.touch.inj h
      exact Or.inr (Or.inl ⟨hstatus e (Or.inr he), rfl, rfl, rfl⟩)
    · obtain rfl := Act.touch.inj h
      exact Or.inr (Or.inl ⟨hstatus eb (Or.inl rfl), rfl, rfl, rfl⟩)
    · obtain rfl := Act.touch.inj h
      have he := hstatus e (Or.inr he)
      exact Or.inr (Or.inr ⟨he, he, rfl, rfl⟩)
  · split at h
    · cases h
    · cases List.mem_singleton.mp h

/-- `insert_block` removes no pending events and frees no block. -/
theorem plain_of_mem_insertBlockActs (h : a ∈ c.insertBlockActs s eb l) :
    a.Plain ∧ (a.subject = none ∨ ∃ t, a = .touch t) := by
  simp only [insertBlockActs, List.mem_cons, List.mem_append] at h
  rcases h with rfl | rfl | h | h
  · exact ⟨trivial, Or.inr ⟨_, rfl⟩⟩
  · exact ⟨trivial, Or.inl rfl⟩
  · rcases mem_siftActs (fun o ho => mem_of_mem_sift ho) h with h | ⟨_, _, rfl⟩ | rfl |
      ⟨_, _, _, _, rfl⟩
    · exact ⟨h.1, Or.inl h.2⟩
    · exact ⟨trivial, Or.inr ⟨_, rfl⟩⟩
    · exact ⟨trivial, Or.inr ⟨_, rfl⟩⟩
    · exact ⟨trivial, Or.inr ⟨_, rfl⟩⟩
  · split at h
    · cases h
    · rw [List.mem_singleton.mp h]; exact ⟨trivial, Or.inl rfl⟩

/-- `insert_active` removes no pending events. -/
theorem discard_not_mem_insertActiveActs {found : List Event} :
    .discard b found ∉ c.insertActiveActs s eb l := by
  intro h
  rcases mem_insertActiveActs h with h | ⟨_, h⟩ | h | ⟨_, _, _, h⟩ | ⟨_, h⟩ | ⟨_, _, h⟩ |
    ⟨_, _, _, h⟩ <;> cases h

/-- The changes of `schedule_event` by the status of the event. -/
theorem mem_placeActs {q : Board} (h : a ∈ c.placeActs q s event eb) :
    (c.eventStatus event = .scheduled ∧ (c.block eb).status ≠ .activeWait ∧
        a ∈ c.insertBlockActs s eb (q s .scheduled)) ∨
      ((c.eventStatus event = .scheduled ∧ (c.block eb).status = .activeWait ∨
          c.eventStatus event = .active) ∧ a ∈ c.insertActiveActs s eb (q s .active)) ∨
      ∃ status response, c.eventStatus event = status ∧
        ((status = .canceled ∨ status = .canceledRandom) ∧ response = .eventCanceled ∨
          status = .superseded ∧ response = .eventSuperseded) ∧
        a = .touch (c.ended s eb status (c.posted (c.schedule s).device event response)) := by
  unfold placeActs at h
  split at h
  · rename_i hst
    split at h
    · rename_i hne
      exact Or.inl ⟨hst, hne, h⟩
    · rename_i hne
      exact Or.inr (Or.inl ⟨Or.inl ⟨hst, not_not.mp hne⟩, h⟩)
  · rename_i hst
    exact Or.inr (Or.inl ⟨Or.inr hst, h⟩)
  · rename_i hst
    exact Or.inr (Or.inr ⟨_, _, hst, Or.inl ⟨Or.inl rfl, rfl⟩, List.mem_singleton.mp h⟩)
  · rename_i hst
    exact Or.inr (Or.inr ⟨_, _, hst, Or.inl ⟨Or.inr rfl, rfl⟩, List.mem_singleton.mp h⟩)
  · rename_i hst
    exact Or.inr (Or.inr ⟨_, _, hst, Or.inr ⟨rfl, rfl⟩, List.mem_singleton.mp h⟩)
  · cases h

/-- Placing a block leaves the registries alone. -/
theorem plain_of_mem_placeActs {q : Board} (h : a ∈ c.placeActs q s event eb) : a.Plain := by
  rcases mem_placeActs h with ⟨_, _, h⟩ | ⟨_, h⟩ | ⟨_, _, _, _, rfl⟩
  · exact (plain_of_mem_insertBlockActs h).1
  · exact plain_of_mem_insertActiveActs h
  · trivial

/-! ## The changes of the removals -/

theorem mem_dismissActs {status : EventStatus} {posted : List Response}
    (h : a ∈ c.dismissActs s eb status posted) :
    (∃ n, a = .take s n eb) ∨
      ((c.block eb).status = .active ∧ a = .discard eb (c.pending eb)) ∨
      a = .touch (c.ended s eb status posted) := by
  rcases List.mem_append.mp h with h | h
  · unfold unqueueActs at h
    split at h
    · exact Or.inl ⟨_, List.mem_singleton.mp h⟩
    · rename_i hst
      rcases List.mem_cons.mp h with h | h
      · exact Or.inl ⟨_, h⟩
      · exact Or.inr (Or.inl ⟨hst, List.mem_singleton.mp h⟩)
    · exact Or.inl ⟨_, List.mem_singleton.mp h⟩
    · exact Or.inl ⟨_, List.mem_singleton.mp h⟩
    · cases h
  · exact Or.inr (Or.inr (List.mem_singleton.mp h))

theorem mem_blockActs {acts : ScheduleId → BlockId → List Act} (h : a ∈ c.blockActs event acts) :
    ∃ s ∈ (c.stub event).schedules, ∃ eb, c.getBlock s event = some eb ∧ a ∈ acts s eb := by
  unfold blockActs at h
  obtain ⟨s, hs, h⟩ := List.mem_flatMap.mp h
  cases hget : c.getBlock s event with
  | none => rw [hget] at h; cases h
  | some eb => rw [hget] at h; exact ⟨s, hs, eb, hget, h⟩

theorem mem_removeProgramsActs {derpl : List StubId} (h : a ∈ c.removeProgramsActs s derpl) :
    ∃ eb ∈ (c.schedule s).blocks, (c.block eb).program.any (· ∈ derpl) = true ∧
      a ∈ c.dismissActs s eb .aborted (c.abortPosted s eb) := by
  unfold removeProgramsActs at h
  split at h
  · cases h
  · obtain ⟨eb, heb, h⟩ := List.mem_flatMap.mp h
    split at h
    · rename_i hany; exact ⟨eb, heb, hany, h⟩
    · cases h

end Core

/-! ## Reasons -/

/-- A call of `schedule_event` comes to its switch, with the block `eb` on the memory `c`. -/
inductive EventCall.Places (x : EventCall) (q : Board) : Core → BlockId → Prop
  | known {eb : BlockId} : x.world.core.getBlock x.sched x.event = some eb →
      (x.world.core.block eb).status.terminal = false → q.Loose eb →
      Places x q (x.world.core.withPrimacy eb x.primacy) eb
  | new {eb : BlockId} {c : Core} : x.world.core.getBlock x.sched x.event = none →
      x.world.core.registerEvent x.sched x.event x.primacy = some (c, eb, false) →
      Core.Registration x.world.core q x.sched x.event eb false c → Places x q c eb

/-- The block and the memory a call of `schedule_event` comes to its switch with, unless the
block is done with. -/
def EventCall.placed (x : EventCall) : Option (Core × BlockId) :=
  match x.world.core.getBlock x.sched x.event with
  | some eb =>
    if (x.world.core.block eb).status.terminal then none
    else some (x.world.core.withPrimacy eb x.primacy, eb)
  | none =>
    match x.world.core.registerEvent x.sched x.event x.primacy with
    | some (c, eb, false) => some (c, eb)
    | _ => none

/-- A call of `schedule_event` in a step, on the board it finds. -/
structure Places (cl : Client) (w : World) (i : Invocation) (x : EventCall) (q : Board) (c : Core)
    (eb : BlockId) : Prop where
  call : x ∈ w.calls cl i
  rep : x.world.links.Represents q
  sound : Plan.Sound ⟨q, x.world.core⟩
  time : x.world.core.seTime = w.core.seTime
  places : x.Places q c eb

/-- A call `insert_active (s, eb)` in a step, on the memory `c` and the queue `l`. -/
inductive Enters (cl : Client) (w : World) (i : Invocation) :
    ScheduleId → Core → BlockId → List BlockId → Prop
  | admitted {x : EventCall} {q : Board} {c : Core} {eb : BlockId} : Places cl w i x q c eb →
      (c.eventStatus x.event = .scheduled ∧ (c.block eb).status = .activeWait ∨
        c.eventStatus x.event = .active) →
      Enters cl w i x.sched c eb (q x.sched .active)
  | promote {s : ScheduleId} {call : Call} {p : Plan} : i.op = .updateSchedule s →
      call ∈ w.updateCalls i.fuel s → p.Sound → p.core = call.core →
      call.block ∈ p.queue s .scheduled → (∀ b ∈ call.active, b ∈ p.queue s .active) →
      (call.core.block call.block).start ≤ w.core.seTime → call.core.seTime = w.core.seTime →
      Enters cl w i s call.core call.block call.active

/-- A block is removed by `remove_blocks` or `remove_programs`, with a status and Responses. -/
inductive Dismisses (cl : Client) (w : World) (i : Invocation) :
    Core → ScheduleId → BlockId → EventStatus → List Response → Prop
  | remove {event : StubId} {response : ResponseType} {s : ScheduleId} {eb : BlockId} :
      i.op = .eventUpdate event →
      (w.core.eventStatus event = .canceled ∨ w.core.eventStatus event = .canceledRandom) ∧
          response = .eventCanceled ∨
        w.core.eventStatus event = .superseded ∧ response = .eventSuperseded →
      s ∈ (w.core.stub event).schedules → w.core.getBlock s event = some eb →
      Dismisses cl w i w.core s eb (w.core.eventStatus event)
        (w.core.removalPosted event s eb response)
  | abort {c : Core} {s : ScheduleId} {derpl : List StubId} {eb : BlockId} :
      w.Removes cl i c s derpl → Still w.core c → eb ∈ (c.schedule s).blocks →
      (c.block eb).program.any (· ∈ derpl) = true →
      Dismisses cl w i c s eb .aborted (c.abortPosted s eb)

/-- **Why a step changes a block.** -/
inductive Cause (cl : Client) (w : World) (q : Board) (i : Invocation) : Touch → Prop
  /-- `insert_active` supersedes a block of the queue. -/
  | beaten {s : ScheduleId} {c : Core} {eb a : BlockId} {l : List BlockId} :
      Enters cl w i s c eb l → a ∈ l → (a, Fate.beats) ∈ (c.loadDer eb).contest eb l →
      Cause cl w q i (c.beaten s eb a)
  /-- The block `insert_active` inserts is superseded. -/
  | yields {s : ScheduleId} {c : Core} {eb : BlockId} {l : List BlockId} :
      Enters cl w i s c eb l → yielded ((c.loadDer eb).contest eb l) = true →
      Cause cl w q i (c.outdone s eb)
  /-- The block `insert_active` inserts waits for its event. -/
  | waits {s : ScheduleId} {c : Core} {eb : BlockId} {l : List BlockId} :
      Enters cl w i s c eb l → yielded ((c.loadDer eb).contest eb l) = false →
      c.eventStatus (c.block eb).event = .scheduled →
      Cause cl w q i (c.turn s eb .activeWait none [])
  /-- The block `insert_active` inserts starts. -/
  | begins {s : ScheduleId} {c : Core} {eb : BlockId} {l : List BlockId} :
      Enters cl w i s c eb l → yielded ((c.loadDer eb).contest eb l) = false →
      c.eventStatus (c.block eb).event = .active → (c.block eb).status ≠ .active →
      Cause cl w q i (c.begun s eb)
  /-- `insert_block` inserts the block. -/
  | enqueued {x : EventCall} {q' : Board} {c : Core} {eb : BlockId} : Places cl w i x q' c eb →
      c.eventStatus x.event = .scheduled → (c.block eb).status ≠ .activeWait →
      Cause cl w q i (c.turn x.sched eb .scheduled none [])
  /-- `insert_block` supersedes the block. -/
  | demoted {t : Touch} : t.found = .scheduled → t.status = .scheduleSuperseded →
      t.mark = none → t.posted = [] → Cause cl w q i t
  /-- `insert_block` moves a boundary of the block. -/
  | shifted {t : Touch} : t.found = .scheduled → t.status = .scheduled →
      t.mark = none → t.posted = [] → Cause cl w q i t
  /-- `schedule_event` takes the status from the event. -/
  | concluded {x : EventCall} {q' : Board} {c : Core} {eb : BlockId} {status : EventStatus}
      {response : ResponseType} : Places cl w i x q' c eb → c.eventStatus x.event = status →
      ((status = .canceled ∨ status = .canceledRandom) ∧ response = .eventCanceled ∨
        status = .superseded ∧ response = .eventSuperseded) →
      Cause cl w q i (c.ended x.sched eb status
        (c.posted (c.schedule x.sched).device x.event response))
  /-- A new block is announced. -/
  | noticed {x : EventCall} {q' : Board} {c : Core} {eb : BlockId} {expired : Bool} :
      x ∈ w.calls cl i → Plan.Sound ⟨q', x.world.core⟩ →
      x.world.core.getBlock x.sched x.event = none →
      (r : Core.Registration x.world.core q' x.sched x.event eb expired c) →
      Cause cl w q i r.notice
  /-- A new block is over already. -/
  | belated {x : EventCall} {q' : Board} {c : Core} {eb : BlockId} :
      x ∈ w.calls cl i → Plan.Sound ⟨q', x.world.core⟩ →
      x.world.core.getBlock x.sched x.event = none →
      (r : Core.Registration x.world.core q' x.sched x.event eb true c) →
      Cause cl w q i { r.notice with status := .completed, posted := r.responses }
  /-- `update_schedule` finds the block over. -/
  | expires {s : ScheduleId} {b : BlockId} : i.op = .updateSchedule s → b ∈ q s .active →
      w.core.elapsed w.core.seTime b = true → Cause cl w q i (w.core.expired s b)
  /-- `update_schedule` finds the superseded block due. -/
  | retires {s : ScheduleId} {b : BlockId} : i.op = .updateSchedule s → b ∈ q s .superseded →
      Cause cl w q i (w.core.outdone s b)
  /-- The event of a waiting block is active. -/
  | wakes {event : StubId} {s : ScheduleId} {eb : BlockId} : i.op = .eventUpdate event →
      w.core.eventStatus event = .active → s ∈ (w.core.stub event).schedules →
      w.core.getBlock s event = some eb → (w.core.block eb).status = .activeWait →
      Cause cl w q i (w.core.begun s eb)
  /-- The block is removed. -/
  | dismissed {c : Core} {s : ScheduleId} {eb : BlockId} {status : EventStatus}
      {posted : List Response} : Dismisses cl w i c s eb status posted →
      Cause cl w q i (c.ended s eb status posted)

namespace EventCall
variable {x : EventCall} {q : Board} {acts : List Act} {a : Act} {t : Touch}

/-- The changes of a call of `schedule_event`: the registration of a new block, and what the
switch does. -/
theorem Acts.cases (h : x.Acts q acts) (ha : a ∈ acts) :
    a = .quiet ∨
      (∃ c eb expired, ∃ r : Core.Registration x.world.core q x.sched x.event eb expired c,
        x.world.core.getBlock x.sched x.event = none ∧
        (a = .register x.sched eb x.event ∨ a = .touch r.notice ∨ expired = true ∧
          a = .touch { r.notice with status := .completed, posted := r.responses })) ∨
      ∃ c eb, x.Places q c eb ∧ a ∈ c.placeActs q x.sched x.event eb := by
  cases h with
  | @known eb hget hloose =>
    rcases List.mem_cons.mp ha with ha | ha
    · exact Or.inl ha
    · split at ha
      · cases ha
      · rename_i hterm
        have hterm : (x.world.core.block eb).status.terminal = false := by simpa using hterm
        exact Or.inr (Or.inr ⟨_, eb, Places.known hget hterm (hloose hterm), ha⟩)
  | @new eb c expired hget hreg r =>
    rcases List.mem_append.mp ha with hmem | hmem
    · clear ha
      rename' hmem => ha
      simp only [Core.registerActs, List.mem_append, List.mem_cons, List.not_mem_nil,
        or_false] at ha
      rcases ha with (ha | ha | ha) | ha
      · exact Or.inl ha
      · exact Or.inr (Or.inl ⟨c, eb, expired, r, hget, Or.inl ha⟩)
      · exact Or.inr (Or.inl ⟨c, eb, expired, r, hget, Or.inr (Or.inl ha)⟩)
      · split at ha
        · rename_i hexp
          exact Or.inr (Or.inl ⟨c, eb, expired, r, hget,
            Or.inr (Or.inr ⟨hexp, List.mem_singleton.mp ha⟩)⟩)
        · cases ha
    · split at hmem
      · cases hmem
      · rename_i hexp
        obtain rfl : expired = false := by simpa using hexp
        exact Or.inr (Or.inr ⟨c, eb, Places.new hget hreg r, hmem⟩)

variable {c : Core} {eb : BlockId}

/-- Placing a block starts on a sound board. -/
theorem Places.sound (h : x.Places q c eb) (hs : Plan.Sound ⟨q, x.world.core⟩) :
    Plan.Sound ⟨q, c⟩ := by
  cases h with
  | known => exact hs.still (Core.withPrimacy_quiet _ _).toStill
  | new _ _ r => exact Plan.run_sound r.run hs

theorem Places.ambient (h : x.Places q c eb) : x.world.core.Ambient c := by
  cases h with
  | known => exact (Core.withPrimacy_quiet _ _).toStill.ambient
  | new _ _ r => exact Plan.run_ambient r.run

theorem Places.loose (h : x.Places q c eb) : q.Loose eb := by
  cases h with
  | known _ _ hloose => exact hloose
  | new _ _ r => exact r.loose

theorem Places.live (h : x.Places q c eb) : (c.block eb).status.terminal = false := by
  cases h with
  | known _ hterm => rw [(Core.withPrimacy_quiet _ _).status]; exact hterm
  | new _ _ r => rw [r.blockStatus]; rfl

theorem Places.placed (h : x.Places q c eb) : x.placed = some (c, eb) := by
  unfold EventCall.placed
  cases h with
  | known hget hterm _ =>
    rw [hget]
    dsimp only
    rw [hterm, if_neg Bool.false_ne_true]
  | new hget hreg _ => rw [hget, hreg]

theorem Places.home (h : x.Places q c eb) : eb ∈ (c.schedule x.sched).blocks := by
  cases h with
  | known hget =>
    rw [(Core.withPrimacy_quiet _ _).blocks]
    exact (Core.findBlock_spec hget).1
  | new _ _ r => exact r.home

end EventCall

namespace Effect
variable {cl : Client} {w : World} {q : Board} {i : Invocation} {t : Touch}

theorem cause_of_insertActive {s : ScheduleId} {c : Core} {eb : BlockId} {l : List BlockId}
    (h : Enters cl w i s c eb l) (ht : .touch t ∈ c.insertActiveActs s eb l) :
    Cause cl w q i t := by
  rcases Core.mem_insertActiveActs ht with h' | ⟨_, h'⟩ | h' | ⟨a, ha, hb, h'⟩ | ⟨hy, h'⟩ |
    ⟨hy, hst, h'⟩ | ⟨hy, hst, hne, h'⟩
  · cases h'
  · cases h'
  · cases h'
  · obtain rfl := Act.touch.inj h'; exact Cause.beaten h ha hb
  · obtain rfl := Act.touch.inj h'; exact Cause.yields h hy
  · obtain rfl := Act.touch.inj h'; exact Cause.waits h hy hst
  · obtain rfl := Act.touch.inj h'; exact Cause.begins h hy hst hne

/-- **Every change of a block has a cause.** -/
theorem Does.cause (h : Does cl w q i (.touch t)) : Cause cl w q i t := by
  cases h with
  | frame _ hsub => cases hsub
  | @admitted x q' acts _ hx hrep hs htime hacts ha =>
    rcases hacts.cases ha with h' | ⟨c, eb, expired, r, hget, h' | h' | ⟨rfl, h'⟩⟩ | ⟨c, eb, hp, ha⟩
    · cases h'
    · cases h'
    · obtain rfl := Act.touch.inj h'
      exact Cause.noticed hx hs hget r
    · obtain rfl := Act.touch.inj h'
      exact Cause.belated hx hs hget r
    · have hplaces : Places cl w i x q' c eb := ⟨hx, hrep, hs, htime, hp⟩
      rcases Core.mem_placeActs ha with ⟨hst, hne, ha⟩ | ⟨hst, ha⟩ | ⟨st, resp, hst, hk, h'⟩
      · have hl : ∀ e ∈ q' x.sched .scheduled, (c.block e).status = .scheduled :=
          fun e he => (hp.sound hs).fits he
        rcases Core.touch_of_mem_insertBlockActs hl ha with
          rfl | ⟨h₁, h₂, h₃, h₄⟩ | ⟨h₁, h₂, h₃, h₄⟩
        · exact Cause.enqueued hplaces hst hne
        · exact Cause.demoted h₁ h₂ h₃ h₄
        · exact Cause.shifted h₁ h₂ h₃ h₄
      · exact cause_of_insertActive (Enters.admitted hplaces hst) ha
      · obtain rfl := Act.touch.inj h'
        exact Cause.concluded hplaces hst hk
  | promote hop hcall hs hcore hblock hactive hdue htime ha =>
    exact cause_of_insertActive (Enters.promote hop hcall hs hcore hblock hactive hdue htime) ha
  | expire hop ha =>
    obtain ⟨b, hb, h' | h'⟩ := Core.mem_popActs ha
    · cases h'
    · obtain rfl := Act.touch.inj h'
      exact Cause.expires hop ((List.takeWhile_prefix _).subset hb)
        (List.all_eq_true.mp List.all_takeWhile b hb)
  | retire hop ha =>
    obtain ⟨b, hb, h' | h'⟩ := Core.mem_popActs ha
    · cases h'
    · obtain rfl := Act.touch.inj h'
      exact Cause.retires hop ((List.takeWhile_prefix _).subset hb)
  | activate hop hst ha =>
    obtain ⟨s, hs, eb, hget, ha⟩ := Core.mem_blockActs ha
    split at ha
    · rename_i hwait
      unfold Core.activateActs at ha
      rw [if_pos (by rw [hwait]; decide)] at ha
      simp only [List.mem_cons, Act.touch.injEq, reduceCtorEq, List.not_mem_nil, or_false] at ha
      rw [ha]
      exact Cause.wakes hop hst hs hget hwait
    · cases ha
  | remove hop hst ha =>
    obtain ⟨s, hs, eb, hget, ha⟩ := Core.mem_blockActs ha
    rcases Core.mem_dismissActs ha with ⟨_, h'⟩ | ⟨_, h'⟩ | h'
    · cases h'
    · cases h'
    · obtain rfl := Act.touch.inj h'
      exact Cause.dismissed (Dismisses.remove hop hst hs hget)
  | abort hrem hstill ha =>
    obtain ⟨eb, heb, hany, ha⟩ := Core.mem_removeProgramsActs ha
    rcases Core.mem_dismissActs ha with ⟨_, h'⟩ | ⟨_, h'⟩ | h'
    · cases h'
    · cases h'
    · obtain rfl := Act.touch.inj h'
      exact Cause.dismissed (Dismisses.abort hrem hstill heb hany)
  | delete hop ha =>
    rcases List.mem_append.mp ha with ha | ha
    · obtain ⟨s, hs, eb, hget, ha⟩ := Core.mem_blockActs ha
      cases List.mem_singleton.mp ha
    · cases List.mem_singleton.mp ha

/-- The pending events of a block are removed when the block is, and is active. -/
theorem Does.dismisses {b : BlockId} {found : List Event} (h : Does cl w q i (.discard b found)) :
    ∃ c s status posted, Dismisses cl w i c s b status posted ∧ (c.block b).status = .active ∧
      found = c.pending b := by
  cases h with
  | frame _ hsub => cases hsub
  | @admitted x q' acts _ hx hrep hs htime hacts ha =>
    rcases hacts.cases ha with h' | ⟨c, eb, expired, r, _, h' | h' | ⟨_, h'⟩⟩ | ⟨c, eb, hp, ha⟩
    · cases h'
    · cases h'
    · cases h'
    · cases h'
    · rcases Core.mem_placeActs ha with ⟨_, _, ha⟩ | ⟨_, ha⟩ | ⟨st, resp, _, _, h'⟩
      · rcases (Core.plain_of_mem_insertBlockActs ha).2 with h' | ⟨_, h'⟩ <;> cases h'
      · exact absurd ha Core.discard_not_mem_insertActiveActs
      · cases h'
  | promote _ _ _ _ _ _ _ _ ha => exact absurd ha Core.discard_not_mem_insertActiveActs
  | expire hop ha => obtain ⟨_, _, h' | h'⟩ := Core.mem_popActs ha <;> cases h'
  | retire hop ha => obtain ⟨_, _, h' | h'⟩ := Core.mem_popActs ha <;> cases h'
  | activate hop hst ha =>
    obtain ⟨s, hs, eb, hget, ha⟩ := Core.mem_blockActs ha
    split at ha
    · unfold Core.activateActs at ha
      split at ha <;> simp at ha
    · cases ha
  | remove hop hst ha =>
    obtain ⟨s, hs, eb, hget, ha⟩ := Core.mem_blockActs ha
    rcases Core.mem_dismissActs ha with ⟨_, h'⟩ | ⟨hactive, h'⟩ | h'
    · cases h'
    · obtain ⟨rfl, rfl⟩ := Act.discard.inj h'
      exact ⟨_, s, _, _, Dismisses.remove hop hst hs hget, hactive, rfl⟩
    · cases h'
  | abort hrem hstill ha =>
    obtain ⟨eb, heb, hany, ha⟩ := Core.mem_removeProgramsActs ha
    rcases Core.mem_dismissActs ha with ⟨_, h'⟩ | ⟨hactive, h'⟩ | h'
    · cases h'
    · obtain ⟨rfl, rfl⟩ := Act.discard.inj h'
      exact ⟨_, _, _, _, Dismisses.abort hrem hstill heb hany, hactive, rfl⟩
    · cases h'
  | delete hop ha =>
    rcases List.mem_append.mp ha with ha | ha
    · obtain ⟨s, hs, eb, hget, ha⟩ := Core.mem_blockActs ha
      cases List.mem_singleton.mp ha
    · cases List.mem_singleton.mp ha

/-- The changes of the registries and the devices. -/
theorem Does.plain_or {a : Act} (h : Does cl w q i a) :
    a.Plain ∨ (∃ s b event, a = .register s b event ∧ w.calls cl i ≠ []) ∨
      (∃ d edev fsa w₀, a = .assign d edev ∧ i.op = .scheduleDer edev ∧
        w.getDevice (w.core.data edev).sFDI = (w₀, d) ∧
        w₀.core.getSubordinate edev SeType.functionSetAssignmentsList = some fsa) ∨
      ∃ event s b, a = .delete s b (w.core.block b).status ∧ i.op = .deleteBlocks event ∧
        s ∈ (w.core.stub event).schedules ∧ w.core.getBlock s event = some b := by
  cases h with
  | frame hplain _ => exact Or.inl hplain
  | @assign edev fsa w₀ d hop hget hfsa =>
    exact Or.inr (Or.inr (Or.inl ⟨d, edev, fsa, w₀, rfl, hop, hget, hfsa⟩))
  | @admitted x q' acts _ hx hrep hs htime hacts ha =>
    rcases hacts.cases ha with rfl | ⟨c, eb, expired, r, _, rfl | rfl | ⟨_, rfl⟩⟩ | ⟨c, eb, hp, ha⟩
    · exact Or.inl trivial
    · exact Or.inr (Or.inl ⟨_, _, _, rfl, List.ne_nil_of_mem hx⟩)
    · exact Or.inl trivial
    · exact Or.inl trivial
    · exact Or.inl (Core.plain_of_mem_placeActs ha)
  | promote _ _ _ _ _ _ _ _ ha => exact Or.inl (Core.plain_of_mem_insertActiveActs ha)
  | expire hop ha => exact Or.inl (Core.plain_of_mem_popActs ha)
  | retire hop ha => exact Or.inl (Core.plain_of_mem_popActs ha)
  | activate hop hst ha =>
    obtain ⟨s, hs, eb, hget, ha⟩ := Core.mem_blockActs ha
    split at ha
    · exact Or.inl (Core.activateActs_only ha).1
    · cases ha
  | remove hop hst ha =>
    obtain ⟨s, hs, eb, hget, ha⟩ := Core.mem_blockActs ha
    exact Or.inl (Core.dismissActs_only ha).1
  | abort hrem hstill ha =>
    obtain ⟨eb, heb, hany, ha⟩ := Core.mem_removeProgramsActs ha
    exact Or.inl (Core.dismissActs_only ha).1
  | @delete event _ hop ha =>
    rcases List.mem_append.mp ha with ha | ha
    · obtain ⟨s, hs, eb, hget, ha⟩ := Core.mem_blockActs ha
      rw [List.mem_singleton.mp ha]
      exact Or.inr (Or.inr (Or.inr ⟨event, s, eb, rfl, hop, hs, hget⟩))
    · rw [List.mem_singleton.mp ha]
      exact Or.inl trivial

/-- Only `delete_blocks` frees blocks. -/
theorem Does.deletes {s : ScheduleId} {b : BlockId} {found : EventStatus}
    (h : Does cl w q i (.delete s b found)) :
    ∃ event, i.op = .deleteBlocks event ∧ s ∈ (w.core.stub event).schedules ∧
      w.core.getBlock s event = some b ∧ found = (w.core.block b).status := by
  rcases h.plain_or with h | ⟨_, _, _, h, _⟩ | ⟨_, _, _, _, h, _⟩ |
    ⟨event, s', b', h, hop, hs, hget⟩
  · exact absurd h id
  · cases h
  · cases h
  · obtain ⟨rfl, rfl, rfl⟩ := Act.delete.inj h
    exact ⟨event, hop, hs, hget, rfl⟩

/-- Only `schedule_der` gives a Schedule its device. -/
theorem Does.assigns {d : ScheduleId} {edev : StubId} (h : Does cl w q i (.assign d edev)) :
    ∃ fsa w₀, i.op = .scheduleDer edev ∧ w.getDevice (w.core.data edev).sFDI = (w₀, d) ∧
      w₀.core.getSubordinate edev SeType.functionSetAssignmentsList = some fsa := by
  rcases h.plain_or with h | ⟨_, _, _, h, _⟩ | ⟨_, _, fsa, w₀, h, hop, hget, hfsa⟩ | ⟨_, _, _, h, _⟩
  · exact absurd h id
  · cases h
  · obtain ⟨rfl, rfl⟩ := Act.assign.inj h
    exact ⟨fsa, w₀, hop, hget, hfsa⟩
  · cases h

end Effect
end SeClient
