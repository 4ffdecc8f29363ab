import SeClient.ScheduleTables

/-!
# START and END pairing

The EVENT_STARTs and EVENT_ENDs of a block, those delivered and then those pending, alternate
and begin with EVENT_START; the last one is an EVENT_START exactly while the block is registered
and Active.
-/

namespace SeClient
open Transition

/-- The events delivered in a run, oldest first. -/
def delivered (is : List Invocation) : List Event :=
  is.filterMap fun i =>
    match i.op with
    | .nextEvent e => e
    | _ => none

/-- The types of the events about a block. -/
def marksOf (es : List Event) (b : BlockId) : List EventType :=
  (es.filter fun e => e.data = .block b).map Event.type

/-- Whether a control is running after a mark, if the mark may come now. -/
def pair : Bool → EventType → Option Bool
  | false, .eventStart => some true
  | true, .eventEnd => some false
  | _, _ => none

/-- Whether a control is running after some marks, `none` when they do not alternate. -/
def pairs (started : Bool) (marks : List EventType) : Option Bool := marks.foldlM pair started

/-- The block is registered and Active. -/
def Core.Running (c : Core) (b : BlockId) : Prop :=
  (∃ s, b ∈ (c.schedule s).blocks) ∧ (c.block b).status = .active

/-- A call of `schedule_event` leaves the control of an Active block running: the event has
started, and the block is not superseded in favour of a block of the queue. -/
def EventCall.Resumes (x : EventCall) : Prop :=
  ∀ eb, x.world.core.getBlock x.sched x.event = some eb →
    (x.world.core.block eb).status = .active →
    let c := x.world.core.withPrimacy eb x.primacy
    c.eventStatus x.event ≠ .scheduled ∧
      (c.eventStatus x.event = .active →
        yielded ((c.loadDer eb).contest eb (x.world.queue x.sched .active)) = false ∧
          c.eventStatus (c.block eb).event ≠ .scheduled)

/-- The steps that keep START and END paired. -/
structure World.Pairing (cl : Client) (w : World) (i : Invocation) : Prop extends w.Tidy cl i where
  resumes : ∀ x ∈ w.calls cl i, x.Resumes
  /-- A START of a block that is removed is not pending. -/
  delivered : ∀ c s eb status posted, Dismisses cl w i c s eb status posted →
    (c.block eb).status = .active → (c.pending eb).length % 2 = 0
  /-- No block is freed while it is Active. -/
  ended : ∀ event, i.op = .deleteBlocks event → ∀ s ∈ (w.core.stub event).schedules, ∀ eb,
    w.core.getBlock s event = some eb → (w.core.block eb).status ≠ .active

/-! ## Marks -/

section Marks
variable {started r : Bool} {marks marks' : List EventType} {es es' : List Event} {b : BlockId}

theorem marksOf_append : marksOf (es ++ es') b = marksOf es b ++ marksOf es' b := by
  rw [marksOf, List.filter_append, List.map_append]
  rfl

theorem marksOf_pending (c : Core) (b : BlockId) :
    marksOf c.imEvent b = (c.pending b).map Event.type := rfl

theorem pairs_append : pairs started (marks ++ marks') =
    (pairs started marks).bind fun r => pairs r marks' :=
  List.foldlM_append

theorem pairs_prefix (h : pairs started (marks ++ marks') = some r) :
    ∃ r', pairs started marks = some r' ∧ pairs r' marks' = some r := by
  rw [pairs_append] at h
  exact Option.bind_eq_some_iff.mp h

/-- Every mark turns the control on or off. -/
theorem pairs_parity (h : pairs started marks = some r) :
    r = (started ^^ decide (marks.length % 2 = 1)) := by
  induction marks generalizing started with
  | nil =>
    rw [← foldlM_nil_eq_some.mp h]
    simp
  | cons m marks ih =>
    obtain ⟨r', hm, h⟩ := foldlM_cons_eq_some.mp h
    have hr' : r' = !started := by
      unfold pair at hm
      split at hm
      · exact (Option.some.inj hm).symm
      · exact (Option.some.inj hm).symm
      · cases hm
    rw [ih h, hr', List.length_cons]
    rcases Nat.mod_two_eq_zero_or_one marks.length with hl | hl <;>
      cases started <;> simp [hl, Nat.add_mod]

/-- Marks that come in pairs may be taken off the end. -/
theorem pairs_of_even (h : pairs started (marks ++ marks') = some r)
    (heven : marks'.length % 2 = 0) : pairs started marks = some r := by
  obtain ⟨r', h₁, h₂⟩ := pairs_prefix h
  rw [h₁, pairs_parity h₂, heven]
  simp

end Marks

/-! ## The changes that keep the marks paired -/

/-- The mark a change of status owes. -/
def Touch.owed (t : Touch) : Option EventType :=
  if t.found ≠ .active ∧ t.status = .active then some .eventStart
  else if t.found = .active ∧ t.status ≠ .active then some .eventEnd
  else none

/-- The changes that keep START and END paired. -/
def Act.Paired : Act → Prop
  | .touch t => t.mark = t.owed
  | .discard _ found => found.length % 2 = 0
  | .delete _ _ found => found ≠ .active
  | _ => True

/-- **The invariant**: the marks of every block alternate, and tell whether it is running. -/
structure Paired (past : List Event) (c : Core) : Prop where
  marks : ∀ b, ∃ started, pairs false (marksOf (past ++ c.imEvent) b) = some started ∧
    (started = true ↔ c.Running b)
  fresh : ∀ b, c.freshBlock ≤ b → marksOf (past ++ c.imEvent) b = []
  timed : c.curEvent.filter Event.ofBlock = []

theorem marksOf_congr {past : List Event} {c c' : Core} {b : BlockId}
    (h : c'.pending b = c.pending b) :
    marksOf (past ++ c'.imEvent) b = marksOf (past ++ c.imEvent) b := by
  rw [marksOf_append, marksOf_append, marksOf_pending, marksOf_pending, h]

theorem Paired.still {past : List Event} {c c' : Core} (h : Paired past c) (hc : Still c c') :
    Paired past c' := by
  have hrunning : ∀ b, c'.Running b ↔ c.Running b := fun b => by
    unfold Core.Running
    simp only [hc.blocks, hc.status]
  have hmarks : ∀ b, marksOf (past ++ c'.imEvent) b = marksOf (past ++ c.imEvent) b :=
    fun b => marksOf_congr (hc.keeps b).pending
  refine ⟨fun b => ?_, fun b hb => ?_, ?_⟩
  · rw [hmarks, hrunning]; exact h.marks b
  · rw [hmarks]; exact h.fresh b (hc.freshBlock ▸ hb)
  · rw [hc.curEvent]; exact h.timed

theorem removeEvent_timed {c : Core} (h : c.curEvent.filter Event.ofBlock = []) (b : BlockId) :
    (c.removeEvent (.block b)).curEvent.filter Event.ofBlock = [] := by
  have hcomm : (c.removeEvent (.block b)).curEvent.filter Event.ofBlock =
      (c.curEvent.filter Event.ofBlock).filter fun e => e.data ≠ .block b := by
    unfold Core.removeEvent
    rw [List.filter_filter, List.filter_filter]
    exact List.filter_congr fun e _ => Bool.and_comm _ _
  rw [hcomm, h, List.filter_nil]

/-- **One change keeps the marks paired.** -/
theorem Paired.change {past : List Event} {p p' : Plan} {a : Act} (h : Paired past p.core)
    (hs : p.Sound) (ha : a.Paired) (hc : Plan.Change p a p') : Paired past p'.core := by
  have hother : ∀ b, a.subject ≠ some b → marksOf (past ++ p'.core.imEvent) b =
      marksOf (past ++ p.core.imEvent) b := fun b hb => marksOf_congr (hc.keeps hb).pending
  cases hc with
  | quiet hq => exact h.still hq.toStill
  | signal hq => exact h.still hq
  | @assign q c s device _ =>
    refine ⟨fun b => ?_, h.fresh, h.timed⟩
    have hrunning : (c.assign s device).Running b ↔ c.Running b := by
      unfold Core.Running
      simp only [Core.assign_blocks]
      rfl
    obtain ⟨started, hp, hiff⟩ := h.marks b
    exact ⟨started, hp, hiff.trans hrunning.symm⟩
  | @touch q c t hfound hhome _ _ =>
    have hreg : ∀ b, (∃ s, b ∈ ((c.touch t).schedule s).blocks) ↔ ∃ s, b ∈ (c.schedule s).blocks :=
      fun b => Iff.rfl
    refine ⟨fun b => ?_, fun b hb => ?_, h.timed⟩
    · by_cases hb : b = t.block
      · subst hb
        obtain ⟨started, hp, hiff⟩ := h.marks t.block
        have hmarks : marksOf (past ++ (c.touch t).imEvent) t.block =
            marksOf (past ++ c.imEvent) t.block ++ t.mark.toList := by
          unfold Core.touch
          rw [marksOf_append, marksOf_append, marksOf_append]
          cases t.mark <;> simp [marksOf]
        have hrunning : c.Running t.block ↔ t.found = .active := by
          rw [hfound]
          exact ⟨fun h => h.2, fun h => ⟨⟨_, hhome⟩, h⟩⟩
        have hafter : (c.touch t).Running t.block ↔ t.status = .active := by
          unfold Core.Running
          rw [hreg]
          simp [Core.touch]
          exact fun _ => ⟨_, hhome⟩
        have hmark : t.mark = t.owed := ha
        rw [hmarks, hafter, pairs_append, hp, hmark]
        rw [hrunning] at hiff
        unfold Touch.owed
        by_cases h₁ : t.found = .active <;> by_cases h₂ : t.status = .active <;>
          simp [h₁, h₂] at hiff ⊢ <;> subst hiff <;> simp [pairs, pair]
      · have hkeep := Core.touch_block_of_ne (c := c) hb
        rw [hother b (fun he => hb (Option.some.inj he).symm)]
        unfold Core.Running
        rw [hkeep]
        exact h.marks b
    · rw [hother b fun he => ?_]
      · exact h.fresh b hb
      · have : t.block = b := Option.some.inj he
        exact absurd (hs.alloc hhome) (by rw [this]; exact Nat.not_lt.mpr hb)
  | @discard q c b =>
    have hmarks : ∀ x, marksOf (past ++ (c.removeEvent (.block b)).imEvent) x =
        if x = b then marksOf past x else marksOf (past ++ c.imEvent) x := by
      intro x
      split
      · rename_i hx
        subst hx
        rw [marksOf_append]
        simp [marksOf, Core.removeEvent, List.filter_filter]
      · rename_i hx
        exact hother x fun he => hx (Option.some.inj he).symm
    refine ⟨fun x => ?_, fun x hx => ?_, ?_⟩
    · rw [hmarks]
      split
      · rename_i hx
        subst hx
        obtain ⟨started, hp, hiff⟩ := h.marks x
        rw [marksOf_append] at hp
        refine ⟨started, pairs_of_even hp ?_, hiff⟩
        rw [marksOf_pending, List.length_map]
        exact ha
      · exact h.marks x
    · rw [hmarks]
      split
      · have := h.fresh x hx
        rw [marksOf_append, List.append_eq_nil_iff] at this
        exact this.1
      · exact h.fresh x hx
    · exact removeEvent_timed h.timed b
  | @register q c s block _ _ hstatus _ =>
    -- The block is new: no mark is about it, and no Schedule has it.
    have hnone : ¬ ∃ s', c.freshBlock ∈ (c.schedule s').blocks := by
      rintro ⟨_, hb⟩
      exact Nat.lt_irrefl _ (hs.alloc hb)
    refine ⟨fun b => ?_, fun b hb => h.fresh b (Nat.le_of_succ_le hb), h.timed⟩
    by_cases hb : b = c.freshBlock
    · subst hb
      have hnew : (c.enroll s block).block c.freshBlock = block := Function.update_self ..
      have hmarks : marksOf (past ++ (c.enroll s block).imEvent) c.freshBlock = [] :=
        h.fresh c.freshBlock (Nat.le_refl _)
      refine ⟨false, by rw [hmarks]; rfl, iff_of_false Bool.false_ne_true fun hr => ?_⟩
      have := hr.2
      rw [hnew, hstatus] at this
      cases this
    · have hsame : (c.enroll s block).block b = c.block b := Function.update_of_ne hb ..
      obtain ⟨started, hp, hiff⟩ := h.marks b
      refine ⟨started, hp, hiff.trans ?_⟩
      unfold Core.Running
      rw [hsame]
      simp only [Core.mem_enroll_blocks, hb, and_false, or_false]
  -- A Schedule loses a block that is not Active; the others run as they did.
  | @delete q c s b _ hb =>
    refine ⟨fun x => ?_, h.fresh, h.timed⟩
    obtain ⟨started, hp, hiff⟩ := h.marks x
    refine ⟨started, hp, hiff.trans ?_⟩
    have hblock : (c.strike s b).block x = c.block x := rfl
    unfold Core.Running
    rw [hblock]
    by_cases hx : x = b
    · subst hx
      exact iff_of_false (fun h => ha h.2) (fun h => ha h.2)
    · simp only [Core.strike_blocks]
      refine and_congr_left fun _ => exists_congr fun s' => ?_
      split
      · rename_i he
        subst he
        exact (List.mem_erase_of_ne hx).symm
      · exact Iff.rfl
  | _ => exact h

/-! ## Every step is paired -/

section Steps
variable {cl : Client} {w : World} {q : Board} {i : Invocation} {s : ScheduleId} {c : Core}
  {eb : BlockId} {l : List BlockId} {t : Touch} {a : Act}

/-- A running block that `insert_active` inserts again is not superseded, and does not wait. -/
theorem Enters.resumes (h : Enters cl w i s c eb l) (hok : w.Pairing cl i)
    (hactive : (c.block eb).status = .active) :
    yielded ((c.loadDer eb).contest eb l) = false ∧
      c.eventStatus (c.block eb).event ≠ .scheduled := by
  cases h with
  | @admitted x q' c eb hplaces hst =>
    obtain ⟨hx, hrep, hs, _, hp⟩ := hplaces
    have hst : c.eventStatus x.event = .active := by
      rcases hst with ⟨_, hwait⟩ | hst
      · rw [hactive] at hwait; cases hwait
      · exact hst
    cases hp with
    | known hget _ _ =>
      rw [(Core.withPrimacy_quiet _ _).status] at hactive
      -- The condition is about the list that the call begins with.
      rw [← World.queue_eq hrep hs]
      exact (hok.resumes x hx eb hget hactive).2 hst
    | new _ _ r =>
      rw [r.blockStatus] at hactive
      cases hactive
  | promote _ _ hs hcore hblock =>
    have hfits := hs.fits hblock
    rw [hcore] at hfits
    cases hactive.symm.trans hfits

/-- **Every change of a block in a step queues the mark it owes.** -/
theorem Cause.owed (h : Cause cl w q i t) (hs : Plan.Sound ⟨q, w.core⟩) (hok : w.Pairing cl i) :
    t.mark = t.owed := by
  have hended : ∀ (c : Core) (s : ScheduleId) (eb : BlockId) (status : EventStatus) posted,
      status ≠ .active → (c.ended s eb status posted).mark = (c.ended s eb status posted).owed := by
    intro c s eb status posted hne
    unfold Touch.owed Core.ended
    by_cases h : (c.block eb).status = .active <;> simp [h, hne]
  cases h with
  | @beaten s c eb a l _ _ _ =>
    unfold Touch.owed Core.beaten
    by_cases h : (c.block a).status = .active <;> simp [h]
  | @yields s c eb l henter hy =>
    have hne : (c.block eb).status ≠ .active := fun hactive => by
      rw [(henter.resumes hok hactive).1] at hy; cases hy
    simp [Touch.owed, Core.outdone, Core.turn, hne]
  | @waits s c eb l henter _ hst =>
    have hne : (c.block eb).status ≠ .active := fun hactive => (henter.resumes hok hactive).2 hst
    simp [Touch.owed, Core.turn, hne]
  | begins _ _ _ hne => simp [Touch.owed, Core.begun, Core.turn, hne]
  | @enqueued x q' c eb hplaces hst _ =>
    have hne : (c.block eb).status ≠ .active := fun hactive => by
      cases hplaces.places with
      | known hget _ _ =>
        rw [(Core.withPrimacy_quiet _ _).status] at hactive
        exact (hok.resumes x hplaces.call eb hget hactive).1 hst
      | new _ _ r =>
        rw [r.blockStatus] at hactive
        cases hactive
    simp [Touch.owed, Core.turn, hne]
  | demoted h₁ h₂ h₃ _ => simp [Touch.owed, h₁, h₂, h₃]
  | shifted h₁ h₂ h₃ _ => simp [Touch.owed, h₁, h₂, h₃]
  | concluded _ _ hk =>
    refine hended _ _ _ _ _ ?_
    rcases hk with ⟨rfl | rfl, _⟩ | ⟨rfl, _⟩ <;> decide
  | noticed _ _ _ r => simp [Touch.owed, r.found, r.status, r.mark]
  | belated _ _ _ r => simp [Touch.owed, r.found, r.mark]
  | @expires s b _ _ _ =>
    unfold Core.expired
    split
    · rename_i hst; simp [Touch.owed, Core.turn, hst]
    · rename_i hst; simp [Touch.owed, Core.turn, hst]
  | retires _ hb =>
    have hst : (w.core.block _).status = .scheduleSuperseded := hs.fits hb
    simp [Touch.owed, Core.outdone, Core.turn, hst]
  | wakes _ _ _ _ hwait => simp [Touch.owed, Core.begun, Core.turn, hwait]
  | dismissed hdis =>
    refine hended _ _ _ _ _ ?_
    cases hdis with
    | remove _ hst _ _ =>
      rcases hst with ⟨h | h, _⟩ | ⟨h, _⟩ <;> rw [h] <;> decide
    | abort => decide

theorem paired_of_does (h : Effect.Does cl w q i a) (hs : Plan.Sound ⟨q, w.core⟩)
    (hok : w.Pairing cl i) : a.Paired := by
  cases a with
  | touch t => exact h.cause.owed hs hok
  | discard b found =>
    obtain ⟨c, s, status, posted, hdis, hactive, rfl⟩ := h.dismisses
    exact hok.delivered c s b status posted hdis hactive
  | delete s b found =>
    obtain ⟨event, hop, hs', hget, rfl⟩ := h.deletes
    exact hok.ended event hop s hs' b hget
  | _ => trivial

/-- The environment does not see the marks. -/
theorem Paired.environment {past : List Event} {c' : Core} (h : Paired past c)
    (hc : Environment c c') : Paired past c' := by
  have hmarks : ∀ b, marksOf (past ++ c'.imEvent) b = marksOf (past ++ c.imEvent) b :=
    fun b => marksOf_congr (by rw [c'.pending_eq, c.pending_eq, hc.imEvent])
  refine ⟨fun b => ?_, fun b hb => ?_, by rw [hc.curEvent]; exact h.timed⟩
  · rw [hmarks]
    unfold Core.Running
    rw [hc.schedule, hc.block]
    exact h.marks b
  · rw [hmarks]; exact h.fresh b (hc.freshBlock ▸ hb)

/-- Delivering the event at the head of the queue keeps the sequence of marks. -/
theorem marksOf_next {u : List Event} {c' : Core} {e : Option Event}
    (hc : c.nextEvent = (c', e)) (htimed : c.curEvent.filter Event.ofBlock = []) :
    (∀ b, marksOf (u ++ e.toList ++ c'.imEvent) b = marksOf (u ++ c.imEvent) b) ∧
      c'.curEvent.filter Event.ofBlock = [] := by
  rcases Core.nextEvent_spec hc with ⟨rfl, rfl⟩ | ⟨x, im, rfl, him, rfl⟩ |
    ⟨x, cur, rfl, him, hcur, _, rfl⟩
  · exact ⟨fun b => by rw [Option.toList_none, List.append_nil], htimed⟩
  · exact ⟨fun b => by rw [him]; simp, htimed⟩
  · rw [hcur, List.filter_cons] at htimed
    split at htimed
    · cases htimed
    · rename_i hx
      refine ⟨fun b => ?_, htimed⟩
      have hxb : x.data ≠ .block b := fun he => hx (by rw [Event.ofBlock, he])
      rw [marksOf_append, marksOf_append, marksOf_append]
      simp [marksOf, hxb]

theorem Core.frame_next {c' : Core} {e : Option Event} (hc : c.nextEvent = (c', e)) :
    c'.block = c.block ∧ c'.schedule = c.schedule ∧ c'.started = c.started ∧
      c'.freshBlock = c.freshBlock := by
  rcases Core.nextEvent_spec hc with ⟨_, rfl⟩ | ⟨_, _, _, _, rfl⟩ | ⟨_, _, _, _, _, _, rfl⟩ <;>
    exact ⟨rfl, rfl, rfl, rfl⟩

/-- No event about a block is ever timed. -/
theorem timed_step {p : Plan} (h : w.core.curEvent.filter Event.ofBlock = [])
    (hs : Plan.Sound ⟨q, w.core⟩) (he : Effect cl w q i p) :
    p.core.curEvent.filter Event.ofBlock = [] := by
  by_cases hop : ∃ e, i.op = .nextEvent e
  · obtain ⟨e, hop⟩ := hop
    exact (marksOf_next (u := []) (he.of_next hop).2 h).2
  · rcases he.run hs (fun e he => hop ⟨e, he⟩) with ⟨_, henv⟩ | ⟨acts, hrun, _⟩
    · rw [henv.curEvent]; exact h
    · refine hrun.preserves (G := fun _ => True) (fun _ _ => trivial)
        (J := fun p => p.core.curEvent.filter Event.ofBlock = []) (fun p a p' _ hp hc => ?_) h
      cases hc with
      | quiet hq => rw [hq.curEvent]; exact hp
      | signal hq => rw [hq.curEvent]; exact hp
      | discard => exact removeEvent_timed hp _
      | _ => exact hp

theorem Paired.next {past : List Event} {c' : Core} {e : Option Event} (h : Paired past c)
    (hc : c.nextEvent = (c', e)) : Paired (past ++ e.toList) c' := by
  obtain ⟨hmarks, htimed⟩ := marksOf_next (u := past) hc h.timed
  obtain ⟨hblock, hsched, _, hfresh⟩ := Core.frame_next hc
  refine ⟨fun b => ?_, fun b hb => ?_, htimed⟩
  · rw [hmarks]
    unfold Core.Running
    rw [hblock, hsched]
    exact h.marks b
  · rw [hmarks]; exact h.fresh b (hfresh ▸ hb)

theorem delivered_snoc (is : List Invocation) (i : Invocation) :
    delivered (is ++ [i]) = delivered is ++ delivered [i] := List.filterMap_append

theorem delivered_of_ne (h : ∀ e, i.op ≠ .nextEvent e) : delivered [i] = [] := by
  unfold delivered
  rw [List.filterMap_cons]
  cases hop : i.op with
  | nextEvent e => exact absurd hop (h e)
  | _ => rfl

theorem delivered_of_next {e : Option Event} (h : i.op = .nextEvent e) :
    delivered [i] = e.toList := by
  unfold delivered
  rw [List.filterMap_cons, h]
  cases e <;> rfl

/-- **One step keeps the marks paired.** -/
theorem Paired.step {past : List Invocation} {p : Plan} (h : Paired (delivered past) w.core)
    (hs : Plan.Sound ⟨q, w.core⟩) (hok : w.Pairing cl i) (he : Effect cl w q i p) :
    Paired (delivered (past ++ [i])) p.core := by
  rw [delivered_snoc]
  -- Only `next_event` delivers: there a mark moves from the queue to those delivered.
  by_cases hop : ∃ e, i.op = .nextEvent e
  · obtain ⟨e, hop⟩ := hop
    rw [delivered_of_next hop]
    exact h.next (he.of_next hop).2
  · have hop : ∀ e, i.op ≠ .nextEvent e := fun e he => hop ⟨e, he⟩
    rw [delivered_of_ne hop, List.append_nil]
    rcases he.run hs hop with ⟨_, henv⟩ | ⟨acts, hrun, hacts⟩
    · exact h.environment henv
    · have hboth := hrun.preserves (G := Act.Paired)
        (J := fun p => p.Sound ∧ Paired (delivered past) p.core)
        (fun a ha => paired_of_does (hacts a ha) hs hok)
        (fun p a p' ha hp hc => ⟨hc.sound hp.1, hp.2.change hp.1 ha hc⟩) ⟨hs, h⟩
      exact hboth.2

end Steps

theorem World.Initial.marks {w : World} (h : w.Initial) : Paired [] w.core where
  marks b := by
    refine ⟨false, by rw [h.imEvent]; rfl, iff_of_false Bool.false_ne_true fun hr => ?_⟩
    obtain ⟨⟨s, hb⟩, _⟩ := hr
    rw [h.blocks] at hb
    cases hb
  fresh b _ := by rw [h.imEvent]; rfl
  timed := by rw [h.curEvent]; rfl

/-- The events delivered for a block alternate and begin with START; with those pending they
end in START exactly while the block is registered and Active. -/
def MarksPaired (past : List Event) (c : Core) (b : BlockId) : Prop :=
  (pairs false (marksOf past b)).isSome ∧
    ∃ started, pairs false (marksOf (past ++ c.imEvent) b) = some started ∧
      (started = true ↔ c.Running b)

/-- The steps that keep START and END paired, and that the tables of the Schedules serve. -/
structure Logged.Pairing (cl : Client) (l : Logged) (i : Invocation) : Prop where
  world : l.world.Pairing cl i
  served : l.Served cl i

/-- **START and END pairing**, in runs of pairing steps, with tables that answer as the lists of
blocks do. -/
theorem start_end_pairing {cl : Client} {l₀ l : Logged} {is : List Invocation} (h₀ : l₀.Initial)
    (h : Run (Guarded (LoggedStep cl) (Logged.Pairing cl)) l₀ is l) (b : BlockId) :
    MarksPaired (delivered is) l.world.core b ∧ l.TablesAgree := by
  have hinit : Paired (delivered []) l₀.world.core := h₀.world.marks
  obtain ⟨q, -, -, hpaired, htabled⟩ := h.invariant (J := fun is l =>
    ∃ q, l.world.links.Represents q ∧ Plan.Sound ⟨q, l.world.core⟩ ∧
      Paired (delivered is) l.world.core ∧ l.Tabled)
    ⟨_, h₀.world.represents, h₀.world.sound, hinit, h₀.tabled⟩ (by
    rintro is l i l' ⟨q, hr, hs, hpaired, htabled⟩ ⟨⟨hok, hserved⟩, hstep⟩
    obtain ⟨q', hr', he⟩ := hstep.step.effect hok.toTidy hr hs
    exact ⟨q', hr', he.sound hs, hpaired.step hs hok he,
      htabled.step hstep hok.toTidy hr hs he hserved⟩)
  obtain ⟨started, hp, hiff⟩ := hpaired.marks b
  refine ⟨⟨?_, started, hp, hiff⟩, htabled.agree⟩
  rw [marksOf_append] at hp
  obtain ⟨r, hr, _⟩ := pairs_prefix hp
  rw [hr]
  rfl

/-- A DERControl that is active from 100 to 200, on a client whose clock shows 150. -/
def activeControl : World :=
  World.boot (fun e => if e = 1 then Stub.control 7 .active 100 100 else {}) 150

theorem activeControl_initial : activeControl.Initial :=
  World.boot_initial 150 [] fun e => by split <;> rfl

/-- The control is scheduled, and its block starts. -/
def startedControl : World := ((activeControl.scheduleEvent 2 0 1 0).get (by decide)).1

theorem startedControl_step {cl : Client} :
    Step cl activeControl ⟨.scheduleEvent 0 1 0, 2⟩ startedControl :=
  Step.of_isSome (by decide) _

/-- The calls on the tables then. -/
def startedLog (s : ScheduleId) : List Lookup :=
  activeControl.lookups Client.idle ⟨.scheduleEvent 0 1 0, 2⟩ s

theorem startedLog_eq (s : ScheduleId) :
    startedLog s = if s = 0 then [(.get 7, none), (.put (0, 7), none)] else [] := by
  have hzero : startedLog 0 = [(.get 7, none), (.put (0, 7), none)] := rfl
  by_cases hs : s = 0
  · rw [hs, hzero, if_pos rfl]
  · rw [if_neg hs]
    unfold startedLog World.lookups World.calls
    simp [Ne.symm hs]

theorem startedLog_served :
    Logged.Served ⟨activeControl, fun _ => []⟩ Client.idle ⟨.scheduleEvent 0 1 0, 2⟩ := by
  intro s t ht
  obtain rfl := ht.eq_of_nil
  show Unhindered blockKind ((startedLog s).map Prod.fst) scheduleInit
  rw [startedLog_eq]
  split
  · exact unhindered_first (by decide) (by decide) 7 (0, 7) _
  · trivial

/-- The block is put into the table of its Schedule, and starts. -/
theorem start_end_pairing_startedControl :
    MarksPaired (delivered [⟨.scheduleEvent 0 1 0, 2⟩]) startedControl.core 0 ∧
      Logged.TablesAgree ⟨startedControl, startedLog⟩ := by
  have hstep := @startedControl_step Client.idle
  have hlogged : LoggedStep Client.idle ⟨activeControl, fun _ => []⟩ ⟨.scheduleEvent 0 1 0, 2⟩
      ⟨startedControl, startedLog⟩ := ⟨hstep, fun _ => rfl⟩
  refine start_end_pairing ⟨activeControl_initial, fun _ => rfl⟩
    (Run.single ⟨⟨?_, startedLog_served⟩, hlogged⟩) 0
  have hnew : activeControl.core.getBlock 0 1 = none := by decide
  refine ⟨⟨fun x hx eb hget => ?_, fun _ hop => by cases hop⟩, fun x hx eb hget => ?_, ?_,
    fun _ hop => by cases hop⟩
  · rw [List.mem_singleton.mp hx] at hget
    cases hnew.symm.trans hget
  · rw [List.mem_singleton.mp hx] at hget
    cases hnew.symm.trans hget
  · rintro c s eb status posted (hop | ⟨hrem, _⟩)
    · cases hop
    · rcases hrem with hop | hop <;> cases hop

/-- A block that is freed while it is Active leaves its control running. -/
theorem not_start_end_pairing : ¬ ∀ (cl : Client) (w₀ w : World) (is : List Invocation),
    w₀.Initial → Run (Step cl) w₀ is w → ∀ b, MarksPaired (delivered is) w.core b := by
  intro h
  have hdelete : Step Client.idle startedControl ⟨.deleteBlocks 1, 0⟩
      ⟨startedControl.links, startedControl.core.deleteBlocks 1⟩ := Step.deleteBlocks
  obtain ⟨_, started, hp, hiff⟩ := h Client.idle activeControl _ _ activeControl_initial
    ((Run.single startedControl_step).snoc hdelete) 0
  have hstarted : started = true := by
    have : pairs false (marksOf (startedControl.core.deleteBlocks 1).imEvent 0) = some true := by
      decide
    exact (Option.some.inj (this.symm.trans hp)).symm
  obtain ⟨⟨s, hb⟩, _⟩ := hiff.mp hstarted
  have hnone : ((startedControl.core.deleteBlocks 1).schedule s).blocks = [] := by
    cases s <;> rfl
  rw [hnone] at hb
  cases hb

end SeClient
