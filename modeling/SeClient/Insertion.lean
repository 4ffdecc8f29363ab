import SeClient.Contest

/-!
# The two insertions

`insert_active` and `insert_block` on links that stand for a board: each is the run of
changes that `fightActs` and `siftActs` describe, followed by what happens to the inserted
block itself.  The block is in no queue before (`Board.Loose`).
-/

namespace SeClient
open Transition

/-- The memory still has what a description of changes was read off. -/
structure Core.Stamped (c₀ c : Core) (s : ScheduleId) (bs : List BlockId) : Prop where
  keeps : ∀ b ∈ bs, c₀.Keeps c b
  ambient : c₀.Ambient c
  device : (c.schedule s).device = (c₀.schedule s).device
  blocks : ∀ s', (c.schedule s').blocks = (c₀.schedule s').blocks

namespace Core.Stamped
variable {c₀ c c' : Core} {s : ScheduleId} {bs bs' : List BlockId} {eb a : BlockId}

theorem refl (c : Core) (s : ScheduleId) (bs : List BlockId) : c.Stamped c s bs :=
  ⟨fun b _ => Keeps.refl c b, Ambient.refl c, rfl, fun _ => rfl⟩

theorem mono (h : c₀.Stamped c s bs) (hsub : ∀ b ∈ bs', b ∈ bs) : c₀.Stamped c s bs' :=
  ⟨fun b hb => h.keeps b (hsub b hb), h.ambient, h.device, h.blocks⟩

theorem still (h : c₀.Stamped c s bs) (hc : Still c c') : c₀.Stamped c' s bs :=
  ⟨fun b hb => (h.keeps b hb).trans (hc.keeps b), h.ambient.trans hc.ambient,
    (hc.device s).trans h.device, fun s' => (hc.blocks s').trans (h.blocks s')⟩

theorem touch {t : Touch} (h : c₀.Stamped c s bs) (ht : t.block ∉ bs) :
    c₀.Stamped (c.touch t) s bs :=
  ⟨fun b hb => (h.keeps b hb).trans (touch_keeps fun he => ht (he ▸ hb)),
    h.ambient.trans ⟨fun _ => rfl, rfl⟩, h.device, h.blocks⟩

theorem beaten (h : c₀.Stamped c s bs) (heb : eb ∈ bs) (ha : a ∈ bs) :
    c.beaten s eb a = c₀.beaten s eb a := by
  obtain ⟨hev, hst, hs, _, _⟩ := h.keeps a ha
  unfold Core.beaten
  rw [hev, hst, hs, (h.keeps eb heb).start, h.device, h.ambient.posted]

theorem turn (h : c₀.Stamped c s bs) (ha : a ∈ bs) (status : EventStatus)
    (mark : Option EventType) (posted : List Response) :
    c.turn s a status mark posted = c₀.turn s a status mark posted := by
  obtain ⟨_, hst, hs, hp, _⟩ := h.keeps a ha
  unfold Core.turn
  rw [hst, hs, hp]

theorem outdone (h : c₀.Stamped c s bs) (ha : a ∈ bs) : c.outdone s a = c₀.outdone s a := by
  unfold Core.outdone
  rw [h.turn ha, (h.keeps a ha).event, h.device, h.ambient.posted]

theorem begun (h : c₀.Stamped c s bs) (ha : a ∈ bs) : c.begun s a = c₀.begun s a := by
  unfold Core.begun
  rw [h.turn ha, (h.keeps a ha).event, h.device, h.ambient.posted]

theorem adjusted (h : c₀.Stamped c s bs) (ha : a ∈ bs) (start stop : Int) :
    c.adjusted s a start stop = c₀.adjusted s a start stop := by
  unfold Core.adjusted
  rw [(h.keeps a ha).status]

end Core.Stamped

namespace Plan
variable {q : Board} {c : Core} {s : ScheduleId} {n : QueueName} {b eb : BlockId}
  {status : EventStatus} {mark : Option EventType} {l : List BlockId}

/-- A block that leaves its queue is in none. -/
theorem loose_of_set {k : Links} (hr : k.Represents q) (hb : b ∈ q s n) (hl : b ∉ l) :
    (q.set s n l).Loose b := by
  intro s' n' hb'
  rcases (Board.mem_set _).mp hb' with ⟨_, _, hb'⟩ | ⟨hne, hb'⟩
  · exact hl hb'
  · exact hne (hr.once hb' hb)

theorem Change.turn (status : EventStatus) (mark : Option EventType)
    (posted : List Response) (hhome : eb ∈ (c.schedule s).blocks)
    (hposted : ∀ r ∈ posted, r.device = (c.schedule s).device ∧
      (c.data r.event).mRID = c.mridKey eb)
    (hout : ∀ s', eb ∉ q s' .scheduled ∧ eb ∉ q s' .superseded) :
    Change ⟨q, c⟩ (.touch (c.turn s eb status mark posted))
      ⟨q, c.touch (c.turn s eb status mark posted)⟩ :=
  Change.touch rfl hhome hposted (Or.inr hout)

theorem Change.outdone (hhome : eb ∈ (c.schedule s).blocks)
    (hout : ∀ s', eb ∉ q s' .scheduled ∧ eb ∉ q s' .superseded) :
    Change ⟨q, c⟩ (.touch (c.outdone s eb)) ⟨q, c.touch (c.outdone s eb)⟩ :=
  Change.turn _ _ _ hhome (fun _ hr => by rw [c.posted_spec hr]; exact ⟨rfl, rfl⟩) hout

theorem Change.begun (hhome : eb ∈ (c.schedule s).blocks)
    (hout : ∀ s', eb ∉ q s' .scheduled ∧ eb ∉ q s' .superseded) :
    Change ⟨q, c⟩ (.touch (c.begun s eb)) ⟨q, c.touch (c.begun s eb)⟩ :=
  Change.turn _ _ _ hhome (fun _ hr => by rw [c.posted_spec hr]; exact ⟨rfl, rfl⟩) hout

/-- A block in no queue is in none of the queues whose blocks have a fixed status. -/
theorem loose_out (h : q.Loose eb) (s' : ScheduleId) : eb ∉ q s' .scheduled ∧ eb ∉ q s' .superseded :=
  ⟨h s' _, h s' _⟩

end Plan

namespace World
variable {w w' : World} {q : Board} {s : ScheduleId} {eb : BlockId} {c₀ : Core}
  {pre rest : List BlockId} {cur : Option BlockId} {fuel : Nat} {lost : Bool}

/-- `activate_block`: a block becomes active unless it is, and its event is polled. -/
theorem activateBlock_run {c : Core} (hhome : eb ∈ (c.schedule s).blocks)
    (hc₀ : c₀.Stamped c s [eb])
    (hout : ∀ s', eb ∉ q s' .scheduled ∧ eb ∉ q s' .superseded) :
    Run Plan.Change ⟨q, c⟩ (c₀.activateActs s eb) ⟨q, c.activateBlock s eb⟩ := by
  have hpoll : ∀ c' : Core, Quiet c' (Core.pollResource
      (c'.modifyStub (c.block eb).event fun t => { t with pollRate := c'.activePollRate })
      (c.block eb).event) :=
    fun c' => Quiet.trans (Quiet.modifyStub rfl id) (Quiet.pollResource _)
  unfold Core.activateBlock Core.activateActs
  dsimp only
  rw [(hc₀.keeps eb (by simp)).status, Core.beginBlock_eq, hc₀.begun (by simp)]
  by_cases h : (c₀.block eb).status ≠ .active
  · rw [if_pos h, if_pos h]
    refine Run.cons ?_ (Run.single (Plan.Change.quiet (hpoll _)))
    rw [← hc₀.begun (by simp)]
    exact Plan.Change.begun hhome hout
  · rw [if_neg h, if_neg h]
    exact Run.single (Plan.Change.quiet (hpoll _))

/-- **The loop of `insert_active`.**  The queue it leaves is what is behind the last block
that was superseded. -/
theorem insertActiveLoop_run {u : List BlockId} {d : Core} (hr : w.links.Represents q) (hs : Plan.Sound ⟨q, w.core⟩)
    (hq : q s .active = u ++ rest) (hcur : Chain.Linked w.links.next cur rest)
    (hloose : q.Loose eb) (hhome : eb ∈ (w.core.schedule s).blocks)
    (hc₀ : d.Stamped w.core s (eb :: rest))
    (hres : insertActiveLoop s eb fuel w cur = some (w', lost)) :
    ∃ l, l <:+ u ++ rest ∧ w'.links.Represents (q.set s .active l) ∧
      Run Plan.Change ⟨q, w.core⟩ (d.fightActs s eb u (w.core.contest eb rest))
        ⟨q.set s .active l, w'.core⟩ ∧
      lost = yielded (w.core.contest eb rest) ∧
      (lost = false → d.Stamped w'.core s [eb]) := by
  induction rest generalizing fuel w q u cur with
  | nil =>
    rw [Chain.linked_nil] at hcur
    subst hcur
    cases fuel with
    | zero => cases hres
    | succ fuel =>
      obtain ⟨rfl, rfl⟩ := Prod.mk.inj (Option.some.inj hres)
      rw [List.append_nil] at hq
      refine ⟨q s .active, by rw [List.append_nil]; exact hq ▸ List.suffix_refl _, ?_, ?_, rfl,
        fun _ => hc₀⟩
      · rw [Board.set_self]; exact hr
      · rw [Board.set_self]; exact Run.nil
  | cons a rest ih =>
    obtain ⟨rfl, hcur⟩ := hcur
    cases fuel with
    | zero => cases hres
    | succ fuel =>
      have haq : a ∈ q s .active := by rw [hq]; simp
      have hnd := hr.nodup s .active
      rw [hq] at hnd
      have harest : a ∉ rest :=
        (List.nodup_cons.mp hnd.of_append_right).1
      have hane : a ≠ eb := fun he => hloose s .active (he ▸ haq)
      have hquiet := Quiet.blockSupersede (c := w.core) eb a
      rw [insertActiveLoop] at hres
      rw [Core.contest, Core.fate]
      dsimp only at hres ⊢
      generalize w.core.blockSupersede eb a = r at hquiet hres ⊢
      obtain ⟨c₁, won⟩ := r
      dsimp only at hquiet hres ⊢
      have hstep : Plan.Change ⟨q, w.core⟩ .quiet ⟨q, c₁⟩ := Plan.Change.quiet hquiet
      have hs₁ := hstep.sound hs
      have hc₁ := hc₀.still hquiet.toStill
      have hhome₁ : eb ∈ (c₁.schedule s).blocks := by rw [hquiet.blocks]; exact hhome
      cases won with
      | true =>
        -- `a` is superseded: the head moves behind it
        rw [if_pos rfl, Core.supersedeActive_eq, hc₁.beaten (by simp) (by simp)] at hres
        rw [if_pos rfl]
        have hr₁ : (w.links.setHead s .active (w.links.next a)).Represents
            (q.set s .active rest) :=
          hr.setHead (x := u ++ [a]) (by rw [hq]; simp) hcur
        have hdrop : Plan.Change ⟨q, c₁⟩ (.drop s .active (u ++ [a]))
            ⟨q.set s .active rest, c₁⟩ := Plan.Change.drop (by rw [hq]; simp)
        have htouch : Plan.Change ⟨q.set s .active rest, c₁⟩ (.touch (c₁.beaten s eb a))
            ⟨q.set s .active rest, c₁.touch (c₁.beaten s eb a)⟩ :=
          Plan.Change.touch rfl (hs₁.home haq)
            (fun _ hp => by rw [Core.posted_spec _ hp]; exact ⟨rfl, rfl⟩)
            (Or.inr (Plan.loose_out (Plan.loose_of_set hr haq harest)))
        rw [hc₁.beaten (by simp) (by simp)] at htouch
        have hstamp : d.Stamped (c₁.touch (d.beaten s eb a)) s (eb :: rest) :=
          (hc₁.mono (by simp; tauto)).touch (by simp [Core.beaten, hane, harest])
        obtain ⟨l, hl, hrep, hrun, hlost, hkept⟩ := ih (u := [])
          (w := ⟨w.links.setHead s .active (w.links.next a), c₁.touch (d.beaten s eb a)⟩)
          hr₁ (htouch.sound (hdrop.sound hs₁)) (by simp) hcur
          (hloose.set fun h => hloose s .active (by rw [hq]; simp [h])) hhome₁ hstamp hres
        rw [(Core.sameContest_touch _ _).contest] at hrun hlost
        rw [Board.set_set] at hrep hrun
        refine ⟨l, hl.trans ?_, hrep, Run.cons hstep (Run.cons hdrop (Run.cons htouch hrun)), ?_,
          hkept⟩
        · exact (List.suffix_cons a rest).trans (List.suffix_append _ _)
        · rw [hlost]; simp [yielded]
      | false =>
        rw [if_neg Bool.false_ne_true] at hres ⊢
        by_cases hder : (c₁.block eb).der = 0
        · -- the new block is superseded: the queue stays as it is
          rw [if_pos hder, Core.yieldActive_eq, hc₁.outdone (by simp)] at hres
          rw [if_pos hder]
          obtain ⟨rfl, rfl⟩ := Prod.mk.inj (Option.some.inj hres)
          have htouch := Plan.Change.outdone (q := q) hhome₁ (Plan.loose_out hloose)
          rw [hc₁.outdone (by simp)] at htouch
          refine ⟨q s .active, hq ▸ List.suffix_refl _, ?_, ?_, by simp [yielded],
            fun h => absurd h (by decide)⟩
          · rw [Board.set_self]; exact hr
          · rw [Board.set_self]; exact Run.cons hstep (Run.single htouch)
        · rw [if_neg hder] at hres ⊢
          obtain ⟨l, hl, hrep, hrun, hlost, hkept⟩ := ih (u := u ++ [a]) (w := ⟨w.links, c₁⟩) hr hs₁
            (by rw [hq]; simp) hcur hloose hhome₁ (hc₁.mono (by simp; tauto)) hres
          rw [List.append_assoc, List.singleton_append] at hl
          refine ⟨l, hl, hrep, Run.cons hstep hrun, ?_, hkept⟩
          rw [hlost]; simp [yielded]

/-- The switch of `insert_active`. -/
theorem startBlock_run {c c' : Core} (hloose : q.Loose eb)
    (hhome : eb ∈ (c.schedule s).blocks) (hc₀ : c₀.Stamped c s [eb])
    (hres : c.startBlock fuel s eb = some c') :
    Run Plan.Change ⟨q, c⟩ (c₀.startActs s eb) ⟨q, c'⟩ := by
  have hout := Plan.loose_out hloose
  have heb := hc₀.keeps eb (by simp)
  unfold Core.startBlock at hres
  unfold Core.startActs
  rw [heb.event, hc₀.ambient.eventStatus] at hres
  generalize c₀.eventStatus (c₀.block eb).event = status at hres
  cases status with
  | scheduled =>
    obtain ⟨c₁, hupdate, hres⟩ := Option.bind_eq_some_iff.mp hres
    have hquiet := Quiet.updateResource hupdate
    rw [Core.modifyBlock_status_eq c₁ s] at hres
    rw [← Option.some.inj hres, (hc₀.still hquiet.toStill).turn (by simp)]
    refine Run.cons (Plan.Change.quiet hquiet) (Run.single ?_)
    rw [← (hc₀.still hquiet.toStill).turn (by simp)]
    exact Plan.Change.turn _ _ _ (by rw [hquiet.blocks]; exact hhome) (by simp) hout
  | active =>
    rw [← Option.some.inj hres]
    exact activateBlock_run hhome hc₀ hout
  | _ => exact Option.some.inj hres ▸ Run.nil

/-- **`insert_active`.** -/
theorem insertActive_run (hr : w.links.Represents q) (hs : Plan.Sound ⟨q, w.core⟩)
    (hloose : q.Loose eb) (hhome : eb ∈ (w.core.schedule s).blocks)
    (hres : w.insertActive fuel s eb = some w') :
    ∃ l, (∀ b ∈ l, b = eb ∨ b ∈ q s .active) ∧ w'.links.Represents (q.set s .active l) ∧
      Run Plan.Change ⟨q, w.core⟩ (w.core.insertActiveActs s eb (q s .active))
        ⟨q.set s .active l, w'.core⟩ := by
  unfold insertActive at hres
  obtain ⟨⟨w₁, lost⟩, hloop, hres⟩ := Option.bind_eq_some_iff.mp hres
  have hquiet := Quiet.loadDer (c := w.core) eb
  have hstep : Plan.Change ⟨q, w.core⟩ .quiet ⟨q, w.core.loadDer eb⟩ := Plan.Change.quiet hquiet
  obtain ⟨l, hl, hrep, hrun, rfl, hkept⟩ := insertActiveLoop_run (u := []) (d := w.core)
    (w := ⟨w.links, w.core.loadDer eb⟩) hr
    (hstep.sound hs) rfl (hr.linked s .active) hloose (by rw [hquiet.blocks]; exact hhome)
    ((Core.Stamped.refl _ s _).still hquiet.toStill) hloop
  have hmem : ∀ b ∈ l, b ∈ q s .active := fun b hb => by simpa using hl.mem hb
  have hloose₁ : (q.set s .active l).Loose eb := hloose.set fun h => hloose _ _ (hmem _ h)
  unfold Core.insertActiveActs
  cases hlost : yielded ((w.core.loadDer eb).contest eb (q s .active)) with
  | true =>
    simp only [hlost, if_true, Option.some.injEq] at hres
    subst hres
    simp only [hlost, if_true, List.append_nil]
    exact ⟨l, fun b hb => Or.inr (hmem b hb), hrep, Run.cons hstep hrun⟩
  | false =>
    simp only [hlost, Bool.false_eq_true, if_false] at hres
    obtain ⟨c₂, hstart, hres⟩ := Option.bind_eq_some_iff.mp hres
    obtain ⟨k, hins, hres⟩ := Option.bind_eq_some_iff.mp hres
    rw [← Option.some.inj hres]
    simp only [hlost, Bool.false_eq_true, if_false]
    have hhome₁ : eb ∈ (w₁.core.schedule s).blocks := by
      rw [(hkept hlost).blocks]; exact hhome
    have hrun₂ := startBlock_run hloose₁ hhome₁ (hkept hlost) hstart
    have hhome₂ : eb ∈ (c₂.schedule s).blocks :=
      Plan.run_home hrun₂ (w.core.delete_not_mem_startActs s eb) hhome₁
    refine ⟨Chain.place c₂.compareEnd eb l, fun b hb => ?_, ?_, ?_⟩
    · exact (Chain.mem_place.mp hb).imp id (hmem b)
    · have := hrep.insertSorted hloose₁ hins
      rwa [Board.set_set, Board.set_same] at this
    · have hplace := Plan.Change.place (n := .active) hloose₁ hhome₂ trivial
      rw [Board.set_set, Board.set_same] at hplace
      exact Run.cons hstep (hrun.trans (hrun₂.trans (Run.single hplace)))

theorem erase_middle {α : Type*} [DecidableEq α] {a : α} {l r : List α}
    (h : (l ++ a :: r).Nodup) : (l ++ a :: r).erase a = l ++ r := by
  have ha : a ∉ l := fun hl => (List.nodup_append.mp h).2.2 a hl a List.mem_cons_self rfl
  rw [List.erase_append_right _ ha, List.erase_cons_head]

/-- **The loop of `insert_block`.** -/
theorem insertBlockLoop_run {u : List BlockId} {d : Core} {x : Interval} (hr : w.links.Represents q)
    (hs : Plan.Sound ⟨q, w.core⟩) (hq : q s .scheduled = u ++ rest)
    (hcur : Chain.Linked w.links.next cur rest) (hloose : q.Loose eb)
    (hhome : eb ∈ (w.core.schedule s).blocks) (hc₀ : d.Stamped w.core s (eb :: rest))
    (hres : insertBlockLoop s eb x fuel w u.getLast? cur = some (w', lost)) :
    ∃ q', w'.links.Represents q' ∧
      Run Plan.Change ⟨q, w.core⟩ (d.siftActs s eb (w.core.sift eb x rest)) ⟨q', w'.core⟩ ∧
      lost = yielded (w.core.sift eb x rest) ∧
      (lost = false → d.Stamped w'.core s [eb] ∧ q'.Loose eb) := by
  induction rest generalizing fuel w q u cur with
  | nil =>
    rw [Chain.linked_nil] at hcur
    subst hcur
    cases fuel with
    | zero => cases hres
    | succ fuel =>
      obtain ⟨rfl, rfl⟩ := Prod.mk.inj (Option.some.inj hres)
      exact ⟨q, hr, Run.nil, rfl, fun _ => ⟨hc₀, hloose⟩⟩
  | cons e rest ih =>
    obtain ⟨rfl, hcur⟩ := hcur
    cases fuel with
    | zero => cases hres
    | succ fuel =>
      have heq : e ∈ q s .scheduled := by rw [hq]; simp
      have hnd := hr.nodup s .scheduled
      rw [hq] at hnd
      have herest : e ∉ rest := (List.nodup_cons.mp hnd.of_append_right).1
      have hene : e ≠ eb := fun he => hloose s .scheduled (he ▸ heq)
      have hehome := hs.home heq
      have hnotin : e ∉ eb :: rest := by simp [hene, herest]
      have hshift : (u ++ [e]) ++ rest = q s .scheduled := by rw [hq]; simp
      -- the block keeps its place: only the trailing pointer moves on
      have hnext : ∀ {c : Core} {acts : List Act} {fuel' : Nat},
          Run Plan.Change ⟨q, w.core⟩ acts ⟨q, c⟩ → Plan.Sound ⟨q, c⟩ →
          (∀ s', (c.schedule s').blocks = (w.core.schedule s').blocks) →
          d.Stamped c s (eb :: rest) →
          insertBlockLoop s eb x fuel' ⟨w.links, c⟩ (some e) (w.links.next e) = some (w', lost) →
          ∃ q', w'.links.Represents q' ∧
            Run Plan.Change ⟨q, w.core⟩ (acts ++ d.siftActs s eb (c.sift eb x rest))
              ⟨q', w'.core⟩ ∧
            lost = yielded (c.sift eb x rest) ∧
            (lost = false → d.Stamped w'.core s [eb] ∧ q'.Loose eb) := by
        intro c acts fuel' hrun hsound hblocks hstamp hloop
        rw [← Chain.getLast?_append_cons u e] at hloop
        obtain ⟨q', hrep, hrun', hlost, hkept⟩ := ih (w := ⟨w.links, c⟩) hr hsound hshift.symm
          hcur hloose (by rw [hblocks]; exact hhome) hstamp hloop
        exact ⟨q', hrep, hrun.trans hrun', hlost, hkept⟩
      have hadjust : ∀ start stop, Plan.Change ⟨q, w.core⟩
          (.touch (d.adjusted s e start stop)) ⟨q, w.core.touch (d.adjusted s e start stop)⟩ := by
        intro start stop
        rw [← hc₀.adjusted (by simp)]
        exact Plan.Change.touch rfl hehome (by simp [Core.adjusted]) (Or.inl rfl)
      have hstamped : ∀ start stop, d.Stamped (w.core.touch (d.adjusted s e start stop)) s
          (eb :: rest) := fun start stop => (hc₀.mono (by simp; tauto)).touch hnotin
      rw [insertBlockLoop] at hres
      rw [Core.sift]
      dsimp only at hres ⊢
      by_cases hover : x.start < (w.core.eventInterval (w.core.block e).event).stop ∧
          x.stop > (w.core.eventInterval (w.core.block e).event).start
      · rw [if_pos hover] at hres ⊢
        have hquiet := Quiet.blockSupersede (c := w.core) eb e
        rw [Core.fate]
        generalize w.core.blockSupersede eb e = r at hquiet hres ⊢
        obtain ⟨c₁, won⟩ := r
        dsimp only at hquiet hres ⊢
        have hstep : Plan.Change ⟨q, w.core⟩ .quiet ⟨q, c₁⟩ := Plan.Change.quiet hquiet
        have hs₁ := hstep.sound hs
        have hc₁ := hc₀.still hquiet.toStill
        have hhome₁ : eb ∈ (c₁.schedule s).blocks := by rw [hquiet.blocks]; exact hhome
        cases won with
        | true =>
          rw [if_pos rfl, Core.modifyBlock_status_eq c₁ s, hc₁.turn (by simp)] at hres
          rw [if_pos rfl]
          have hloose_e : (q.set s .scheduled (u ++ rest)).Loose e :=
            Plan.loose_of_set hr heq (by
              rw [List.mem_append, not_or]
              exact (not_or.mp (List.mem_append.not.mp
                (List.nodup_cons.mp (List.nodup_middle.mp hnd)).1)))
          have htake : Plan.Change ⟨q, c₁⟩ (.take s .scheduled e)
              ⟨q.set s .scheduled (u ++ rest), c₁⟩ := by
            have := Plan.Change.take (q := q) (c := c₁) (s := s) (n := .scheduled) (b := e)
            rwa [hq, erase_middle hnd] at this
          have hturn := Plan.Change.turn (q := q.set s .scheduled (u ++ rest))
            .scheduleSuperseded none [] (hs₁.home heq) (by simp) (Plan.loose_out hloose_e)
          rw [hc₁.turn (by simp)] at hturn
          have hpush := Plan.Change.push (n := .superseded) (q := q.set s .scheduled (u ++ rest))
            (c := c₁.touch (d.turn s e .scheduleSuperseded none [])) hloose_e (hs₁.home heq)
            (by simp [QueueName.fits, Core.touch, Core.turn])
          rw [Board.set_of_name_ne _ (by decide)] at hpush
          have hs₂ := hpush.sound (hturn.sound (htake.sound hs₁))
          obtain ⟨hdemote, hnext'⟩ := hr.demote hq
          have hloose₂ : ((q.set s .scheduled (u ++ rest)).set s .superseded
              (e :: q s .superseded)).Loose eb := by
            refine Board.Loose.set (Board.Loose.set hloose fun h => ?_) fun h => ?_
            · exact hloose s .scheduled (by rw [hq]; simp at h ⊢; tauto)
            · exact (List.mem_cons.mp h).elim (fun he => hene he.symm) (hloose s .superseded)
          obtain ⟨q', hrep, hrun, hlost, hkept⟩ := ih
            (w := ⟨(w.links.linkInsert s .superseded e).relink s .scheduled u.getLast?
              (w.links.next e), c₁.touch (d.turn s e .scheduleSuperseded none [])⟩)
            hdemote hs₂ (by simp) (hcur.congr hnext') hloose₂ hhome₁
            ((hc₁.mono (by simp; tauto)).touch hnotin) hres
          rw [(Core.sameContest_touch _ _).sift] at hrun hlost
          refine ⟨q', hrep, ?_, by rw [hlost]; simp [yielded], hkept⟩
          exact Run.cons hstep (Run.cons htake (Run.cons hturn (Run.cons hpush hrun)))
        | false =>
          rw [if_neg Bool.false_ne_true] at hres ⊢
          by_cases hder : (c₁.block eb).der = 0
          · rw [if_pos hder, Core.modifyBlock_status_eq c₁ s, hc₁.turn (by simp)] at hres
            rw [if_pos hder]
            obtain ⟨rfl, rfl⟩ := Prod.mk.inj (Option.some.inj hres)
            have hturn := Plan.Change.turn (q := q) .scheduleSuperseded none [] hhome₁ (by simp)
              (Plan.loose_out hloose)
            rw [hc₁.turn (by simp)] at hturn
            have hpush := Plan.Change.push (n := .superseded) (q := q)
              (c := c₁.touch (d.turn s eb .scheduleSuperseded none [])) hloose hhome₁
              (by simp [QueueName.fits, Core.touch, Core.turn])
            refine ⟨_, hr.linkInsert hloose, ?_, by simp [yielded], fun h => absurd h (by decide)⟩
            exact Run.cons hstep (Run.cons hturn (Run.single hpush))
          · rw [if_neg hder] at hres ⊢
            obtain ⟨q', hrep, hrun, hlost, hkept⟩ := hnext (Run.single hstep) hs₁ hquiet.blocks
              (hc₁.mono (by simp; tauto)) hres
            exact ⟨q', hrep, hrun, by rw [hlost]; simp [yielded], hkept⟩
      · rw [if_neg hover] at hres ⊢
        by_cases hjoin : x.stop = (w.core.eventInterval (w.core.block e).event).start
        · rw [if_pos hjoin, Core.modifyBlock_start_eq w.core s, hc₀.adjusted (by simp),
            (hc₀.keeps eb (by simp)).stop, (hc₀.keeps e (by simp)).stop] at hres
          rw [if_pos hjoin]
          obtain ⟨q', hrep, hrun, hlost, hkept⟩ := hnext (Run.single (hadjust _ _))
            ((hadjust _ _).sound hs) (fun _ => rfl) (hstamped _ _) hres
          rw [(Core.sameContest_touch _ _).sift] at hrun hlost
          exact ⟨q', hrep, hrun, by rw [hlost]; simp [yielded], hkept⟩
        · rw [if_neg hjoin] at hres ⊢
          by_cases hend : x.stop = (w.core.eventInterval (w.core.block e).event).stop
          · rw [if_pos hend, Core.modifyBlock_stop_eq w.core s, hc₀.adjusted (by simp),
              (hc₀.keeps eb (by simp)).stop, (hc₀.keeps e (by simp)).start] at hres
            rw [if_pos hend]
            obtain ⟨q', hrep, hrun, hlost, hkept⟩ := hnext (Run.single (hadjust _ _))
              ((hadjust _ _).sound hs) (fun _ => rfl) (hstamped _ _) hres
            rw [(Core.sameContest_touch _ _).sift] at hrun hlost
            exact ⟨q', hrep, hrun, by rw [hlost]; simp [yielded], hkept⟩
          · rw [if_neg hend] at hres ⊢
            obtain ⟨q', hrep, hrun, hlost, hkept⟩ := hnext Run.nil hs (fun _ => rfl)
              (hc₀.mono (by simp; tauto)) hres
            exact ⟨q', hrep, hrun, by rw [hlost]; simp [yielded], hkept⟩

/-- **`insert_block`.** -/
theorem insertBlock_run (hr : w.links.Represents q) (hs : Plan.Sound ⟨q, w.core⟩)
    (hloose : q.Loose eb) (hhome : eb ∈ (w.core.schedule s).blocks)
    (hres : w.insertBlock fuel s eb = some w') :
    ∃ q', w'.links.Represents q' ∧
      Run Plan.Change ⟨q, w.core⟩ (w.core.insertBlockActs s eb (q s .scheduled)) ⟨q', w'.core⟩ := by
  unfold insertBlock at hres
  rw [Core.modifyBlock_status_eq w.core s] at hres
  obtain ⟨⟨w₁, lost⟩, hloop, hres⟩ := Option.bind_eq_some_iff.mp hres
  unfold Core.insertBlockActs
  have hturn : Plan.Change ⟨q, w.core⟩ (.touch (w.core.turn s eb .scheduled none []))
      ⟨q, w.core.touch (w.core.turn s eb .scheduled none [])⟩ :=
    Plan.Change.turn _ _ _ hhome (by simp) (Plan.loose_out hloose)
  have hquiet := Quiet.loadDer (c := w.core.touch (w.core.turn s eb .scheduled none [])) eb
  have hstatus : (((w.core.touch (w.core.turn s eb .scheduled none [])).loadDer eb).block
      eb).status = .scheduled := by
    rw [hquiet.status]; simp [Core.touch, Core.turn]
  have hhome₁ : eb ∈ (((w.core.touch (w.core.turn s eb .scheduled none [])).loadDer eb).schedule
      s).blocks := by rw [hquiet.blocks]; exact hhome
  have hstep := Plan.Change.quiet (q := q) hquiet
  generalize (w.core.touch (w.core.turn s eb .scheduled none [])).loadDer eb = c₁ at *
  obtain ⟨q', hrep, hrun, rfl, hkept⟩ := insertBlockLoop_run (u := []) (d := c₁)
    (w := ⟨w.links, c₁⟩) hr (hstep.sound (hturn.sound hs)) rfl (hr.linked s .scheduled) hloose
    hhome₁ (Core.Stamped.refl _ s _) hloop
  have hrun₁ := Run.cons hturn (Run.cons hstep hrun)
  cases hlost : yielded (c₁.sift eb (c₁.eventInterval (c₁.block eb).event) (q s .scheduled)) with
  | true =>
    simp only [hlost, if_true, Option.some.injEq] at hres
    subst hres
    simp only [hlost, if_true, List.append_nil]
    exact ⟨q', hrep, hrun₁⟩
  | false =>
    simp only [hlost, Bool.false_eq_true, if_false] at hres
    obtain ⟨k, hins, hres⟩ := Option.bind_eq_some_iff.mp hres
    rw [← Option.some.inj hres]
    simp only [hlost, Bool.false_eq_true, if_false]
    obtain ⟨hstamp, hloose₁⟩ := hkept hlost
    have hplace := Plan.Change.place (n := .scheduled) (c := w₁.core) hloose₁
      (by rw [hstamp.blocks]; exact hhome₁)
      (by rw [(hstamp.keeps eb (by simp)).status]; exact hstatus)
    refine ⟨_, hrep.insertSorted hloose₁ hins, ?_⟩
    exact Run.cons hturn (Run.cons hstep (hrun.trans (Run.single hplace)))

end World
end SeClient
