import SeClient.Scheduling

/-!
# Updating a schedule

`update_schedule` takes the due blocks off the front of the three queues.  Those of `active`
are completed, those of `superseded` are superseded for good, and those of `scheduled` are
handed to `insert_active` one after the other.
-/

namespace SeClient
open Transition

namespace Core
variable (c : Core)

/-- The block's end has come. -/
def elapsed (now : Int) (b : BlockId) : Bool := (c.block b).stop ≤ now

/-- The block's start has come. -/
def due (now : Int) (b : BlockId) : Bool := (c.block b).start ≤ now

/-- The boundary the loop over `scheduled` comes to, where 0 stands for none: the nearest of
the ends of the due blocks and the start of the first block that is not due. -/
def promoteLast (now : Int) : List BlockId → Int → Int
  | [], last => last
  | b :: l, last =>
    if c.due now b then promoteLast now l (World.nearer last (c.block b).stop)
    else World.nearer last (c.block b).start

/-- The boundary `update_schedule` comes to, where 0 stands for none. -/
def nextBoundary (now : Int) (active scheduled superseded : List BlockId) : Int :=
  let last := ((active.dropWhile (c.elapsed now)).head?.map fun b => (c.block b).stop).getD 0
  let last := c.promoteLast now scheduled last
  match (superseded.dropWhile (c.due now)).head? with
  | some b => World.nearer last (c.block b).start
  | none => last

/-- Blocks are taken off the front of a queue, and each gets its last status. -/
def popActs (s : ScheduleId) (n : QueueName) (last : BlockId → Touch) (bs : List BlockId) :
    List Act :=
  bs.flatMap fun b => [.drop s n [b], .touch (last b)]

/-- What `update_schedule` does to the due blocks of `active`. -/
def expireActs (s : ScheduleId) (now : Int) (l : List BlockId) : List Act :=
  popActs s .active (c.expired s) (l.takeWhile (c.elapsed now))

/-- What `update_schedule` does to the due blocks of `superseded`. -/
def retireActs (s : ScheduleId) (now : Int) (l : List BlockId) : List Act :=
  popActs s .superseded (c.outdone s) (l.takeWhile (c.due now))

variable {c} {s : ScheduleId} {n : QueueName} {last : BlockId → Touch} {bs : List BlockId}

theorem mem_popActs {a : Act} (h : a ∈ popActs s n last bs) :
    ∃ b ∈ bs, a = .drop s n [b] ∨ a = .touch (last b) := by
  unfold popActs at h
  rw [List.mem_flatMap] at h
  obtain ⟨b, hb, h⟩ := h
  simp only [List.mem_cons, List.not_mem_nil, or_false] at h
  exact ⟨b, hb, h⟩

theorem subject_of_mem_popActs (hlast : ∀ b, (last b).block = b) {a : Act} {b : BlockId}
    (h : a ∈ popActs s n last bs) (hb : a.subject = some b) : b ∈ bs := by
  obtain ⟨x, hx, rfl | rfl⟩ := mem_popActs h
  · cases hb
  · have : (last x).block = b := Option.some.inj hb
    rw [hlast] at this
    exact this ▸ hx

theorem plain_of_mem_popActs {a : Act} (h : a ∈ popActs s n last bs) : a.Plain := by
  obtain ⟨x, hx, rfl | rfl⟩ := mem_popActs h <;> trivial

theorem expired_spec (c : Core) (s : ScheduleId) (b : BlockId) :
    (c.expired s b).block = b ∧ (c.expired s b).sched = s ∧
      (c.expired s b).found = (c.block b).status ∧ ∀ r ∈ (c.expired s b).posted,
        r = ⟨(c.schedule s).device, (c.block b).event, r.status⟩ := by
  unfold expired
  split
  · refine ⟨rfl, rfl, rfl, fun r hr => ?_⟩
    rw [posted_spec _ hr]
  · exact ⟨rfl, rfl, rfl, fun r hr => by cases hr⟩

theorem outdone_spec (c : Core) (s : ScheduleId) (b : BlockId) :
    (c.outdone s b).block = b ∧ (c.outdone s b).sched = s ∧
      (c.outdone s b).found = (c.block b).status ∧ ∀ r ∈ (c.outdone s b).posted,
        r = ⟨(c.schedule s).device, (c.block b).event, r.status⟩ :=
  ⟨rfl, rfl, rfl, fun r hr => by rw [posted_spec _ hr]⟩

theorem Stamped.expired {c₀ : Core} (h : c₀.Stamped c s bs) {b : BlockId} (hb : b ∈ bs) :
    c.expired s b = c₀.expired s b := by
  unfold Core.expired
  rw [h.turn hb, h.turn hb, (h.keeps b hb).status, (h.keeps b hb).event, h.device,
    h.ambient.posted]

end Core

/-- A call `insert_active (s, block)` that `update_schedule` makes. -/
structure Call where
  core : Core
  active : List BlockId
  block : BlockId

namespace World
variable (w : World)

/-- The calls of `insert_active` in the loop of `update_schedule` over `scheduled`. -/
def promotions (s : ScheduleId) (now : Int) : Nat → World → Option BlockId → List Call
  | 0, _, _ => []
  | _ + 1, _, none => []
  | fuel + 1, w, some eb =>
    if (w.core.block eb).start ≤ now then
      ⟨w.core, w.queue s .active, eb⟩ ::
        match w.insertActive fuel s eb with
        | some w' => promotions s now fuel w' (w.links.next eb)
        | none => []
    else []

/-- The calls of `insert_active` that `update_schedule` makes. -/
def updateCalls (fuel : Nat) (s : ScheduleId) : List Call :=
  match expireLoop s w.core.seTime fuel w (w.links.head s .active) with
  | none => []
  | some (w₁, eb, _) =>
    let w₁ : World := ⟨w₁.links.setHead s .active eb, w₁.core⟩
    promotions s w.core.seTime fuel w₁ (w₁.links.head s .scheduled)

end World

/-! ## Popping due blocks -/

namespace Plan
variable {q : Board} {c c₀ : Core} {s : ScheduleId} {n : QueueName} {bs k : List BlockId}

/-- Taking blocks off the front of a queue, one after the other. -/
theorem pop_run {k' : Links} {f : Core → BlockId → Touch} (hr : k'.Represents q)
    (hs : Sound ⟨q, c⟩) (hq : q s n = bs ++ k) (hc₀ : c₀.Stamped c s bs)
    (hlast : ∀ c b, (f c b).block = b ∧ (f c b).sched = s ∧
      (f c b).found = (c.block b).status ∧ ∀ r ∈ (f c b).posted,
        r = ⟨(c.schedule s).device, (c.block b).event, r.status⟩)
    (hsame : ∀ c bs, c₀.Stamped c s bs → ∀ b ∈ bs, f c b = f c₀ b) :
    Run Change ⟨q, c⟩ (Core.popActs s n (f c₀) bs)
      ⟨q.set s n k, bs.foldl (fun c b => c.touch (f c b)) c⟩ := by
  induction bs generalizing q c k' with
  | nil =>
    rw [List.nil_append] at hq
    rw [← hq, Board.set_self]
    exact Run.nil
  | cons b bs ih =>
    obtain ⟨hblock, hsched, hfound, hposted⟩ := hlast c b
    have hb : b ∈ q s n := by rw [hq]; simp
    have hnd := hr.nodup s n
    rw [hq, List.cons_append] at hnd
    have hnb := (List.nodup_cons.mp hnd).1
    have hdrop : Change ⟨q, c⟩ (.drop s n [b]) ⟨q.set s n (bs ++ k), c⟩ := Change.drop hq
    have hloose : (q.set s n (bs ++ k)).Loose b := loose_of_set hr hb hnb
    have htouch : Change ⟨q.set s n (bs ++ k), c⟩ (.touch (f c b))
        ⟨q.set s n (bs ++ k), c.touch (f c b)⟩ := by
      refine Change.touch (by rw [hblock]; exact hfound) (by rw [hblock, hsched]; exact hs.home hb)
        (fun r hr => ?_) (Or.inr (by rw [hblock]; exact loose_out hloose))
      rw [hposted r hr, hblock, hsched]
      exact ⟨rfl, rfl⟩
    have hr' : (k'.setHead s n (bs ++ k).head?).Represents (q.set s n (bs ++ k)) := by
      have hlinked := hr.linked s n
      rw [hq, List.cons_append] at hlinked
      exact hr.setHead (x := [b]) hq (Chain.Linked.tail (l := [b]) hlinked)
    have hrun := ih hr' (htouch.sound (hdrop.sound hs)) (by simp)
      ((hc₀.mono (by simp; tauto)).touch (by rw [hblock]; simp at hnb; tauto))
    rw [Board.set_set] at hrun
    rw [hsame c _ hc₀ b (by simp)] at htouch hrun
    rw [List.foldl_cons, hsame c _ hc₀ b (by simp)]
    exact Run.cons hdrop (Run.cons htouch hrun)

/-- A pass of the loop of `update_schedule` over `scheduled`: a due block leaves the queue and
is handed to `insert_active`. -/
structure Promotion (s : ScheduleId) (now : Int) (p : Plan) (call : Call) (p' : Plan) : Prop where
  core : p.core = call.core
  active : p.queue s .active = call.active
  due : (p.core.block call.block).start ≤ now
  head : ∃ l, p.queue s .scheduled = call.block :: l
  queue : ∃ l, p'.queue = (p.queue.set s .scheduled (p.queue s .scheduled).tail).set s .active l ∧
    ∀ b ∈ l, b = call.block ∨ b ∈ call.active
  run : Run Change p (.drop s .scheduled [call.block] ::
    call.core.insertActiveActs s call.block call.active) p'

namespace Promotion
variable {now : Int} {call : Call} {p p' : Plan}

theorem sound (h : Promotion s now p call p') (hs : Sound p) : Sound p' := run_sound h.run hs

theorem plain : ∀ a ∈ Act.drop s .scheduled [call.block] ::
    call.core.insertActiveActs s call.block call.active, a.Plain := by
  intro a ha
  rcases List.mem_cons.mp ha with rfl | ha
  · trivial
  · exact Core.plain_of_mem_insertActiveActs ha

/-- A promotion is about the promoted block and the blocks of `active`. -/
theorem keeps (h : Promotion s now p call p') {b : BlockId} (hb : b ≠ call.block)
    (hactive : b ∉ call.active) : p.core.Keeps p'.core b := by
  refine run_keeps h.run fun a ha he => ?_
  rcases List.mem_cons.mp ha with rfl | ha
  · cases he
  · exact (Core.subject_of_mem_insertActiveActs ha he).elim hb hactive

/-- A block of another queue is not touched by promotions, and stays in its queue. -/
theorem run_superseded {calls : List Call} {d : Core}
    (h : Run (Promotion s now) p calls p') (hp : ∀ b ∈ p.queue s .superseded,
      b ∉ p.queue s .scheduled ∧ b ∉ p.queue s .active)
    (hc₀ : d.Stamped p.core s (p.queue s .superseded)) :
    p'.queue s .superseded = p.queue s .superseded ∧
      d.Stamped p'.core s (p.queue s .superseded) := by
  have hinv : p'.queue s .superseded = p.queue s .superseded ∧
      d.Stamped p'.core s (p.queue s .superseded) ∧
      ∀ b ∈ p.queue s .superseded, b ∉ p'.queue s .scheduled ∧ b ∉ p'.queue s .active := by
    refine h.invariant (J := fun _ p' => p'.queue s .superseded = p.queue s .superseded ∧
      d.Stamped p'.core s (p.queue s .superseded) ∧
      ∀ b ∈ p.queue s .superseded, b ∉ p'.queue s .scheduled ∧ b ∉ p'.queue s .active)
      ⟨rfl, hc₀, hp⟩ ?_
    intro _ p₁ call p₂ ⟨hq, hst, hout⟩ hstep
    obtain ⟨l, hl⟩ := hstep.head
    obtain ⟨k, hk, hmem⟩ := hstep.queue
    obtain ⟨hblocks, hdevice, _⟩ := run_plain hstep.run plain
    have hne : ∀ b ∈ p.queue s .superseded, b ≠ call.block := fun b hb he =>
      (hout b hb).1 (by rw [hl, he]; simp)
    refine ⟨?_, ⟨fun b hb => (hst.keeps b hb).trans (hstep.keeps (hne b hb) ?_),
      hst.ambient.trans (run_ambient hstep.run), (hdevice s).trans hst.device,
      fun s' => (hblocks s').trans (hst.blocks s')⟩, fun b hb => ⟨fun h => ?_, fun h => ?_⟩⟩
    · rw [hk, Board.set_of_name_ne _ (by decide), Board.set_of_name_ne _ (by decide), hq]
    · rw [← hstep.active]; exact (hout b hb).2
    · rw [hk, Board.set_of_name_ne _ (by decide), Board.set_same] at h
      exact (hout b hb).1 (List.mem_of_mem_tail h)
    · rw [hk, Board.set_same] at h
      rcases hmem b h with he | h
      · exact hne b hb he
      · rw [← hstep.active] at h
        exact (hout b hb).2 h
  exact ⟨hinv.1, hinv.2.1⟩

end Promotion

end Plan

namespace Links
variable {k : Links} {s : ScheduleId} {b : BlockId} {v : Option BlockId} {fuel : Nat}

theorem setHead_self {n : QueueName} : k.setHead s n (k.head s n) = k := by
  simp [setHead]

/-- `insert_sorted` does not see the head of another queue. -/
theorem insertSorted_setHead {n n' : QueueName} (h : n ≠ n') {compare : BlockId → BlockId → Int} :
    (k.setHead s n' v).insertSorted fuel s n b compare =
      (k.insertSorted fuel s n b compare).map fun k => k.setHead s n' v := by
  unfold Links.insertSorted
  rw [setHead_next, setHead_of_name_ne h, Option.map_map]
  congr 1
  funext r
  exact setHead_comm (l := ⟨r.1, k.head⟩) h.symm

end Links

namespace World
variable {w w' : World} {q : Board} {s : ScheduleId} {eb : BlockId} {cur cur' v : Option BlockId}
  {fuel : Nat} {now last last' : Int} {k : Links} {c : Core}

/-! ## `insert_active` does not see the head of `scheduled` -/

/-- The links with another head of `scheduled`. -/
def withScheduled (s : ScheduleId) (v : Option BlockId) (w : World) : World :=
  ⟨w.links.setHead s .scheduled v, w.core⟩

theorem insertActiveLoop_withScheduled (eb : BlockId) (fuel : Nat) (cur : Option BlockId) :
    insertActiveLoop s eb fuel (w.withScheduled s v) cur =
      (insertActiveLoop s eb fuel w cur).map fun r => (r.1.withScheduled s v, r.2) := by
  induction fuel generalizing w cur with
  | zero => rfl
  | succ fuel ih =>
    cases cur with
    | none => rfl
    | some a =>
      obtain ⟨k, c⟩ := w
      change insertActiveLoop s eb (fuel + 1) ⟨k.setHead s .scheduled v, c⟩ (some a) = _
      rw [insertActiveLoop, insertActiveLoop]
      dsimp only
      rw [Links.setHead_next]
      by_cases hwon : (c.blockSupersede eb a).2 = true
      · rw [if_pos hwon, if_pos hwon, Links.setHead_comm (by decide)]
        exact ih _ (w := ⟨k.setHead s .active (k.next a),
          (c.blockSupersede eb a).1.supersedeActive s eb a⟩)
      · rw [if_neg hwon, if_neg hwon]
        by_cases hder : ((c.blockSupersede eb a).1.block eb).der = 0
        · rw [if_pos hder, if_pos hder]
          rfl
        · rw [if_neg hder, if_neg hder]
          exact ih _ (w := ⟨k, (c.blockSupersede eb a).1⟩)

theorem insertActive_withScheduled :
    (w.withScheduled s v).insertActive fuel s eb =
      (w.insertActive fuel s eb).map (withScheduled s v) := by
  unfold insertActive
  have hloop := insertActiveLoop_withScheduled eb fuel (w.links.head s .active)
    (w := ⟨w.links, w.core.loadDer eb⟩) (s := s) (v := v)
  dsimp only [withScheduled] at hloop ⊢
  rw [Links.setHead_of_name_ne (by decide), hloop]
  cases insertActiveLoop s eb fuel ⟨w.links, w.core.loadDer eb⟩ (w.links.head s .active) with
  | none => rfl
  | some r =>
    simp only [Option.map_some, Option.bind_eq_bind, Option.bind_some]
    split
    · rfl
    · cases r.1.core.startBlock fuel s eb with
      | none => rfl
      | some c' =>
        simp only [Option.bind_some,
          Links.insertSorted_setHead (show QueueName.active ≠ .scheduled by decide)]
        cases r.1.links.insertSorted fuel s .active eb c'.compareEnd with
        | none => rfl
        | some l => rfl

/-- The queue a walk reads is the one the links stand for. -/
theorem queue_eq (hr : w.links.Represents q) (hs : Plan.Sound ⟨q, w.core⟩) (s : ScheduleId)
    (n : QueueName) : w.queue s n = q s n :=
  (hr.linked s n).walk (hs.length_le hr s n)

/-- **The loop of `update_schedule` over `scheduled`.** -/
theorem promoteLoop_run {d : Core} (hr : (w.links.setHead s .scheduled cur).Represents q)
    (hs : Plan.Sound ⟨q, w.core⟩) (hc₀ : ∀ b ∈ q s .scheduled, d.Keeps w.core b)
    (hd : d.Ambient w.core) (hres : promoteLoop s now fuel w cur last = some (w', cur', last')) :
    ∃ q', (w'.links.setHead s .scheduled cur').Represents q' ∧
      Run (Plan.Promotion s now) ⟨q, w.core⟩ (promotions s now fuel w cur) ⟨q', w'.core⟩ ∧
      q' s .scheduled = (q s .scheduled).dropWhile (d.due now) ∧
      (∀ b ∈ q' s .scheduled, d.Keeps w'.core b) ∧
      (∀ call ∈ promotions s now fuel w cur,
        call.block ∈ (q s .scheduled).takeWhile (d.due now) ∧ d.Keeps call.core call.block ∧
          d.Ambient call.core) ∧
      last' = d.promoteLast now (q s .scheduled) last := by
  induction fuel generalizing w cur q last with
  | zero => cases hres
  | succ fuel ih =>
    have hlinked := hr.linked s .scheduled
    rw [Links.setHead_same, Links.setHead_next] at hlinked
    cases cur with
    | none =>
      obtain ⟨rfl, hcl⟩ := Prod.mk.inj (Option.some.inj hres)
      obtain ⟨rfl, rfl⟩ := Prod.mk.inj hcl
      have hnil : q s .scheduled = [] := by simpa using hlinked.head_eq.symm
      rw [hnil]
      exact ⟨q, hr, Run.nil, hnil, hc₀, fun call hcall => absurd hcall List.not_mem_nil, rfl⟩
    | some eb =>
      obtain ⟨l, hl⟩ : ∃ l, q s .scheduled = eb :: l := by
        cases hq : q s .scheduled with
        | nil => rw [hq] at hlinked; cases hlinked
        | cons b l => rw [hq] at hlinked; exact ⟨l, by rw [Option.some.inj hlinked.1]⟩
      rw [hl] at hlinked hc₀
      have heb := hc₀ eb (by simp)
      have hebq : eb ∈ q s .scheduled := by rw [hl]; simp
      have hnd := hr.nodup s .scheduled
      rw [hl] at hnd
      have hebl := (List.nodup_cons.mp hnd).1
      rw [promoteLoop] at hres
      rw [promotions]
      by_cases hdue : (w.core.block eb).start ≤ now
      · rw [if_pos hdue] at hres ⊢
        obtain ⟨w₁, hins, hres⟩ := Option.bind_eq_some_iff.mp hres
        rw [hins]
        -- the block leaves the queue of the virtual links, and is inserted there
        have hr₁ : (w.withScheduled s (w.links.next eb)).links.Represents
            (q.set s .scheduled l) := by
          have := hr.setHead (x := [eb]) (y := l) hl hlinked.2
          rwa [Links.setHead_setHead] at this
        have hdrop : Plan.Change ⟨q, w.core⟩ (.drop s .scheduled [eb])
            ⟨q.set s .scheduled l, w.core⟩ := Plan.Change.drop hl
        have hins₁ : (w.withScheduled s (w.links.next eb)).insertActive fuel s eb =
            some (w₁.withScheduled s (w.links.next eb)) := by
          rw [insertActive_withScheduled, hins]; rfl
        obtain ⟨k, hk, hr₂, hrun⟩ := insertActive_run hr₁ (hdrop.sound hs)
          (Plan.loose_of_set hr hebq hebl) (hs.home hebq) hins₁
        rw [Board.set_of_name_ne _ (by decide)] at hk hrun
        have hactive : w.queue s .active = q s .active := by
          have h := queue_eq (w := w.withScheduled s (w.links.next eb)) hr₁ (hdrop.sound hs) s
            .active
          rw [Board.set_of_name_ne _ (by decide)] at h
          rw [← h]
          unfold queue withScheduled
          rw [Links.setHead_next, Links.setHead_of_name_ne (by decide)]
        have hpromotion : Plan.Promotion s now ⟨q, w.core⟩ ⟨w.core, w.queue s .active, eb⟩
            ⟨(q.set s .scheduled l).set s .active k, w₁.core⟩ := by
          rw [hactive]
          exact ⟨rfl, rfl, hdue, ⟨l, hl⟩, ⟨k, by simp only [hl, List.tail_cons], hk⟩,
            Run.cons hdrop hrun⟩
        have hq₁ : ((q.set s .scheduled l).set s .active k) s .scheduled = l := by
          rw [Board.set_of_name_ne _ (by decide), Board.set_same]
        have hkeeps : ∀ b ∈ ((q.set s .scheduled l).set s .active k) s .scheduled,
            d.Keeps w₁.core b := by
          rw [hq₁]
          intro b hb
          refine (hc₀ b (List.mem_cons_of_mem _ hb)).trans (Plan.run_keeps hrun fun a ha he => ?_)
          rcases Core.subject_of_mem_insertActiveActs ha he with rfl | hb'
          · exact hebl hb
          · have hbs : b ∈ q s .scheduled := by rw [hl]; exact List.mem_cons_of_mem _ hb
            exact absurd (hr.once hb' hbs).2 (by decide)
        have hstop : (w₁.core.block eb).stop = (d.block eb).stop := by
          have hne : eb ∉ q s .active := fun h => absurd (hr.once h hebq).2 (by decide)
          have := Plan.run_times (b := eb) hrun
            (fun t ht hb => Core.times_of_mem_insertActiveActs ht hb hne)
            (fun s' event h => by
              rcases Core.mem_insertActiveActs h with h | ⟨_, h⟩ | h | ⟨_, _, _, h⟩ | ⟨_, h⟩ |
                ⟨_, _, h⟩ | ⟨_, _, _, h⟩ <;> cases h)
            ⟨rfl, rfl⟩
          exact this.2.trans heb.stop
        obtain ⟨q', hrep, hrun', hq', hkeeps', hcalls, hlast⟩ := ih (w := w₁) hr₂
          (hpromotion.sound hs) hkeeps (hd.trans (Plan.run_ambient hrun)) hres
        rw [hq₁] at hq' hcalls hlast
        have hdue₀ : d.due now eb = true := by
          unfold Core.due
          rw [← heb.start]
          exact decide_eq_true hdue
        refine ⟨q', hrep, Run.cons hpromotion hrun', ?_, hkeeps', fun call hcall => ?_, ?_⟩
        · rw [hl, List.dropWhile_cons_of_pos hdue₀, hq']
        · rw [hl, List.takeWhile_cons_of_pos hdue₀]
          rcases List.mem_cons.mp hcall with rfl | hcall
          · exact ⟨List.mem_cons_self, heb, hd⟩
          · exact ⟨List.mem_cons_of_mem _ (hcalls call hcall).1, (hcalls call hcall).2⟩
        · rw [hl, Core.promoteLast, if_pos hdue₀, ← hstop, hlast]
      · rw [if_neg hdue] at hres ⊢
        obtain ⟨rfl, hcl⟩ := Prod.mk.inj (Option.some.inj hres)
        obtain ⟨rfl, rfl⟩ := Prod.mk.inj hcl
        have hdue₀ : ¬ d.due now eb = true := by
          unfold Core.due
          rw [← heb.start]
          simpa using hdue
        refine ⟨q, hr, Run.nil, ?_, by rw [hl]; exact hc₀,
          fun call hcall => absurd hcall List.not_mem_nil, ?_⟩
        · rw [hl, List.dropWhile_cons_of_neg hdue₀]
        · rw [hl, Core.promoteLast, if_neg hdue₀, heb.start]

/-! ## The other two loops -/

/-- The loop of `update_schedule` over `active`. -/
theorem expireLoop_spec {d : Core} {l : List BlockId} (hcur : Chain.Linked w.links.next cur l)
    (hnd : l.Nodup) (hc₀ : ∀ b ∈ l, d.Keeps w.core b)
    (hres : expireLoop s now fuel w cur = some (w', cur', last)) :
    w' = ⟨w.links,
        (l.takeWhile (d.elapsed now)).foldl (fun c b => c.touch (c.expired s b)) w.core⟩ ∧
      cur' = (l.dropWhile (d.elapsed now)).head? ∧
      last = ((l.dropWhile (d.elapsed now)).head?.map fun b => (d.block b).stop).getD 0 := by
  induction l generalizing fuel w cur with
  | nil =>
    rw [Chain.linked_nil] at hcur
    subst hcur
    cases fuel with
    | zero => cases hres
    | succ fuel =>
      obtain ⟨rfl, hcl⟩ := Prod.mk.inj (Option.some.inj hres)
      obtain ⟨rfl, rfl⟩ := Prod.mk.inj hcl
      exact ⟨rfl, rfl, rfl⟩
  | cons b l ih =>
    obtain ⟨rfl, hcur⟩ := hcur
    obtain ⟨hbl, hnd⟩ := List.nodup_cons.mp hnd
    cases fuel with
    | zero => cases hres
    | succ fuel =>
      have hb := hc₀ b (by simp)
      rw [expireLoop, hb.stop] at hres
      by_cases hover : (d.block b).stop ≤ now
      · rw [if_pos hover, Core.expireBlock_eq] at hres
        have hover' : d.elapsed now b = true := decide_eq_true hover
        have hkeeps : ∀ x ∈ l, d.Keeps (w.core.touch (w.core.expired s b)) x := fun x hx => by
          refine (hc₀ x (by simp [hx])).trans (Core.touch_keeps fun he => hbl ?_)
          rw [w.core.expired_block] at he
          exact he ▸ hx
        have := ih (w := ⟨w.links, w.core.touch (w.core.expired s b)⟩) hcur hnd hkeeps hres
        rwa [List.takeWhile_cons_of_pos hover', List.dropWhile_cons_of_pos hover', List.foldl_cons]
      · rw [if_neg hover] at hres
        obtain ⟨rfl, hcl⟩ := Prod.mk.inj (Option.some.inj hres)
        obtain ⟨rfl, rfl⟩ := Prod.mk.inj hcl
        have hover' : ¬ d.elapsed now b = true := by unfold Core.elapsed; simpa using hover
        rw [List.takeWhile_cons_of_neg hover', List.dropWhile_cons_of_neg hover']
        exact ⟨rfl, rfl, rfl⟩

/-- The loop of `update_schedule` over `superseded`. -/
theorem retireLoop_spec {d : Core} {l : List BlockId} (hcur : Chain.Linked w.links.next cur l)
    (hnd : l.Nodup) (hc₀ : ∀ b ∈ l, d.Keeps w.core b)
    (hres : retireLoop s now fuel w cur last = some (w', cur', last')) :
    w' = ⟨w.links, (l.takeWhile (d.due now)).foldl (fun c b => c.touch (c.outdone s b)) w.core⟩ ∧
      cur' = (l.dropWhile (d.due now)).head? ∧
      last' = match (l.dropWhile (d.due now)).head? with
        | some b => nearer last (d.block b).start
        | none => last := by
  induction l generalizing fuel w cur with
  | nil =>
    rw [Chain.linked_nil] at hcur
    subst hcur
    cases fuel with
    | zero => cases hres
    | succ fuel =>
      obtain ⟨rfl, hcl⟩ := Prod.mk.inj (Option.some.inj hres)
      obtain ⟨rfl, rfl⟩ := Prod.mk.inj hcl
      exact ⟨rfl, rfl, rfl⟩
  | cons b l ih =>
    obtain ⟨rfl, hcur⟩ := hcur
    obtain ⟨hbl, hnd⟩ := List.nodup_cons.mp hnd
    cases fuel with
    | zero => cases hres
    | succ fuel =>
      have hb := hc₀ b (by simp)
      rw [retireLoop, hb.start] at hres
      by_cases hdue : (d.block b).start ≤ now
      · rw [if_pos hdue, Core.retireBlock_eq] at hres
        have hdue' : d.due now b = true := decide_eq_true hdue
        have hkeeps : ∀ x ∈ l, d.Keeps (w.core.touch (w.core.outdone s b)) x := fun x hx =>
          (hc₀ x (by simp [hx])).trans
            (Core.touch_keeps fun he => hbl ((show x = b from he) ▸ hx))
        have := ih (w := ⟨w.links, w.core.touch (w.core.outdone s b)⟩) hcur hnd hkeeps hres
        rwa [List.takeWhile_cons_of_pos hdue', List.dropWhile_cons_of_pos hdue', List.foldl_cons]
      · rw [if_neg hdue] at hres
        obtain ⟨rfl, hcl⟩ := Prod.mk.inj (Option.some.inj hres)
        obtain ⟨rfl, rfl⟩ := Prod.mk.inj hcl
        have hdue' : ¬ d.due now b = true := by unfold Core.due; simpa using hdue
        rw [List.takeWhile_cons_of_neg hdue', List.dropWhile_cons_of_neg hdue']
        exact ⟨rfl, rfl, rfl⟩

/-- The parts of one call of `update_schedule`. -/
structure Update (w : World) (q : Board) (s : ScheduleId) (fuel : Nat) (w' : World) where
  /-- After the loop over `active`. -/
  mid : Plan
  /-- After the loop over `scheduled`. -/
  late : Plan
  /-- After the loop over `superseded`. -/
  final : Plan
  expire : Run Plan.Change ⟨q, w.core⟩ (w.core.expireActs s w.core.seTime (q s .active)) mid
  midQueue : mid.queue = q.set s .active ((q s .active).dropWhile (w.core.elapsed w.core.seTime))
  promote : Run (Plan.Promotion s w.core.seTime) mid (w.updateCalls fuel s) late
  lateQueue : late.queue s .scheduled = (q s .scheduled).dropWhile (w.core.due w.core.seTime)
  /-- The blocks that are promoted are the due ones, with the times they had. -/
  calls : ∀ call ∈ w.updateCalls fuel s,
    call.block ∈ (q s .scheduled).takeWhile (w.core.due w.core.seTime) ∧
      w.core.Keeps call.core call.block ∧ w.core.Ambient call.core
  retire : Run Plan.Change late (w.core.retireActs s w.core.seTime (q s .superseded)) final
  finalQueue : final.queue =
    late.queue.set s .superseded ((q s .superseded).dropWhile (w.core.due w.core.seTime))
  rep : w'.links.Represents final.queue
  arm : w'.core = final.core.armTimer s
    (w.core.nextBoundary w.core.seTime (q s .active) (q s .scheduled) (q s .superseded))

/-- **`update_schedule`.** -/
theorem updateSchedule_run (hr : w.links.Represents q) (hs : Plan.Sound ⟨q, w.core⟩)
    (hres : w.updateSchedule fuel s = some w') : Nonempty (Update w q s fuel w') := by
  unfold updateSchedule at hres
  obtain ⟨⟨w₁, cur₁, last₁⟩, hexpire, hres⟩ := Option.bind_eq_some_iff.mp hres
  obtain ⟨⟨w₂, cur₂, last₂⟩, hpromote, hres⟩ := Option.bind_eq_some_iff.mp hres
  obtain ⟨⟨w₃, cur₃, last₃⟩, hretire, hres⟩ := Option.bind_eq_some_iff.mp hres
  dsimp only at hpromote hretire hres
  set now := w.core.seTime with hnow
  -- the loop over `active`
  have hcalls : w.updateCalls fuel s = promotions s now fuel
      ⟨w₁.links.setHead s .active cur₁, w₁.core⟩
      ((w₁.links.setHead s .active cur₁).head s .scheduled) := by
    unfold updateCalls
    rw [← hnow, hexpire]
  obtain ⟨rfl, rfl, rfl⟩ := expireLoop_spec (d := w.core) (hr.linked s .active)
    (hr.nodup s .active) (fun b _ => Core.Keeps.refl _ b) hexpire
  have hsplit : q s .active = (q s .active).takeWhile (w.core.elapsed now) ++
      (q s .active).dropWhile (w.core.elapsed now) := List.takeWhile_append_dropWhile.symm
  have hrun₁ := Plan.pop_run (f := fun c b => c.expired s b) hr hs hsplit
    (Core.Stamped.refl w.core s _) (fun c b => c.expired_spec s b)
    (fun c bs h b hb => h.expired hb)
  have hr₁ := hr.setHead (v := ((q s .active).dropWhile (w.core.elapsed now)).head?) hsplit
    (Chain.Linked.tail (l := (q s .active).takeWhile (w.core.elapsed now))
      (by rw [← hsplit]; exact hr.linked s .active))
  have hs₁ := Plan.run_sound hrun₁ hs
  generalize hmid : ((q s .active).takeWhile (w.core.elapsed now)).foldl
    (fun c b => c.touch (c.expired s b)) w.core = c₁ at *
  have hkeep₁ : ∀ n, n ≠ .active → ∀ b ∈ q s n, w.core.Keeps c₁ b := by
    intro n hn b hb
    refine Plan.run_keeps hrun₁ fun a ha he => ?_
    have hx := Core.subject_of_mem_popActs (w.core.expired_block s) ha he
    exact hn (hr.once hb ((List.takeWhile_prefix _).subset hx)).2
  obtain ⟨hblocks₁, hdevice₁, _⟩ := Plan.run_plain hrun₁ fun a ha => Core.plain_of_mem_popActs ha
  -- the loop over `scheduled`
  obtain ⟨q₂, hr₂, hrun₂, hq₂, _, hpromoted, rfl⟩ := promoteLoop_run (d := w.core)
    (q := q.set s .active ((q s .active).dropWhile (w.core.elapsed now)))
    (by rw [Links.setHead_self]; exact hr₁) hs₁
    (fun b hb => hkeep₁ .scheduled (by decide) b (by simpa using hb))
    (Plan.run_ambient hrun₁) hpromote
  rw [Board.set_of_name_ne _ (by decide)] at hq₂ hpromoted
  have hstamp := Plan.Promotion.run_superseded (d := w.core) hrun₂ (fun b hb => ?_)
    ⟨fun b hb => hkeep₁ .superseded (by decide) b (by simpa using hb), Plan.run_ambient hrun₁,
      hdevice₁ s, hblocks₁⟩
  swap
  · dsimp only at hb ⊢
    rw [Board.set_of_name_ne _ (by decide)] at hb
    rw [Board.set_of_name_ne _ (by decide), Board.set_same]
    exact ⟨fun h => absurd (hr.once h hb).2 (by decide), fun h => absurd
      (hr.once ((List.dropWhile_suffix _).subset h) hb).2 (by decide)⟩
  dsimp only at hstamp
  rw [Board.set_of_name_ne _ (by decide)] at hstamp
  obtain ⟨hsup, hstamp⟩ := hstamp
  -- the loop over `superseded`
  have hs₂ : Plan.Sound ⟨q₂, w₂.core⟩ := hrun₂.preserves (G := fun _ => True)
    (J := Plan.Sound) (fun _ _ => trivial) (fun _ _ _ _ h hp => hp.sound h) hs₁
  have hlinked := hr₂.linked s .superseded
  rw [hsup] at hlinked
  obtain ⟨rfl, rfl, rfl⟩ := retireLoop_spec (d := w.core)
    (w := ⟨w₂.links.setHead s .scheduled cur₂, w₂.core⟩) hlinked (hr.nodup s .superseded)
    hstamp.keeps hretire
  have hsplit₂ : q₂ s .superseded = (q s .superseded).takeWhile (w.core.due now) ++
      (q s .superseded).dropWhile (w.core.due now) := by
    rw [hsup]; exact List.takeWhile_append_dropWhile.symm
  have hrun₃ := Plan.pop_run (f := fun c b => c.outdone s b) hr₂ hs₂ hsplit₂
    (hstamp.mono fun b hb => (List.takeWhile_prefix _).subset hb) (fun c b => c.outdone_spec s b)
    (fun c bs h b hb => h.outdone hb)
  have hr₃ := hr₂.setHead (v := ((q s .superseded).dropWhile (w.core.due now)).head?) hsplit₂
    (Chain.Linked.tail (l := (q s .superseded).takeWhile (w.core.due now))
      (by rw [← hsplit₂, hsup]; exact hlinked))
  refine ⟨{
    mid := _
    late := _
    final := _
    expire := hrun₁
    midQueue := rfl
    promote := by rw [hcalls]; exact hrun₂
    lateQueue := hq₂
    calls := by rw [hcalls]; exact hpromoted
    retire := hrun₃
    finalQueue := rfl
    rep := by rw [← Option.some.inj hres]; exact hr₃
    arm := by
      rw [← Option.some.inj hres]
      unfold Core.nextBoundary
      rw [Board.set_of_name_ne _ (by decide)]
      }⟩

end World
end SeClient
