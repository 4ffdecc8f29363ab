import SeClient.Effects

/-!
# Contests

`insert_active` and `insert_block` match the block they insert against the blocks of a
queue, one after the other, and the outcome against one block depends on the control
modes the earlier ones left over.  `Core.contest` and `Core.sift` are the outcomes, read
off the state before the insertion.  `Act`s are derived from them with what they find in
that state, and the loops are shown to do exactly these.
-/

namespace SeClient
open Transition

/-- How the inserted block fares against one block of the queue. -/
inductive Fate
  /-- It supersedes the block. -/
  | beats
  /-- Neither is superseded. -/
  | spares
  /-- It is superseded itself. -/
  | yields
  /-- The block starts where it ends. -/
  | joins
  /-- The block ends where it ends. -/
  | ends
  /-- The blocks have nothing to do with each other. -/
  | passes
deriving DecidableEq, Repr

namespace Core
variable (c : Core)

/-- The outcome of `block_supersede (eb, e)` for the inserted block `eb`. -/
def fate (eb e : BlockId) : Fate :=
  let r := c.blockSupersede eb e
  if r.2 then .beats else if (r.1.block eb).der = 0 then .yields else .spares

/-- The outcomes of the loop of `insert_active` over a queue. -/
def contest (c : Core) (eb : BlockId) : List BlockId → List (BlockId × Fate)
  | [] => []
  | a :: l =>
    match c.fate eb a with
    | .yields => [(a, .yields)]
    | f => (a, f) :: contest (c.blockSupersede eb a).1 eb l

/-- The outcomes of the loop of `insert_block` over a queue. -/
def sift (c : Core) (eb : BlockId) (x : Interval) : List BlockId → List (BlockId × Fate)
  | [] => []
  | e :: l =>
    let y := c.eventInterval (c.block e).event
    if x.start < y.stop ∧ x.stop > y.start then
      match c.fate eb e with
      | .yields => [(e, .yields)]
      | f => (e, f) :: sift (c.blockSupersede eb e).1 eb x l
    else if x.stop = y.start then (e, .joins) :: sift c eb x l
    else if x.stop = y.stop then (e, .ends) :: sift c eb x l
    else (e, .passes) :: sift c eb x l

end Core

/-- The inserted block was superseded. -/
def yielded (outcomes : List (BlockId × Fate)) : Bool := outcomes.any fun o => o.2 = .yields

namespace Core
variable {c c' : Core} {eb a b : BlockId} {l : List BlockId}

/-! ## What a contest depends on -/

/-- The memories agree on what a contest between these blocks reads. -/
structure SameContest (c c' : Core) (bs : List BlockId) : Prop where
  block : ∀ b ∈ bs, (c'.block b).event = (c.block b).event ∧
    (c'.block b).primacy = (c.block b).primacy ∧ (c'.block b).der = (c.block b).der
  creationTime : ∀ e, (c'.data e).creationTime = (c.data e).creationTime
  interval : ∀ e, c'.eventInterval e = c.eventInterval e

theorem SameContest.mono {bs bs' : List BlockId} (h : SameContest c c' bs)
    (hsub : ∀ b ∈ bs', b ∈ bs) : SameContest c c' bs' :=
  ⟨fun b hb => h.block b (hsub b hb), h.creationTime, h.interval⟩

theorem SameContest.supersede {bs : List BlockId} (h : SameContest c c' bs) (ha : a ∈ bs)
    (hb : b ∈ bs) : (c'.blockSupersede a b).2 = (c.blockSupersede a b).2 ∧
      SameContest (c.blockSupersede a b).1 (c'.blockSupersede a b).1 bs := by
  obtain ⟨hea, hpa, hda⟩ := h.block a ha
  obtain ⟨heb, hpb, hdb⟩ := h.block b hb
  have hmod : ∀ (x : BlockId) (m : BitVec 32),
      SameContest (c.modifyBlock x fun e => { e with der := e.der &&& m })
        (c'.modifyBlock x fun e => { e with der := e.der &&& m }) bs := by
    intro x m
    refine ⟨fun y hy => ?_, h.creationTime, h.interval⟩
    obtain ⟨he, hp, hd⟩ := h.block y hy
    rw [modifyBlock_block, modifyBlock_block]
    split
    · rename_i hx
      subst hx
      exact ⟨he, hp, by rw [hd]⟩
    · exact ⟨he, hp, hd⟩
  unfold blockSupersede
  simp only [hea, heb, hpa, hpb, hda, hdb, h.creationTime]
  split
  · split
    · refine ⟨?_, hmod b _⟩
      rw [modifyBlock_same, modifyBlock_same]
      simp only [hdb]
    · exact ⟨rfl, h⟩
  · exact ⟨rfl, hmod a _⟩

theorem SameContest.fate {bs : List BlockId} (h : SameContest c c' bs) (ha : a ∈ bs)
    (hb : b ∈ bs) : c'.fate a b = c.fate a b := by
  obtain ⟨hwon, hc⟩ := h.supersede ha hb
  unfold Core.fate
  simp only [hwon, (hc.block a ha).2.2]

theorem SameContest.contest (h : SameContest c c' (eb :: l)) :
    c'.contest eb l = c.contest eb l := by
  induction l generalizing c c' with
  | nil => rfl
  | cons a l ih =>
    have hf := h.fate (a := eb) (b := a) (by simp) (by simp)
    have hrec := ih ((h.supersede (a := eb) (b := a) (by simp) (by simp)).2.mono
      fun b hb => by rcases List.mem_cons.mp hb with rfl | hb <;> simp_all)
    rw [Core.contest, Core.contest, hf, hrec]

theorem SameContest.sift {x : Interval} (h : SameContest c c' (eb :: l)) :
    c'.sift eb x l = c.sift eb x l := by
  induction l generalizing c c' with
  | nil => rfl
  | cons a l ih =>
    have hsub : ∀ b ∈ eb :: l, b ∈ eb :: a :: l := fun b hb => by
      rcases List.mem_cons.mp hb with rfl | hb <;> simp_all
    have hf := h.fate (a := eb) (b := a) (by simp) (by simp)
    have hrec := ih ((h.supersede (a := eb) (b := a) (by simp) (by simp)).2.mono hsub)
    have hskip := ih (h.mono hsub)
    rw [Core.sift, Core.sift, (h.block a (by simp)).1, h.interval, hf, hrec, hskip]

/-- A change of one block's status and times, of events and of Responses does not
matter to a contest. -/
theorem sameContest_touch (t : Touch) (bs : List BlockId) : SameContest c (c.touch t) bs := by
  refine ⟨fun b _ => ?_, fun _ => rfl, fun _ => rfl⟩
  by_cases h : b = t.block
  · subst h; simp [Core.touch]
  · have hsame : (c.touch t).block b = c.block b := Function.update_of_ne h _ _
    rw [hsame]
    exact ⟨rfl, rfl, rfl⟩

end Core

/-! ## What the loops do -/

namespace Core
variable (c : Core)

/-- What the loop of `insert_active` does, by the outcomes; `pre` are the blocks it has
passed since the head was last moved. -/
def fightActs (s : ScheduleId) (eb : BlockId) :
    List BlockId → List (BlockId × Fate) → List Act
  | _, [] => []
  | pre, (a, .beats) :: os =>
    .quiet :: .drop s .active (pre ++ [a]) :: .touch (c.beaten s eb a) :: fightActs s eb [] os
  | _, (_, .yields) :: _ => [.quiet, .touch (c.outdone s eb)]
  | pre, (a, _) :: os => .quiet :: fightActs s eb (pre ++ [a]) os

/-- What `activate_block` does. -/
def activateActs (s : ScheduleId) (eb : BlockId) : List Act :=
  if (c.block eb).status ≠ .active then [.touch (c.begun s eb), .quiet] else [.quiet]

/-- What the switch of `insert_active` does. -/
def startActs (s : ScheduleId) (eb : BlockId) : List Act :=
  match c.eventStatus (c.block eb).event with
  | .scheduled => [.quiet, .touch (c.turn s eb .activeWait none [])]
  | .active => c.activateActs s eb
  | _ => []

theorem delete_not_mem_startActs (s : ScheduleId) (eb : BlockId) (s' : ScheduleId)
    (b : BlockId) (found : EventStatus) : Act.delete s' b found ∉ c.startActs s eb := by
  unfold startActs activateActs
  split
  · simp
  · split <;> simp
  · simp

/-- What `insert_active` does on an `active` queue `l`. -/
def insertActiveActs (s : ScheduleId) (eb : BlockId) (l : List BlockId) : List Act :=
  let outcomes := (c.loadDer eb).contest eb l
  .quiet :: (c.fightActs s eb [] outcomes ++
    if yielded outcomes then [] else c.startActs s eb ++ [.place s .active eb])

/-- What the loop of `insert_block` does, by the outcomes. -/
def siftActs (s : ScheduleId) (eb : BlockId) : List (BlockId × Fate) → List Act
  | [] => []
  | (e, .beats) :: os =>
    .quiet :: .take s .scheduled e :: .touch (c.turn s e .scheduleSuperseded none []) ::
      .push s .superseded e :: siftActs s eb os
  | (_, .yields) :: _ =>
    [.quiet, .touch (c.turn s eb .scheduleSuperseded none []), .push s .superseded eb]
  | (e, .joins) :: os =>
    .touch (c.adjusted s e (c.block eb).stop (c.block e).stop) :: siftActs s eb os
  | (e, .ends) :: os =>
    .touch (c.adjusted s e (c.block e).start (c.block eb).stop) :: siftActs s eb os
  | (_, .passes) :: os => siftActs s eb os
  | (_, .spares) :: os => .quiet :: siftActs s eb os

/-- What `insert_block` does on a `scheduled` queue `l`. -/
def insertBlockActs (s : ScheduleId) (eb : BlockId) (l : List BlockId) : List Act :=
  let c₁ := (c.touch (c.turn s eb .scheduled none [])).loadDer eb
  let outcomes := c₁.sift eb (c₁.eventInterval (c₁.block eb).event) l
  .touch (c.turn s eb .scheduled none []) :: .quiet :: (c₁.siftActs s eb outcomes ++
    if yielded outcomes then [] else [.place s .scheduled eb])

/-! ## Which changes there are -/

variable {c} {s : ScheduleId} {eb a b : BlockId} {l : List BlockId} {f : Fate} {x : Interval}
  {t : Touch}

theorem mem_of_mem_contest (h : (a, f) ∈ c.contest eb l) : a ∈ l := by
  induction l generalizing c with
  | nil => cases h
  | cons b l ih =>
    rw [contest] at h
    split at h
    · simp at h; simp [h.1]
    · rcases List.mem_cons.mp h with h | h
      · simp at h; simp [h.1]
      · exact List.mem_cons_of_mem _ (ih h)

theorem mem_of_mem_sift (h : (a, f) ∈ c.sift eb x l) : a ∈ l := by
  induction l generalizing c with
  | nil => cases h
  | cons b l ih =>
    rw [sift] at h
    split at h
    · split at h
      · simp at h; simp [h.1]
      · rcases List.mem_cons.mp h with h | h
        · simp at h; simp [h.1]
        · exact List.mem_cons_of_mem _ (ih h)
    all_goals
      try split at h
      all_goals
        try split at h
        all_goals
          rcases List.mem_cons.mp h with h | h
          · simp at h; simp [h.1]
          · exact List.mem_cons_of_mem _ (ih h)

/-- What `fightActs` consists of. -/
theorem mem_fightActs {pre : List BlockId} {os : List (BlockId × Fate)} {act : Act}
    (h : act ∈ c.fightActs s eb pre os) :
    act = .quiet ∨ (∃ pre', act = .drop s .active pre') ∨
      (∃ a, (a, Fate.beats) ∈ os ∧ act = .touch (c.beaten s eb a)) ∨
      (yielded os ∧ act = .touch (c.outdone s eb)) := by
  induction os generalizing pre with
  | nil => cases h
  | cons o os ih =>
    obtain ⟨a, f⟩ := o
    have hmono : yielded os = true → yielded ((a, f) :: os) = true := by
      intro h; unfold yielded at h ⊢; rw [List.any_cons, h, Bool.or_true]
    have hrec : ∀ {pre'}, act ∈ c.fightActs s eb pre' os → act = .quiet ∨
        (∃ pre', act = .drop s .active pre') ∨
        (∃ a', (a', Fate.beats) ∈ (a, f) :: os ∧ act = .touch (c.beaten s eb a')) ∨
        (yielded ((a, f) :: os) ∧ act = .touch (c.outdone s eb)) := by
      intro pre' h'
      rcases ih h' with h | h | ⟨a', ha', h⟩ | ⟨hy, h⟩
      · exact Or.inl h
      · exact Or.inr (Or.inl h)
      · exact Or.inr (Or.inr (Or.inl ⟨a', List.mem_cons_of_mem _ ha', h⟩))
      · exact Or.inr (Or.inr (Or.inr ⟨hmono hy, h⟩))
    cases f with
    | beats =>
      rw [fightActs] at h
      simp only [List.mem_cons] at h
      rcases h with h | h | h | h
      · exact Or.inl h
      · exact Or.inr (Or.inl ⟨_, h⟩)
      · exact Or.inr (Or.inr (Or.inl ⟨a, by simp, h⟩))
      · exact hrec h
    | yields =>
      rw [fightActs] at h
      simp only [List.mem_cons, List.not_mem_nil, or_false] at h
      rcases h with h | h
      · exact Or.inl h
      · exact Or.inr (Or.inr (Or.inr ⟨by simp [yielded], h⟩))
    | _ =>
      rw [fightActs] at h
      · rcases List.mem_cons.mp h with h | h
        · exact Or.inl h
        · exact hrec h
      all_goals intro he; cases he

/-- What `insertActiveActs` consists of. -/
theorem mem_insertActiveActs {act : Act} (h : act ∈ c.insertActiveActs s eb l) :
    act = .quiet ∨ (∃ pre, act = .drop s .active pre) ∨ act = .place s .active eb ∨
      (∃ a ∈ l, (a, Fate.beats) ∈ (c.loadDer eb).contest eb l ∧
        act = .touch (c.beaten s eb a)) ∨
      (yielded ((c.loadDer eb).contest eb l) ∧ act = .touch (c.outdone s eb)) ∨
      (yielded ((c.loadDer eb).contest eb l) = false ∧
        c.eventStatus (c.block eb).event = .scheduled ∧
        act = .touch (c.turn s eb .activeWait none [])) ∨
      (yielded ((c.loadDer eb).contest eb l) = false ∧
        c.eventStatus (c.block eb).event = .active ∧ (c.block eb).status ≠ .active ∧
        act = .touch (c.begun s eb)) := by
  unfold insertActiveActs at h
  simp only [List.mem_cons, List.mem_append] at h
  rcases h with h | h | h
  · exact Or.inl h
  · rcases mem_fightActs h with h | h | ⟨a, ha, h⟩ | h
    · exact Or.inl h
    · exact Or.inr (Or.inl h)
    · exact Or.inr (Or.inr (Or.inr (Or.inl ⟨a, mem_of_mem_contest ha, ha, h⟩)))
    · exact Or.inr (Or.inr (Or.inr (Or.inr (Or.inl h))))
  · split at h
    · cases h
    · rename_i hy
      have hy : yielded ((c.loadDer eb).contest eb l) = false := by simpa using hy
      rcases List.mem_append.mp h with h | h
      · unfold startActs at h
        split at h
        · rename_i hst
          simp only [List.mem_cons, List.not_mem_nil, or_false] at h
          rcases h with h | h
          · exact Or.inl h
          · exact Or.inr (Or.inr (Or.inr (Or.inr (Or.inr (Or.inl ⟨hy, hst, h⟩)))))
        · rename_i hst
          unfold activateActs at h
          split at h
          · rename_i hne
            simp only [List.mem_cons, List.not_mem_nil, or_false] at h
            rcases h with h | h
            · exact Or.inr (Or.inr (Or.inr (Or.inr (Or.inr (Or.inr ⟨hy, hst, hne, h⟩)))))
            · exact Or.inl h
          · exact Or.inl (List.mem_singleton.mp h)
        · cases h
      · exact Or.inr (Or.inr (Or.inl (List.mem_singleton.mp h)))

/-- `insert_active` is about the block it inserts and the blocks of the queue. -/
theorem subject_of_mem_insertActiveActs {act : Act} (h : act ∈ c.insertActiveActs s eb l)
    (hb : act.subject = some b) : b = eb ∨ b ∈ l := by
  rcases mem_insertActiveActs h with rfl | ⟨_, rfl⟩ | rfl | ⟨a, ha, _, rfl⟩ | ⟨_, rfl⟩ |
    ⟨_, _, rfl⟩ | ⟨_, _, _, rfl⟩ <;> simp only [Act.subject, reduceCtorEq, Option.some.injEq] at hb
  · exact Or.inr (hb ▸ ha)
  · exact Or.inl hb.symm
  · exact Or.inl hb.symm
  · exact Or.inl hb.symm

/-- `insert_active` does not change the times of the block it inserts. -/
theorem times_of_mem_insertActiveActs (h : .touch t ∈ c.insertActiveActs s eb l)
    (hb : t.block = eb) (heb : eb ∉ l) :
    t.start = (c.block eb).start ∧ t.stop = (c.block eb).stop := by
  rcases mem_insertActiveActs h with h | ⟨_, h⟩ | h | ⟨a, ha, _, h⟩ | ⟨_, h⟩ |
    ⟨_, _, h⟩ | ⟨_, _, _, h⟩ <;> simp only [reduceCtorEq, Act.touch.injEq] at h
  · rw [h] at hb; exact absurd (hb ▸ ha) heb
  all_goals rw [h]; exact ⟨rfl, rfl⟩

theorem plain_of_mem_insertActiveActs {act : Act} (h : act ∈ c.insertActiveActs s eb l) :
    act.Plain := by
  rcases mem_insertActiveActs h with rfl | ⟨_, rfl⟩ | rfl | ⟨a, ha, _, rfl⟩ | ⟨_, rfl⟩ |
    ⟨_, _, rfl⟩ | ⟨_, _, _, rfl⟩ <;> trivial

end Core
end SeClient
