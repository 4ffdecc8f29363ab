import Mathlib.Data.List.GetD
import Mathlib.Tactic.IntervalCases
import SeClient.ExiReading
import SeClient.FlagWords

/-!
# Flag isolation in parsing

Runs of `parse_doc` with either driver.  What an occurrence of an entry changes while it is parsed
is its own, but for the count of a string or URI that may be missing.
-/

namespace SeClient

namespace Parser
variable {ρ : Type} {S : Schema} {d : ParserDriver ρ} {rebuffer : ρ → ρ → Prop}
  {Ready : Parser ρ → Prop} {p q : Parser ρ} {t : StackItem}

/-! ## Runs -/

/-- What a step does to the stack. -/
def Restacks (p q : Parser ρ) : Prop :=
  q.stack = p.stack ∨
  (p.state = .parseElement ∧ ∃ u, q.stack = u :: p.stack ∧ u.se = p.se ∧ u.base = p.base) ∨
  (∃ t u stack, p.stack = t :: stack ∧ q.stack = u :: stack ∧ u.se = t.se ∧ u.base = t.base) ∨
  (∃ t, p.stack = t :: q.stack) ∨
  (p.state = .parseStart ∧ q.stack = [])

theorem parseElement_stack (q : Parser ρ) (i : ℕ) : (parseElement S q i).stack = q.stack := by
  unfold parseElement
  split <;> rfl

theorem step_restacks (S : Schema) (d : ParserDriver ρ) (p : Parser ρ) :
    p.Restacks (step S d p).parser := by
  unfold step
  cases hstate : p.state with
  | parseStart =>
    dsimp only
    split
    · exact Or.inr (Or.inr (Or.inr (Or.inr ⟨hstate, rfl⟩)))
    · exact Or.inl rfl
  | parseElement =>
    show p.Restacks (stepElement S p).parser
    unfold stepElement
    dsimp only
    split_ifs
    · exact Or.inl rfl
    · exact Or.inl rfl
    · exact Or.inl rfl
    · exact Or.inr (Or.inl ⟨hstate, _, parseElement_stack _ _, rfl, rfl⟩)
    · exact Or.inr (Or.inl ⟨hstate, _, parseElement_stack _ _, rfl, rfl⟩)
    · exact Or.inr (Or.inl ⟨hstate, _, parseElement_stack _ _, rfl, rfl⟩)
  | parseNext =>
    dsimp only
    split <;> exact Or.inl rfl
  | parseAttribute =>
    dsimp only
    split <;> exact Or.inl rfl
  | parseValue =>
    dsimp only
    split <;> exact Or.inl rfl
  | parseEnd =>
    cases hstack : p.stack with
    | nil => exact Or.inl rfl
    | cons t stack =>
      dsimp only
      split
      · refine Or.inr (Or.inr (Or.inl ⟨t, { t with count := t.count + 1 }, stack, hstack, ?_⟩))
        exact ⟨rfl, rfl, rfl⟩
      · exact Or.inl rfl
  | parseSequence =>
    cases hstack : p.stack with
    | nil => exact Or.inl rfl
    | cons t stack =>
      dsimp only
      split
      · unfold stepSequence
        dsimp only
        split_ifs
        · exact Or.inl (parseElement_stack _ _)
        · exact Or.inl (parseElement_stack _ _)
        · exact Or.inl rfl
      · split <;> exact Or.inl rfl
  | sequenceEnd =>
    cases hstack : p.stack with
    | nil => exact Or.inl rfl
    | cons t stack => exact Or.inr (Or.inr (Or.inr (Or.inl ⟨t, hstack⟩)))
  | parseInvalid => exact Or.inl rfl
  | beyond => exact Or.inl rfl

theorem parseElement_base (q : Parser ρ) (i : ℕ) : (parseElement S q i).base = q.base := by
  unfold parseElement
  split <;> rfl

/-- Where the object of a step is. -/
def Rebases (p q : Parser ρ) : Prop :=
  p.heap.fresh ≤ q.heap.fresh ∧ (q.base.block = p.base.block ∨ q.base.block < q.heap.fresh ∨
    ∃ t ∈ p.stack, q.base = t.base)

theorem rebases_parseElement {i : ℕ} (h : p.Rebases q) : p.Rebases (parseElement S q i) := by
  unfold Rebases
  rw [parseElement_heap, parseElement_base]
  exact h

theorem rebases_addElement (hfresh : p.heap.fresh = q.heap.fresh) (items : List Addr) :
    p.Rebases (addElement S q t items) := by
  refine ⟨?_, Or.inr (Or.inl ?_)⟩
  · rw [hfresh]
    exact Nat.le_succ _
  · exact Nat.lt_succ_self _

theorem step_rebases (S : Schema) (d : ParserDriver ρ) (p : Parser ρ) :
    p.Rebases (step S d p).parser := by
  have hsame : ∀ {q : Parser ρ}, q.heap.fresh = p.heap.fresh → q.base.block = p.base.block →
      p.Rebases q := fun hfresh hbase => ⟨Nat.le_of_eq hfresh.symm, Or.inl hbase⟩
  unfold step
  cases hstate : p.state with
  | parseStart =>
    dsimp only
    split
    · exact ⟨Nat.le_succ _, Or.inr (Or.inl (Nat.lt_succ_self _))⟩
    · exact hsame rfl rfl
  | parseElement =>
    show p.Rebases (stepElement S p).parser
    unfold stepElement
    dsimp only
    split_ifs
    · exact hsame rfl rfl
    · exact hsame rfl rfl
    · exact hsame rfl rfl
    · exact rebases_parseElement (rebases_addElement rfl _)
    · exact rebases_parseElement (hsame rfl rfl)
    · exact rebases_parseElement (hsame rfl rfl)
  | parseNext =>
    dsimp only
    split <;> exact hsame rfl rfl
  | parseAttribute =>
    dsimp only
    split <;> exact hsame (Heap.store_fresh _ _ _ _) rfl
  | parseValue =>
    dsimp only
    split <;> exact hsame (Heap.store_fresh _ _ _ _) rfl
  | parseEnd =>
    cases p.stack with
    | nil => exact hsame rfl rfl
    | cons t stack =>
      dsimp only
      split <;> exact hsame rfl rfl
  | parseSequence =>
    cases p.stack with
    | nil => exact hsame rfl rfl
    | cons t stack =>
      dsimp only
      split
      · unfold stepSequence
        dsimp only
        split_ifs
        · exact rebases_parseElement (rebases_addElement (p := p) rfl _)
        · exact rebases_parseElement (hsame rfl rfl)
        · exact hsame rfl rfl
      · split <;> exact hsame rfl rfl
  | sequenceEnd =>
    cases hstack : p.stack with
    | nil => exact hsame rfl rfl
    | cons t stack =>
      refine ⟨?_, Or.inr (Or.inr ⟨t, ?_, rfl⟩)⟩
      · dsimp only
        split <;> exact Nat.le_refl _
      · rw [hstack]
        exact List.mem_cons_self
  | parseInvalid => exact hsame rfl rfl
  | beyond => exact hsame rfl rfl

/-- No document is being parsed. -/
def Idle (p : Parser ρ) : Prop :=
  p.state = .parseStart ∨ p.state = .parseInvalid ∨ p.state = .beyond

theorem not_idle (hstart : p.state ≠ .parseStart) (hinvalid : p.state ≠ .parseInvalid)
    (hbeyond : p.state ≠ .beyond) : ¬p.Idle := by
  rintro (h | h | h)
  · exact hstart h
  · exact hinvalid h
  · exact hbeyond h

/-- The structures that are being parsed have been allocated. -/
def Old (p : Parser ρ) : Prop :=
  p.Idle ∨ (p.base.block < p.heap.fresh ∧ ∀ t ∈ p.stack, t.base.block < p.heap.fresh)

theorem idle_step (hw : d.Walks S rebuffer Ready) (h : p.Idle) :
    (step S d p).parser.Idle ∨ (step S d p).parser.stack = [] ∧
      (step S d p).parser.base.block < (step S d p).parser.heap.fresh := by
  unfold step
  rcases h with h | h | h
  · rw [h]
    dsimp only
    have hstart := hw.start p.toFront
    split
    · exact Or.inr ⟨rfl, Nat.lt_succ_self _⟩
    · rename_i hok
      rw [if_neg hok] at hstart
      rcases hstart with hsame | hinvalid
      · exact Or.inl (Or.inl (hsame.trans h))
      · exact Or.inl (Or.inr (Or.inl hinvalid))
  · rw [h]
    exact Or.inl (Or.inr (Or.inl h))
  · rw [h]
    exact Or.inl (Or.inr (Or.inr h))

theorem Old.next (hw : d.Walks S rebuffer Ready) (hold : p.Old) (h : Next S d rebuffer p q) :
    q.Old := by
  obtain ⟨r, -, rfl⟩ := h.parser
  show (step S d p).parser.Old
  rcases hold with hidle | ⟨hbase, hitems⟩
  · refine (idle_step hw hidle).imp id fun h => ⟨h.2, fun t ht => ?_⟩
    rw [h.1] at ht
    exact absurd ht List.not_mem_nil
  · have hstack := step_restacks S d p
    have hrebases := step_rebases S d p
    generalize (step S d p).parser = q at hstack hrebases
    obtain ⟨hle, hobject⟩ := hrebases
    refine Or.inr ⟨?_, ?_⟩
    · rcases hobject with hsame | hlt | ⟨t, ht, hsame⟩
      · rw [hsame]
        exact Nat.lt_of_lt_of_le hbase hle
      · exact hlt
      · rw [hsame]
        exact Nat.lt_of_lt_of_le (hitems t ht) hle
    · intro x hx
      refine Nat.lt_of_lt_of_le ?_ hle
      rcases hstack with hsame | ⟨-, u, hu, -, hub⟩ | ⟨t, u, stack, hp, hu, -, hub⟩ | ⟨t, hp⟩ |
        ⟨-, hnil⟩
      · rw [hsame] at hx
        exact hitems x hx
      · rw [hu] at hx
        rcases List.mem_cons.mp hx with rfl | hx
        · rw [hub]
          exact hbase
        · exact hitems x hx
      · rw [hu] at hx
        rcases List.mem_cons.mp hx with rfl | hx
        · rw [hub]
          exact hitems t (by rw [hp]; exact List.mem_cons_self)
        · exact hitems x (by rw [hp]; exact List.mem_cons_of_mem t hx)
      · exact hitems x (by rw [hp]; exact List.mem_cons_of_mem t hx)
      · rw [hnil] at hx
        exact absurd hx List.not_mem_nil

section Run
variable {run : ℕ → Parser ρ} {n : ℕ}

/-- A run of parsers. -/
structure IsRun (S : Schema) (d : ParserDriver ρ) (rebuffer : ρ → ρ → Prop)
    (run : ℕ → Parser ρ) (n : ℕ) : Prop where
  start : (run 0).state = .parseStart
  next : ∀ k < n, Next S d rebuffer (run k) (run (k + 1))

/-- What holds of every parser of a run. -/
theorem IsRun.reaches (hS : S.Generated) (hL : S.Laid) (hw : d.Walks S rebuffer Ready)
    (hrun : IsRun S d rebuffer run n) (hready : Ready (run 0)) {j : ℕ} (hj : j ≤ n) :
    (run j).Shape S ∧ Ready (run j) ∧ (run j).Old := by
  induction j with
  | zero =>
    refine ⟨?_, hready, Or.inl (Or.inl hrun.start)⟩
    unfold Shape
    rw [hrun.start]
    exact trivial
  | succ j ih =>
    obtain ⟨hshape, hready, hold⟩ := ih (Nat.le_of_succ_le hj)
    have hnext := hrun.next j hj
    exact ⟨hshape.next hS hL hw hready hnext, hw.ready _ _ hshape hready hnext, hold.next hw hnext⟩

/-- The step at which an item of the stack has been pushed, which has stayed since. -/
def Origin (run : ℕ → Parser ρ) (j : ℕ) (t : StackItem) (stack : List StackItem) : Prop :=
  ∃ i < j, (run i).state = .parseElement ∧ (run i).stack = stack ∧ (run i).se = t.se ∧
    (run i).base = t.base ∧ ∀ k, i < k → k ≤ j → ∃ u l, (run k).stack = u :: (l ++ stack)

theorem Origin.next {j : ℕ} {t u v : StackItem} {stack l : List StackItem}
    (h : Origin run j t stack) (hse : u.se = t.se) (hbase : u.base = t.base)
    (hstack : (run (j + 1)).stack = v :: (l ++ stack)) : Origin run (j + 1) u stack := by
  obtain ⟨i, hi, hstate, hi', hise, hibase, hall⟩ := h
  refine ⟨i, Nat.lt_succ_of_lt hi, hstate, hi', hise.trans hse.symm, hibase.trans hbase.symm, ?_⟩
  intro k hik hkj
  rcases Nat.eq_or_lt_of_le hkj with rfl | hlt
  · exact ⟨v, l, hstack⟩
  · exact hall k hik (Nat.le_of_lt_succ hlt)

/-- Every item of the stack has one. -/
theorem IsRun.origin (hw : d.Walks S rebuffer Ready) (hrun : IsRun S d rebuffer run n) {j : ℕ}
    (hj : j ≤ n) : (run j).Idle ∨ ∀ l t stack, (run j).stack = l ++ t :: stack →
      Origin run j t stack := by
  induction j with
  | zero => exact Or.inl (Or.inl hrun.start)
  | succ j ih =>
    obtain ⟨r, -, hparser⟩ := (hrun.next j hj).parser
    have hstack : (run (j + 1)).stack = (step S d (run j)).parser.stack := by rw [hparser]
    rcases ih (Nat.le_of_succ_le hj) with hidle | horigin
    · rcases idle_step (S := S) hw hidle with hsame | ⟨hnil, -⟩
      · left
        rw [hparser]
        exact hsame
      · right
        intro l t stack hl
        rw [hstack, hnil] at hl
        exact absurd hl.symm (List.append_ne_nil_of_right_ne_nil l (List.cons_ne_nil t stack))
    · right
      intro l t stack hl
      have hre := step_restacks S d (run j)
      unfold Restacks at hre
      rw [← hstack] at hre
      rcases hre with hsame | ⟨hstate, u, hu, huse, hub⟩ | ⟨x, u, rest, hp, hu, huse, hub⟩ |
        ⟨x, hp⟩ | ⟨-, hnil⟩
      · refine (horigin l t stack (hsame.symm.trans hl)).next rfl rfl
          (v := (l ++ [t]).head (by simp)) (l := (l ++ [t]).tail) ?_
        rw [hl, ← List.cons_append, List.cons_head_tail, List.append_assoc]
        rfl
      · cases l with
        | nil =>
          rw [hu] at hl
          obtain ⟨rfl, rfl⟩ := List.cons.inj hl
          refine ⟨j, Nat.lt_succ_self j, hstate, rfl, huse.symm, hub.symm, fun k hk hk' => ?_⟩
          rw [show k = j + 1 by omega]
          exact ⟨u, [], hu⟩
        | cons y l =>
          have hrest : (run j).stack = l ++ t :: stack := by
            rw [hu] at hl
            exact (List.cons.inj hl).2
          exact (horigin l t stack hrest).next rfl rfl
            (by rw [hl, List.cons_append, ← List.singleton_append (l := stack),
              ← List.append_assoc])
      · cases l with
        | nil =>
          rw [hu] at hl
          obtain ⟨rfl, rfl⟩ := List.cons.inj hl
          exact (horigin [] x rest hp).next huse hub (l := []) hu
        | cons y l =>
          have hrest : rest = l ++ t :: stack := by
            rw [hu] at hl
            exact (List.cons.inj hl).2
          refine (horigin (x :: l) t stack (by rw [hp, hrest]; rfl)).next rfl rfl
            (by rw [hl, List.cons_append, ← List.singleton_append (l := stack),
              ← List.append_assoc])
      · refine (horigin (x :: l) t stack (by rw [hp, hl]; rfl)).next rfl rfl
          (v := (l ++ [t]).head (by simp)) (l := (l ++ [t]).tail) ?_
        rw [hl, ← List.cons_append, List.cons_head_tail, List.append_assoc]
        rfl
      · rw [hnil] at hl
        exact absurd hl.symm (List.append_ne_nil_of_right_ne_nil l (List.cons_ne_nil t stack))

/-- An item that stays on the stack has not been parsed. -/
theorem not_over {p₀ p : Parser ρ} (h : ∃ u l, p.stack = u :: (l ++ p₀.stack)) : ¬p₀.Over p := by
  rintro ⟨-, hsame⟩
  obtain ⟨u, l, hstack⟩ := h
  have hlength := congrArg List.length (hstack.symm.trans hsame)
  rw [List.length_cons, List.length_append] at hlength
  omega

theorem parseElement_state (q : Parser ρ) (i : ℕ) :
    (parseElement S q i).state ≠ .parseAttribute := by
  unfold parseElement
  split
  · exact ParserState.noConfusion
  · exact ParserState.noConfusion

/-- What leads to the value of an attribute. -/
theorem step_attribute (hw : d.Walks S rebuffer Ready) (hshape : p.Shape S) (hready : Ready p)
    (h : (step S d p).parser.state = .parseAttribute) :
    (p.state = .parseElement ∨ p.state = .parseAttribute) ∧
      (step S d p).parser.se = p.se ∧ (step S d p).parser.base = p.base := by
  unfold step at h ⊢
  cases hstate : p.state with
  | parseElement =>
    rw [hstate] at h
    change (stepElement S p).parser.state = _ at h
    refine ⟨Or.inl rfl, ?_⟩
    show (stepElement S p).parser.se = p.se ∧ (stepElement S p).parser.base = p.base
    unfold stepElement at h ⊢
    dsimp only at h ⊢
    split_ifs at h ⊢
    · exact ⟨rfl, rfl⟩
    · exact ⟨rfl, rfl⟩
    · cases h
    · exact absurd h (parseElement_state _ _)
    · exact absurd h (parseElement_state _ _)
    · exact absurd h (parseElement_state _ _)
  | parseAttribute =>
    rw [hstate] at h
    dsimp only at h ⊢
    split_ifs at h ⊢
    · cases h
    · exact ⟨Or.inr rfl, (hw.attrValue p.toFront).1, rfl⟩
  | parseStart =>
    rw [hstate] at h
    dsimp only at h
    have hstart := hw.start p.toFront
    split_ifs at h with hok
    · cases h
    · rw [if_neg hok] at hstart
      change (d.parseStart p.toFront).2.state = _ at h
      rcases hstart with hsame | hinvalid
      · cases (h.symm.trans hsame).trans hstate
      · cases h.symm.trans hinvalid
  | parseNext =>
    rw [hstate] at h
    dsimp only at h
    have hnext := hw.next p hstate hshape hready
    have hfront : (d.parseNext p.stack p.toFront).2.state = .parseAttribute := by
      split_ifs at h
      · exact h
      · exact h
    rw [hfront] at hnext
    exact hnext.elim
  | parseValue =>
    rw [hstate] at h
    dsimp only at h
    split_ifs at h with hok
    · cases h
    · change (d.parseValue p.toFront).2.2.state = _ at h
      rcases (hw.value p.toFront).2.1 (Bool.eq_false_iff.mpr hok) with hsame | hinvalid
      · cases (h.symm.trans hsame).trans hstate
      · cases h.symm.trans hinvalid
  | parseEnd =>
    rw [hstate] at h
    cases hstack : p.stack with
    | nil =>
      rw [hstack] at h
      cases h
    | cons t stack =>
      rw [hstack] at h
      dsimp only at h
      by_cases hok : (d.parseEnd t.se p.toFront).1 = true
      · rw [if_pos hok] at h
        unfold ParseStep.parser at h
        dsimp only at h
        split_ifs at h
      · rw [if_neg hok] at h
        change (d.parseEnd t.se p.toFront).2.state = _ at h
        rcases (hw.end_ t.se p.toFront).2 (Bool.eq_false_iff.mpr hok) with hsame | hinvalid
        · cases (h.symm.trans hsame).trans hstate
        · cases h.symm.trans hinvalid
  | parseSequence =>
    rw [hstate] at h
    cases hstack : p.stack with
    | nil =>
      rw [hstack] at h
      cases h.symm.trans hstate
    | cons t stack =>
      rw [hstack] at h
      dsimp only at h
      by_cases hok : (d.parseSequence t p.toFront).1 = true
      · rw [if_pos hok] at h
        unfold stepSequence at h
        dsimp only at h
        split_ifs at h
        · exact absurd h (parseElement_state _ _)
        · exact absurd h (parseElement_state _ _)
        · cases h
      · rw [if_neg hok] at h
        have hfront : (d.parseSequence t p.toFront).2.state = .parseAttribute := by
          split_ifs at h
          · exact h
          · exact h
        rcases (hw.sequence t p.toFront).2 (Bool.eq_false_iff.mpr hok) with
          hsame | hinvalid | hbeyond | ⟨hend, -⟩
        · cases (hfront.symm.trans hsame).trans hstate
        · cases hfront.symm.trans hinvalid
        · cases hfront.symm.trans hbeyond
        · cases hfront.symm.trans hend
  | sequenceEnd =>
    rw [hstate] at h
    cases hstack : p.stack with
    | nil =>
      rw [hstack] at h
      cases h.symm.trans hstate
    | cons t stack =>
      rw [hstack] at h
      cases h
  | parseInvalid =>
    rw [hstate] at h
    cases h.symm.trans hstate
  | beyond =>
    rw [hstate] at h
    cases h.symm.trans hstate

/-- The step at which the attribute began whose value is being parsed. -/
theorem IsRun.attribute (hS : S.Generated) (hL : S.Laid) (hw : d.Walks S rebuffer Ready)
    (hrun : IsRun S d rebuffer run n) (hready : Ready (run 0)) {j : ℕ} (hj : j ≤ n)
    (hstate : (run j).state = .parseAttribute) :
    ∃ i < j, (run i).state = .parseElement ∧ (run i).se = (run j).se ∧
      (run i).base = (run j).base ∧ ∀ k, i < k → k ≤ j → (run k).state = .parseAttribute := by
  induction j with
  | zero => cases hstate.symm.trans hrun.start
  | succ j ih =>
    obtain ⟨hshape, hready, -⟩ := hrun.reaches hS hL hw hready (Nat.le_of_succ_le hj)
    obtain ⟨r, -, hparser⟩ := (hrun.next j hj).parser
    have hstep : (step S d (run j)).parser.state = .parseAttribute := by
      rw [hparser] at hstate
      exact hstate
    obtain ⟨hbefore, hse, hbase⟩ := step_attribute hw hshape hready hstep
    have hse' : (run (j + 1)).se = (run j).se := by
      rw [hparser]
      exact hse
    have hbase' : (run (j + 1)).base = (run j).base := by
      rw [hparser]
      exact hbase
    rcases hbefore with helement | hattribute
    · refine ⟨j, Nat.lt_succ_self j, helement, hse'.symm, hbase'.symm, fun k hk hkj => ?_⟩
      rw [show k = j + 1 by omega]
      exact hstate
    · obtain ⟨i, hi, helement, hise, hibase, hall⟩ := ih (Nat.le_of_succ_le hj) hattribute
      refine ⟨i, Nat.lt_succ_of_lt hi, helement, hise.trans hse'.symm, hibase.trans hbase'.symm, ?_⟩
      intro k hik hkj
      rcases Nat.eq_or_lt_of_le hkj with rfl | hlt
      · exact hstate
      · exact hall k hik (Nat.le_of_lt_succ hlt)

/-- What a step writes beyond a container is written by the occurrence that it is a step of. -/
theorem spilled_holds {i j : ℕ} {l : List (Option Addr)}
    (hi : (run i).heap.Confined S (run i).se (run i).base (run j).heap)
    (hi' : (run i).heap.Confined S (run i).se (run i).base (run (j + 1)).heap)
    (hspills : (run (j + 1)).heap.spills = l ++ (run j).heap.spills) :
    ∀ x ∈ l, ∃ y, x = some y ∧ S.Holds (run i).heap (run i).se (run i).base y := by
  obtain ⟨l₁, hl₁, -⟩ := hi.spills
  obtain ⟨l₂, hl₂, hholds⟩ := hi'.spills
  rw [hspills, hl₁, ← List.append_assoc] at hl₂
  obtain rfl := List.append_cancel_right hl₂
  exact fun x hx => hholds x (List.mem_append_left _ hx)

/-- An item of the stack is an occurrence that has begun, and what has changed since is its own,
also with the next step. -/
theorem IsRun.occurrence (hw : d.Walks S rebuffer Ready) (hrun : IsRun S d rebuffer run n)
    (hisolated : Isolated S run n) {j : ℕ} (hj : j < n) (hidle : ¬(run j).Idle)
    {stack : List StackItem} (hstack : (run j).stack = t :: stack) :
    ∃ i, (run i).se = t.se ∧ (run i).base = t.base ∧
      (run i).heap.Confined S (run i).se (run i).base (run j).heap ∧
      (run i).heap.Confined S (run i).se (run i).base (run (j + 1)).heap := by
  have horigin := (hrun.origin hw (Nat.le_of_lt hj)).resolve_left hidle [] t stack hstack
  obtain ⟨i, hi, hi', histack, hise, hibase, hall⟩ := horigin
  have hopen : ∀ k, i < k → k ≤ j → ¬(run i).Over (run k) := fun k hik hkj =>
    not_over (histack ▸ hall k hik hkj)
  refine ⟨i, hise, hibase, ?_, ?_⟩
  · exact hisolated i j hi (Nat.le_of_lt hj) hi' fun k hik hkj => hopen k hik (Nat.le_of_lt hkj)
  · exact hisolated i (j + 1) (Nat.lt_succ_of_lt hi) hj hi'
      fun k hik hkj => hopen k hik (Nat.le_of_lt_succ hkj)

/-- **Flag isolation holds of a run** where its strings and URIs that may be missing do, and its
strings are not written beyond their fields. -/
theorem isolated_iff_meets (hS : S.Generated) (hL : S.Laid) (hw : d.Walks S rebuffer Ready)
    (hrun : IsRun S d rebuffer run n) (hready : Ready (run 0)) :
    Isolated S run n ↔ ∀ k < n, (run k).Meets S ∧ (run k).Contains S d := by
  constructor
  · intro hisolated j hj
    have hnext := hrun.next j hj
    obtain ⟨hshape, -, hold⟩ := hrun.reaches hS hL hw hready (Nat.le_of_lt hj)
    obtain ⟨r, -, hparser⟩ := hnext.parser
    refine ⟨?_, ?_, ?_⟩
    · -- The bits of the count.
      intro hstate t stack hstack hsimple hpointer hunbounded
      obtain ⟨i, hise, hibase, hbefore, hafter⟩ := hrun.occurrence hw hisolated hj
        (not_idle (by rw [hstate]; exact ParserState.noConfusion)
          (by rw [hstate]; exact ParserState.noConfusion)
          (by rw [hstate]; exact ParserState.noConfusion)) hstack
      have hcovers : ¬(S.element (run i).se).Covers := by
        rw [hise]
        exact fun h => Bool.false_ne_true (h.2.1.symm.trans hsimple)
      have hnone : ∀ b, ¬(S.element (run i).se).Allots b := by
        rw [hise]
        exact fun b h => h.1 ⟨Or.inr hsimple, hpointer⟩
      -- no bit of the word has changed since the occurrence began
      have hsame : (run (j + 1)).heap.flags t.base = (run j).heap.flags t.base := by
        rw [← hibase]
        refine BitVec.eq_of_getLsbD_eq fun b _ => ?_
        have h := not_not.mp (mt (hbefore.word hcovers b) (hnone b))
        have h' := not_not.mp (mt (hafter.word hcovers b) (hnone b))
        exact h'.trans h.symm
      unfold Shape at hshape
      rw [hstate, hstack] at hshape
      obtain ⟨hgood, -, -, hmost⟩ := hshape
      have hheap : (run (j + 1)).heap = if t.all ≠ 0 then
          (run j).heap.setCount t.base (t.count - (S.element t.se).min) (S.element t.se).bit
          else (run j).heap := by
        rw [hparser]
        unfold step
        rw [hstate, hstack]
        rfl
      by_cases hall : t.all ≠ 0
      · rw [hheap, if_pos hall] at hsame
        unfold Heap.setCount at hsame
        dsimp only at hsame
        rwa [Function.update_self] at hsame
      · have hcount : t.count - (S.element t.se).min = 0 := by
          have hmax := hmost.resolve_left fun h => Bool.false_ne_true (hunbounded.symm.trans h)
          rw [hgood.all, hunbounded, if_neg Bool.false_ne_true] at hall
          omega
        rw [hcount]
        exact BitVec.eq_of_getLsbD_eq fun b _ => by simp
    · -- The value of an attribute.
      intro hstate v spill hspill
      obtain ⟨i, hi, helement, hise, hibase, hall⟩ :=
        hrun.attribute hS hL hw hready (Nat.le_of_lt hj) hstate
      have hopen : ∀ k, i < k → k ≤ j → ¬(run i).Over (run k) := fun k hik hkj hover =>
        ParserState.noConfusion ((hall k hik hkj).symm.trans hover.1)
      have hbefore := hisolated i j hi (Nat.le_of_lt hj) helement
        fun k hik hkj => hopen k hik (Nat.le_of_lt hkj)
      have hafter := hisolated i (j + 1) (Nat.lt_succ_of_lt hi) hj helement
        fun k hik hkj => hopen k hik (Nat.le_of_lt_succ hkj)
      have hspills : (run (j + 1)).heap.spills =
          spill.places ((run j).base.plus (S.element (run j).se).offset) ++
            (run j).heap.spills := by
        rw [hparser]
        unfold step
        rw [hstate]
        dsimp only
        rw [hspill]
        split <;> rfl
      have hattribute : (S.element (run j).se).isAttribute = true := by
        unfold Shape at hshape
        rw [hstate] at hshape
        exact hshape.2.1
      intro x hx
      obtain ⟨y, rfl, hy⟩ := spilled_holds hbefore hafter hspills x hx
      rw [hise, hibase] at hy
      refine ⟨y, rfl, hy.resolve_right fun h => ?_⟩
      exact Bool.false_ne_true (h.1.1.symm.trans hattribute)
    · -- The value of an element.
      intro hstate t stack hstack v spill hspill
      obtain ⟨i, hise, hibase, hbefore, hafter⟩ := hrun.occurrence hw hisolated hj
        (not_idle (by rw [hstate]; exact ParserState.noConfusion)
          (by rw [hstate]; exact ParserState.noConfusion)
          (by rw [hstate]; exact ParserState.noConfusion)) hstack
      have hspills : (run (j + 1)).heap.spills =
          spill.places (run j).base ++ (run j).heap.spills := by
        rw [hparser]
        unfold step
        rw [hstate]
        dsimp only
        rw [hspill]
        split <;> rfl
      unfold Shape at hshape
      rw [hstate, hstack] at hshape
      obtain ⟨-, -, -, hsimple, -⟩ := hshape
      intro x hx
      obtain ⟨y, rfl, hy⟩ := spilled_holds hbefore hafter hspills x hx
      rw [hise, hibase] at hy
      refine ⟨y, rfl, hy.resolve_right fun h => ?_⟩
      exact Bool.false_ne_true (h.1.2.symm.trans hsimple)
  · intro hmeets i j hij hjn hstate hopen
    obtain ⟨-, -, hold⟩ := hrun.reaches hS hL hw hready (Nat.le_trans (Nat.le_of_lt hij) hjn)
    have hbase : (run i).base.block < (run i).heap.fresh := by
      rcases hold with (h | h | h) | h
      · exact absurd (hstate.symm.trans h) ParserState.noConfusion
      · exact absurd (hstate.symm.trans h) ParserState.noConfusion
      · exact absurd (hstate.symm.trans h) ParserState.noConfusion
      · exact h.1
    have hwithin : ∀ k, i < k → k ≤ j → Within S (run i) (run k) := by
      intro k hik
      induction k, hik using Nat.le_induction with
      | base =>
        intro hkj
        obtain ⟨r, -, hparser⟩ := (hrun.next i (by omega)).parser
        have hbegins : Within S (run i) (stepElement S (run i)).parser := stepElement_begins hS
        rw [hparser]
        unfold step
        rw [hstate]
        exact ⟨hbegins.place, hbegins.confined, hbegins.fresh⟩
      | succ k hik ih =>
        intro hkj
        obtain ⟨hshape, hready, -⟩ := hrun.reaches hS hL hw hready (j := k) (by omega)
        exact (ih (by omega)).next hS hL hw hbase hshape hready (hmeets k (by omega)).1
          (hmeets k (by omega)).2 (hopen k hik (by omega)) (hrun.next k (by omega))
    exact (hwithin j hij (Nat.le_refl j)).confined

end Run

end Parser

/-! ## The documents -/

section Claim
variable (S : Schema) (sh : IntShift)

/-- A string literal of an EXI document at `q`, of an entry whose occurrence `i` of `b` is parsed at
`a`, is written to places of the entry only. -/
def InBits.LiteralFits (i : ℕ) (b a : Addr) (q : InBits) : Prop :=
  ∀ size spill, (S.element i).stringSize = some size → q.spill sh size = some spill →
    ∀ x ∈ spill.places a, ∃ y, x = some y ∧ S.Field i b y

/-- The literal that is read next, of an attribute or of an element that has a value, fits. -/
def Parser.LiteralsFit (p : Parser (ExiParser ExiInput)) : Prop :=
  (p.state = .parseAttribute → p.input.source.input.LiteralFits S sh p.se p.base
    (p.base.plus (S.element p.se).offset)) ∧
  (p.state = .parseValue → ∀ t stack, p.stack = t :: stack →
    p.input.source.input.parseBit.1 = 0 →
      p.input.source.input.parseBit.2.LiteralFits S sh t.se t.base p.base)

end Claim

/-- What an element stores is what its value does. -/
theorem exiParseSimple_value {ρ : Type} {k : ExiSource ρ} {f : Front (ExiParser ρ)}
    (h : (k.bit f.input.source).1 = 0) :
    (exiParseSimple k f).2.1 = (k.value f.se (k.bit f.input.source).2).stored := by
  unfold exiParseSimple
  dsimp only
  rw [if_neg (not_not.mpr h)]

/-- With a code of the second level there is none. -/
theorem exiParseSimple_code {ρ : Type} {k : ExiSource ρ} {f : Front (ExiParser ρ)}
    (h : (k.bit f.input.source).1 ≠ 0) : (exiParseSimple k f).2.1 = .nothing := by
  unfold exiParseSimple
  dsimp only
  rw [if_pos h]
  split <;> rfl

/-- The strings of an EXI document stay in their fields where its literals fit. -/
theorem Parser.contains_iff_literalsFit {S : Schema} {sh : IntShift}
    {lost : ExiInput → ExiRead ExiInput} {p : Parser (ExiParser ExiInput)} (hshape : p.Shape S) :
    p.Contains S (exiParser S (exiSource S (exiBits S sh lost))) ↔ p.LiteralsFit S sh := by
  have hvalue : ∀ (j : ℕ) (q : ExiInput) (P : Spill → Prop),
      (∀ v spill, (exiValue S (exiBits S sh lost) j q).stored = .spilled v spill → P spill) ↔
        ∀ size spill, (S.element j).stringSize = some size → q.input.spill sh size = some spill →
          P spill := by
    intro j q P
    constructor
    · intro h size spill hsize hspill
      obtain ⟨v, hv⟩ := (exiValue_spilled S sh lost).mpr ⟨size, hsize, hspill⟩
      exact h v spill hv
    · intro h v spill hv
      obtain ⟨size, hsize, hspill⟩ := (exiValue_spilled S sh lost).mp ⟨v, hv⟩
      exact h size spill hsize hspill
  unfold Contains LiteralsFit
  refine and_congr (forall_congr' fun hstate => ?_) (forall_congr' fun hstate => ?_)
  · exact hvalue p.se p.input.source _
  · refine forall_congr' fun t => forall_congr' fun stack => forall_congr' fun hstack => ?_
    unfold Shape at hshape
    rw [hstate, hstack] at hshape
    obtain ⟨-, -, -, -, hse, -⟩ := hshape
    by_cases hbit : p.input.source.input.parseBit.1 = 0
    · have hstored := exiParseSimple_value (k := exiSource S (exiBits S sh lost))
        (f := p.toFront) hbit
      refine Iff.trans ?_ (forall_prop_of_true (q := fun _ => _) hbit).symm
      show (∀ v spill, (exiParseSimple _ p.toFront).2.1 = .spilled v spill → _) ↔ _
      rw [hstored, hse]
      exact hvalue t.se _ _
    · have hstored := exiParseSimple_code (k := exiSource S (exiBits S sh lost))
        (f := p.toFront) hbit
      refine ⟨fun _ hzero => absurd hzero hbit, fun _ v spill h => ?_⟩
      exact Stored.noConfusion (hstored.symm.trans h)

/-- A string of an XML document is not written beyond its container. -/
theorem xmlParseValue_contained {ρ : Type} {S : Schema} {k : XmlSource ρ} (f : Front (XmlInput ρ))
    (v : Option Value) (spill : Spill) : (xmlParseValue S k f).2.1 ≠ .spilled v spill := by
  have hnumber : ∀ t data, (k.number t data).2 ≠ .spilled v spill := by
    intro t data
    unfold XmlSource.number
    split
    · exact Stored.noConfusion
    · exact Stored.noConfusion
  unfold xmlParseValue
  dsimp only
  cases (S.element f.se).xsType with
  | boolean =>
    dsimp only
    split_ifs
    · exact Stored.noConfusion
    · exact Stored.noConfusion
    · exact Stored.noConfusion
  | string =>
    dsimp only
    split
    · exact Stored.noConfusion
    · exact Stored.noConfusion
  | hexBinary =>
    dsimp only
    split
    · exact Stored.noConfusion
    · exact Stored.noConfusion
  | anyURI => exact Stored.noConfusion
  | null => exact Stored.noConfusion
  | _ => exact hnumber _ _

theorem Parser.xml_contains {ρ : Type} {S : Schema} {k : XmlSource ρ} {fuel : ℕ}
    (p : Parser (XmlInput ρ)) : p.Contains S (xmlParser S k fuel) := by
  refine ⟨fun _ v spill h => absurd h (xmlParseValue_contained _ _ _), ?_⟩
  intro _ t stack _ v spill h
  change (parseTextValue S k p.toFront).2.1 = _ at h
  unfold parseTextValue at h
  dsimp only at h
  split at h
  · exact absurd h (xmlParseValue_contained _ _ _)
  · exact Stored.noConfusion h

/-- **Flag isolation in parsing**, of EXI and of XML documents. -/
theorem flag_isolation (S : Schema) (hS : S.Generated) (hL : S.Laid) {ρ : Type} (n : ℕ) :
    (∀ (sh : IntShift) (lost : ExiInput → ExiRead ExiInput)
        (run : ℕ → Parser (ExiParser ExiInput)),
      Parser.IsRun S (exiParser S (exiSource S (exiBits S sh lost))) ExiParser.Rebuffer run n →
        (Isolated S run n ↔ ∀ j < n, (run j).Meets S ∧ (run j).LiteralsFit S sh)) ∧
    (∀ (k : XmlSource ρ) (fuel : ℕ) (run : ℕ → Parser (XmlInput ρ)),
      Parser.IsRun S (xmlParser S k fuel) XmlInput.Rebuffer run n →
        (Isolated S run n ↔ ∀ j < n, (run j).Meets S)) := by
  constructor
  · intro sh lost run hrun
    have hready := exiReady_of_idle (S := S) (Or.inl hrun.start)
    refine (Parser.isolated_iff_meets hS hL (exiWalks hS) hrun hready).trans ?_
    refine forall_congr' fun j => forall_congr' fun hj => and_congr Iff.rfl ?_
    obtain ⟨hshape, -, -⟩ := hrun.reaches hS hL (exiWalks hS) hready (Nat.le_of_lt hj)
    exact Parser.contains_iff_literalsFit hshape
  · intro k fuel run hrun
    refine (Parser.isolated_iff_meets hS hL xmlWalks hrun trivial).trans ?_
    exact forall_congr' fun j => forall_congr' fun hj => and_iff_left (Parser.xml_contains _)

/-! ## A table with an optional URI -/

/-- A run in which the whole document is in the buffer. -/
def Parser.iterate {ρ : Type} (S : Schema) (d : ParserDriver ρ) (p : Parser ρ) : ℕ → Parser ρ
  | 0 => p
  | k + 1 => (step S d (iterate S d p k)).parser

theorem Parser.iterate_isRun {ρ : Type} {S : Schema} {d : ParserDriver ρ} {rebuffer : ρ → ρ → Prop}
    {p : Parser ρ} (hp : p.state = .parseStart) (hr : ∀ a, rebuffer a a) (n : ℕ) :
    IsRun S d rebuffer (iterate S d p) n := by
  refine ⟨hp, fun k _ => ?_⟩
  show Next S d rebuffer (iterate S d p k) (step S d (iterate S d p k)).parser
  cases hstep : step S d (iterate S d p k) with
  | go q => exact .go hstep
  | stop q => exact .again (q := q) (Or.inl hstep) (hr q.input)
  | done q type obj => exact .again (q := q) (Or.inr ⟨type, obj, hstep⟩) (hr q.input)

/-- A global element, its type, and the entries `newResourceURI` and `status`, both optional. -/
def notification : Schema where
  schemaId := chars ['S', '1']
  length := 1
  elements := [{ index := 1, min := 1, max := 1 }, { offset := 16 },
    { offset := 8, xsType := .anyURI, max := 1, simple := true, n := 3 },
    { offset := 4, xsType := .ubyte, max := 1, simple := true, n := 2 }]
  names := []
  ids := []

theorem notification_cases {P : ℕ → SchemaElement → Prop} (h0 : P 0 (notification.element 0))
    (h1 : P 1 (notification.element 1)) (h2 : P 2 (notification.element 2))
    (h3 : P 3 (notification.element 3)) (h4 : ∀ i, 4 ≤ i → P i {}) (i : ℕ) :
    P i (notification.element i) := by
  by_cases hi : i < 4
  · interval_cases i
    · exact h0
    · exact h1
    · exact h2
    · exact h3
  · have hdefault : notification.element i = {} := by
      unfold Schema.element
      rw [List.getD_eq_default _ _ (Nat.le_of_not_lt hi)]
    rw [hdefault]
    exact h4 i (Nat.le_of_not_lt hi)

theorem notification_generated : notification.Generated where
  globals := notification_cases (P := fun i se => i ≤ 1 → se.n = 0) (fun _ => rfl) (fun _ => rfl)
    (fun h => absurd h (by decide)) (fun h => absurd h (by decide)) fun _ _ _ => rfl
  root := fun i h => by
    obtain rfl : i = 0 := Nat.lt_one_iff.mp h
    exact ⟨rfl, rfl, rfl, rfl⟩
  productions := fun i hn => by
    refine notification_cases
      (P := fun i se => se.n ≠ 0 → se.n = productions (notification.entries i)) ?_ ?_ ?_ ?_ ?_ i hn
    · exact fun h => absurd rfl h
    · exact fun h => absurd rfl h
    · exact fun _ => rfl
    · exact fun _ => rfl
    · exact fun i _ h => absurd rfl h
  attributes := notification_cases (P := fun _ se => se.isAttribute → se.min ≤ 1 ∧ se.max = 1 ∧
    se.unbounded = false) (by decide) (by decide) (by decide) (by decide) fun _ _ => by decide
  bounds := notification_cases (P := fun _ se => se.unbounded = false → se.min ≤ se.max)
    (by decide) (by decide) (by decide) (by decide) fun _ _ => by decide
  heads := notification_cases (P := fun i se => 1 ≤ i → se.n = 0 → se.min = 0 ∧ se.max = 0 ∧
    se.isAttribute = false ∧ se.unbounded = false)
    (by decide) (by decide) (by decide) (by decide) fun _ _ _ => by decide
  types := notification_cases (P := fun i se => i < 1 ∨ se.n ≠ 0 → se.isAttribute = false →
    se.simple = false → 1 ≤ se.index)
    (by decide) (by decide) (by decide) (by decide) fun i hi h => by
      rcases h with h | h
      · omega
      · exact absurd rfl h

theorem notification_entry {h j : ℕ} (hh : (notification.element h).n = 0)
    (he : notification.Entry h j) : h = 1 ∧ (j = 2 ∨ j = 3) := by
  obtain ⟨⟨hlt, hall⟩, hn⟩ := he
  have hj : j = 2 ∨ j = 3 := by
    refine notification_cases (P := fun i se => se.n ≠ 0 → i = 2 ∨ i = 3) ?_ ?_ ?_ ?_ ?_ j hn
    · exact fun h => absurd rfl h
    · exact fun h => absurd rfl h
    · exact fun _ => Or.inl rfl
    · exact fun _ => Or.inr rfl
    · exact fun i _ h => absurd rfl h
  refine ⟨?_, hj⟩
  have hone : ¬h < 1 := fun hzero => absurd (hall 1 (by omega) (by omega)) (by decide)
  have htwo : h ≠ 2 := by
    rintro rfl
    exact absurd hh (by decide)
  omega

theorem notification_laid : notification.Laid where
  occurs := notification_cases
    (P := fun _ se => se.n ≠ 0 → se.unbounded = false → 0 < se.max)
    (by decide) (by decide) (by decide) (by decide) fun _ _ => by decide
  boolean := notification_cases (P := fun i se => i < 1 ∨ se.n ≠ 0 → se.xsType = .boolean →
    se.isAttribute = true ∨ se.simple = true → se.offset = 0 ∧ se.unbounded = false)
    (by decide) (by decide) (by decide) (by decide) fun i hi h => by
      rcases h with h | h
      · omega
      · exact absurd rfl h
  head := notification_cases (P := fun i se => i < 1 ∨ se.n ≠ 0 → se.isAttribute = false →
    se.simple = false → (notification.element se.index).n = 0)
    (by decide) (by decide) (by decide) (by decide) fun i hi h => by
      rcases h with h | h
      · omega
      · exact absurd rfl h
  word := fun h j hh he => by
    obtain ⟨rfl, -⟩ := notification_entry hh he
    decide
  fits := fun h j hh he => by
    obtain ⟨rfl, rfl | rfl⟩ := notification_entry hh he
    · decide
    · decide

/-- `parse_doc`, of the notification of these bytes, with its header. -/
def notificationRun (bytes : List UInt8) : ℕ → Parser (ExiParser ExiInput) :=
  Parser.iterate notification
    (exiParser notification (exiSource notification (exiBits notification IntShift.x86 fun p =>
      { ok := false, rest := p })))
    { input.source :=
        ⟨⟨[0xa0, 0x30, 0x11, 0x4c, 0xc6] ++ bytes, 0, false⟩, ⟨none, []⟩, [], false⟩
      heap :=
        { flags := fun _ => 0, value := fun _ => none, items := fun _ => [], fresh := 0 } }

theorem notificationRun_isRun (bytes : List UInt8) (n : ℕ) :
    Parser.IsRun notification
      (exiParser notification (exiSource notification (exiBits notification IntShift.x86 fun p =>
        { ok := false, rest := p }))) ExiParser.Rebuffer (notificationRun bytes) n :=
  Parser.iterate_isRun rfl (fun a => ⟨a.source, rfl⟩) n

/-- With a status only, no string is parsed. -/
theorem notificationRun_status : ∀ j < 12,
    (notificationRun [0x40, 0xe0] j).state ≠ .parseAttribute ∧
    ∀ i ∈ (notificationRun [0x40, 0xe0] j).stack.map StackItem.se, i = 0 ∨ i = 3 := by
  decide +kernel

/-- A whole document, with a status only. -/
theorem notificationRun_isolated : Isolated notification (notificationRun [0x40, 0xe0]) 12 := by
  refine ((flag_isolation notification notification_generated notification_laid
    (ρ := Unit) 12).1 IntShift.x86 _ _ (notificationRun_isRun _ 12)).mpr fun j hj => ?_
  obtain ⟨hattribute, hstatus⟩ := notificationRun_status j hj
  have htop : ∀ t stack, (notificationRun [0x40, 0xe0] j).stack = t :: stack →
      t.se = 0 ∨ t.se = 3 := by
    intro t stack hstack
    refine hstatus t.se ?_
    rw [hstack]
    exact List.mem_cons_self
  refine ⟨?_, fun hstate => absurd hstate hattribute, ?_⟩
  · intro _ t stack hstack _ hpointer
    rcases htop t stack hstack with hse | hse
    · rw [hse] at hpointer
      cases hpointer
    · rw [hse] at hpointer
      cases hpointer
  · intro _ t stack hstack _ size spill hsize
    rcases htop t stack hstack with hse | hse
    · rw [hse] at hsize
      cases hsize
    · rw [hse] at hsize
      cases hsize

/-- The state, the stack and the flag word behind the URI `a`. -/
theorem notificationRun_uri :
    (notificationRun [0x00, 0x6c, 0x20] 6).state = .sequenceEnd ∧
      (notificationRun [0x00, 0x6c, 0x20] 6).stack.map (fun t => (t.se, t.base, t.count)) =
        [(2, ⟨0, 0⟩, 1), (0, ⟨0, 0⟩, 0)] ∧
      (notificationRun [0x00, 0x6c, 0x20] 6).heap.flags ⟨0, 0⟩ = 0 := by
  decide +kernel

/-- A notification with a URI has the presence of the status set. -/
theorem notificationRun_not_isolated :
    ¬Isolated notification (notificationRun [0x00, 0x6c, 0x20]) 7 := by
  intro h
  have hmeets := ((Parser.isolated_iff_meets notification_generated notification_laid
    (exiWalks notification_generated) (notificationRun_isRun _ 7) trivial).mp h 6 (by decide)).1
  obtain ⟨hstate, hstack, hflags⟩ := notificationRun_uri
  cases htop : (notificationRun [0x00, 0x6c, 0x20] 6).stack with
  | nil =>
    rw [htop] at hstack
    cases hstack
  | cons t stack =>
    rw [htop] at hstack
    have ht : (t.se, t.base, t.count) = (2, ⟨0, 0⟩, 1) := (List.cons.inj hstack).1
    obtain ⟨hse, hrest⟩ := Prod.mk.inj ht
    obtain ⟨hbase, hcount⟩ := Prod.mk.inj hrest
    have hword := hmeets hstate t stack htop (by rw [hse]; rfl) (by rw [hse]; rfl)
      (by rw [hse]; rfl)
    rw [hbase, hcount, hse, hflags] at hword
    exact absurd hword (by decide)

end SeClient
