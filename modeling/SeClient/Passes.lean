import Mathlib.Data.Nat.Notation
import Mathlib.Logic.Relation

/-!
# Loops

One pass of a loop goes on from a state to the next one, or leaves with a result.  How a loop ends
does not depend on the number of passes it is given, as long as they suffice; that they do follows
from a bound on the passes that are left.
-/

namespace Passes

variable {σ ρ : Type*} {pass : σ → σ ⊕ ρ} {s t : σ} {r r' : ρ} {fuel : ℕ}

/-- The loop; `none` when it has not been left after `fuel` passes. -/
def loop (pass : σ → σ ⊕ ρ) : ℕ → σ → Option ρ
  | 0, _ => none
  | fuel + 1, s =>
    match pass s with
    | .inl t => loop pass fuel t
    | .inr r => some r

/-- The loop that begins at `s` is left with `r`. -/
inductive Ends (pass : σ → σ ⊕ ρ) : σ → ρ → Prop
  | last {s : σ} {r : ρ} (h : pass s = .inr r) : Ends pass s r
  | next {s t : σ} {r : ρ} (h : pass s = .inl t) (ht : Ends pass t r) : Ends pass s r

/-- Passes lead from one state to another. -/
def Leads (pass : σ → σ ⊕ ρ) : σ → σ → Prop := Relation.ReflTransGen fun s t => pass s = .inl t

theorem Leads.refl (s : σ) : Leads pass s s := Relation.ReflTransGen.refl

theorem Leads.step (h : pass s = .inl t) : Leads pass s t := Relation.ReflTransGen.single h

theorem Leads.trans {u : σ} (h : Leads pass s t) (h' : Leads pass t u) : Leads pass s u :=
  Relation.ReflTransGen.trans h h'

/-- **The induction rule of passes.** -/
theorem Leads.invariant (inv : σ → Prop) (h : Leads pass s t)
    (hstep : ∀ s t, inv s → pass s = .inl t → inv t) (hs : inv s) : inv t := by
  induction h with
  | refl => exact hs
  | tail _ hlast ih => exact hstep _ _ ih hlast

theorem Ends.unique (h : Ends pass s r) (h' : Ends pass s r') : r = r' := by
  induction h with
  | last h =>
    cases h' with
    | last h' => exact Sum.inr.inj (h.symm.trans h')
    | next h' _ => cases h.symm.trans h'
  | next h _ ih =>
    cases h' with
    | last h' => cases h.symm.trans h'
    | next h' ht' =>
      obtain rfl := Sum.inl.inj (h.symm.trans h')
      exact ih ht'

/-- **What passes lead to** decides how the loop is left. -/
theorem Leads.ends (h : Leads pass s t) : Ends pass s r ↔ Ends pass t r := by
  induction h with
  | refl => exact Iff.rfl
  | @tail t u _ hlast ih =>
    rw [ih]
    constructor
    · intro ht
      cases ht with
      | last h' => cases hlast.symm.trans h'
      | next h' hu =>
        obtain rfl := Sum.inl.inj (hlast.symm.trans h')
        exact hu
    · exact Ends.next hlast

/-- A state with the same pass. -/
theorem ends_congr (h : pass s = pass t) : Ends pass s r ↔ Ends pass t r := by
  have hone : ∀ {s t : σ}, pass s = pass t → Ends pass s r → Ends pass t r := by
    intro s t h hs
    cases hs with
    | last hr => exact .last (h ▸ hr)
    | next hu hends => exact .next (h ▸ hu) hends
  exact ⟨hone h, hone h.symm⟩

/-- **The rule for a result**: an invariant of the passes, and what the last one makes of it. -/
theorem Ends.result (inv : σ → Prop) (out : ρ → Prop) (h : Ends pass s r)
    (hstep : ∀ s t, inv s → pass s = .inl t → inv t)
    (hlast : ∀ s r, inv s → pass s = .inr r → out r) (hs : inv s) : out r := by
  induction h with
  | last h => exact hlast _ _ hs h
  | next h _ ih => exact ih (hstep _ _ hs h)

theorem ends_of_loop (h : loop pass fuel s = some r) : Ends pass s r := by
  induction fuel generalizing s with
  | zero => cases h
  | succ fuel ih =>
    rw [loop] at h
    cases hpass : pass s with
    | inl t =>
      rw [hpass] at h
      exact .next hpass (ih h)
    | inr r' =>
      rw [hpass] at h
      obtain rfl := Option.some.inj h
      exact .last hpass

theorem Ends.loop (h : Ends pass s r) : ∃ fuel, Passes.loop pass fuel s = some r := by
  induction h with
  | last h => exact ⟨1, by rw [Passes.loop, h]⟩
  | next h _ ih =>
    obtain ⟨fuel, hfuel⟩ := ih
    exact ⟨fuel + 1, by rw [Passes.loop, h]; exact hfuel⟩

section
variable (left : σ → ℕ) (hleft : ∀ s t, pass s = .inl t → left t < left s)
include hleft

/-- A loop that has passes enough is left. -/
theorem exists_loop (h : left s < fuel) : ∃ r, loop pass fuel s = some r := by
  induction fuel generalizing s with
  | zero => exact absurd h (Nat.not_lt_zero _)
  | succ fuel ih =>
    rw [loop]
    cases hpass : pass s with
    | inl t =>
      have hless := hleft s t hpass
      exact ih (by omega)
    | inr r => exact ⟨r, rfl⟩

/-- **The loop and its end.** -/
theorem loop_eq_some_iff (h : left s < fuel) : loop pass fuel s = some r ↔ Ends pass s r := by
  refine ⟨ends_of_loop, fun hends => ?_⟩
  obtain ⟨r', hr'⟩ := exists_loop left hleft h
  rw [hr', hends.unique (ends_of_loop hr')]

end
end Passes
