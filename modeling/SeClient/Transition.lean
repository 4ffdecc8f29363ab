import Mathlib.Data.List.Basic

/-!
# Runs of a labelled transition relation

A run is a finite sequence of labelled steps, kept with its most recent step last,
so that the label list is the history of the run.  An invariant may speak about
that history: this is how "delivered so far" is said without storing it.
-/

namespace Transition

variable {σ ι : Type*} {step step' : σ → ι → σ → Prop} {s t u : σ} {ls ms : List ι}

/-- `Run step s ls t`: the steps labelled `ls`, oldest first, lead from `s` to `t`. -/
inductive Run (step : σ → ι → σ → Prop) (s : σ) : List ι → σ → Prop
  | nil : Run step s [] s
  | snoc {ls : List ι} {t u : σ} {i : ι} :
      Run step s ls t → step t i u → Run step s (ls ++ [i]) u

/-- **The induction rule of runs.**  What holds of the start with no history, and
survives every step together with the label it adds, holds of every run. -/
theorem Run.invariant {J : List ι → σ → Prop} (h : Run step s ls t) (h₀ : J [] s)
    (hstep : ∀ ls t i u, J ls t → step t i u → J (ls ++ [i]) u) : J ls t := by
  induction h with
  | nil => exact h₀
  | snoc _ hs ih => exact hstep _ _ _ _ ih hs

theorem Run.trans (h : Run step s ls t) (h' : Run step t ms u) : Run step s (ls ++ ms) u := by
  induction h' with
  | nil => rw [List.append_nil]; exact h
  | snoc _ hs ih => rw [← List.append_assoc]; exact ih.snoc hs

theorem Run.single {i : ι} (h : step s i t) : Run step s [i] t := Run.nil.snoc h

theorem Run.cons {i : ι} (h : step s i t) (h' : Run step t ls u) : Run step s (i :: ls) u :=
  (Run.single h).trans h'

/-- A run passes through the state before each of its steps. -/
theorem Run.split {i : ι} (h : Run step s (ls ++ i :: ms) u) :
    ∃ t t', Run step s ls t ∧ step t i t' ∧ Run step t' ms u := by
  generalize hk : ls ++ i :: ms = ks at h
  induction h generalizing ms with
  | nil => exact absurd hk (by simp)
  | @snoc ks t u j h hs ih =>
    rcases List.eq_nil_or_concat ms with rfl | ⟨ms, k, rfl⟩
    · obtain ⟨rfl, hij⟩ := List.append_inj' hk rfl
      obtain rfl := (List.cons.inj hij).1
      exact ⟨t, u, h, hs, Run.nil⟩
    · rw [List.concat_eq_append, ← List.cons_append, ← List.append_assoc] at hk
      obtain ⟨hks, hkj⟩ := List.append_inj' hk rfl
      obtain rfl := (List.cons.inj hkj).1
      obtain ⟨v, v', hv, hstep, hrest⟩ := ih hks
      rw [List.concat_eq_append]
      exact ⟨v, v', hv, hstep, hrest.snoc hs⟩

theorem Run.eq_of_nil (h : Run step s [] t) : t = s := by
  generalize hk : ([] : List ι) = ks at h
  cases h with
  | nil => rfl
  | snoc => exact absurd hk (by simp)

/-- The first step of a run. -/
theorem Run.uncons {i : ι} (h : Run step s (i :: ms) u) : ∃ t, step s i t ∧ Run step t ms u := by
  have hsplit : Run step s ([] ++ i :: ms) u := h
  obtain ⟨t, t', h₀, hi, hrest⟩ := hsplit.split
  rw [h₀.eq_of_nil] at hi
  exact ⟨t', hi, hrest⟩

/-- **The guarded induction rule.**  What survives every step whose label is good
survives every run whose labels all are. -/
theorem Run.preserves {J : σ → Prop} {G : ι → Prop} (h : Run step s ls t)
    (hgood : ∀ i ∈ ls, G i) (hstep : ∀ t i u, G i → J t → step t i u → J u)
    (h₀ : J s) : J t := by
  induction h with
  | nil => exact h₀
  | snoc _ hs ih =>
    refine hstep _ _ _ (hgood _ (by simp)) (ih fun i hi => hgood i ?_) hs
    exact List.mem_append_left _ hi

/-- **Refining the steps.**  A run whose steps are themselves runs of smaller steps is a run of
smaller steps. -/
theorem Run.flatten {κ : Type*} {S : σ → κ → σ → Prop} {J : σ → Prop} {G : κ → Prop}
    (h : Run step s ls t) (h₀ : J s)
    (hstep : ∀ s i t, i ∈ ls → J s → step s i t →
      J t ∧ ∃ ks, Run S s ks t ∧ ∀ k ∈ ks, G k) :
    J t ∧ ∃ ks, Run S s ks t ∧ ∀ k ∈ ks, G k := by
  induction h with
  | nil => exact ⟨h₀, [], Run.nil, by simp⟩
  | @snoc ls t u i _ hs ih =>
    obtain ⟨ht, ks, hrun, hks⟩ := ih fun s i t hi => hstep s i t (List.mem_append_left _ hi)
    obtain ⟨hu, ks', hrun', hks'⟩ := hstep t i u (by simp) ht hs
    refine ⟨hu, ks ++ ks', hrun.trans hrun', fun k hk => ?_⟩
    exact (List.mem_append.mp hk).elim (hks k) (hks' k)

/-! ## Folds that can fail -/

section Fold
variable {α β : Type*} {f : β → α → Option β} {l : List α} {b b' : β}

@[simp] theorem foldlM_nil_eq_some : [].foldlM f b = some b' ↔ b = b' := by simp

theorem foldlM_cons_eq_some {a : α} :
    (a :: l).foldlM f b = some b' ↔ ∃ b₁, f b a = some b₁ ∧ l.foldlM f b₁ = some b' := by
  rw [List.foldlM_cons, Option.bind_eq_bind, Option.bind_eq_some_iff]

/-- A loop on a part of the state is a loop on the state. -/
theorem foldlM_map {γ : Type*} {g : γ → α → Option γ} (mk : β → γ)
    (hg : ∀ b a, g (mk b) a = (f b a).map mk) (h : l.foldlM f b = some b') :
    l.foldlM g (mk b) = some (mk b') := by
  induction l generalizing b with
  | nil =>
    rw [foldlM_nil_eq_some] at h ⊢
    rw [h]
  | cons a l ih =>
    obtain ⟨b₁, hf, h⟩ := foldlM_cons_eq_some.mp h
    exact foldlM_cons_eq_some.mpr ⟨mk b₁, by rw [hg, hf]; rfl, ih h⟩

/-- What every pass of a loop keeps, the loop keeps. -/
theorem foldlM_preserves {J : β → Prop} (h : l.foldlM f b = some b')
    (hstep : ∀ b a b', a ∈ l → J b → f b a = some b' → J b') (h₀ : J b) : J b' := by
  induction l generalizing b with
  | nil =>
    rw [foldlM_nil_eq_some] at h
    exact h ▸ h₀
  | cons a l ih =>
    obtain ⟨b₁, hf, h⟩ := foldlM_cons_eq_some.mp h
    exact ih h (fun b a b' ha => hstep b a b' (List.mem_cons_of_mem _ ha))
      (hstep b a b₁ List.mem_cons_self h₀ hf)

/-- The passes of a loop, each with the state in which it starts. -/
def trace (f : β → α → Option β) : β → List α → List (β × α)
  | _, [] => []
  | b, a :: l =>
    (b, a) :: match f b a with
      | some b' => trace f b' l
      | none => []

/-- **A fold as a run.**  Every pass of the loop is a run of its own, in a relation of the
two levels that may speak about the elements still to come. -/
theorem Run.foldlM {T : σ → ι → σ → Prop} {A : α → List ι}
    {R : List α → β → σ → Prop}
    (hstep : ∀ a l b b' s, R (a :: l) b s → f b a = some b' →
      ∃ s', R l b' s' ∧ Run T s (A a) s')
    (h : l.foldlM f b = some b') (h₀ : R l b s) :
    ∃ s', R [] b' s' ∧ Run T s (l.flatMap A) s' := by
  induction l generalizing b s with
  | nil =>
    rw [foldlM_nil_eq_some] at h
    exact ⟨s, h ▸ h₀, Run.nil⟩
  | cons a l ih =>
    obtain ⟨b₁, hf, h⟩ := foldlM_cons_eq_some.mp h
    obtain ⟨s₁, h₁, hrun₁⟩ := hstep a l b b₁ s h₀ hf
    obtain ⟨s', h', hrun⟩ := ih h h₁
    exact ⟨s', h', hrun₁.trans hrun⟩

end Fold

/-! ## Computations with fuel -/

section Fuel
variable {α β : Type*} {a a' : α} {b b' : β}

/-- A computation with fuel comes to a result, and to the same one with more fuel. -/
def Settles (f : ℕ → Option α) (a : α) : Prop := ∃ n, ∀ fuel, n ≤ fuel → f fuel = some a

theorem Settles.const (a : α) : Settles (fun _ => some a) a := ⟨0, fun _ _ => rfl⟩

theorem Settles.unique {f : ℕ → Option α} (h : Settles f a) (h' : Settles f a') : a = a' := by
  obtain ⟨n, hn⟩ := h
  obtain ⟨m, hm⟩ := h'
  exact Option.some.inj ((hn _ (Nat.le_max_left n m)).symm.trans (hm _ (Nat.le_max_right n m)))

theorem Settles.bind {f : ℕ → Option α} {g : ℕ → α → Option β} (hf : Settles f a)
    (hg : Settles (fun fuel => g fuel a) b) : Settles (fun fuel => (f fuel).bind (g fuel)) b := by
  obtain ⟨n, hn⟩ := hf
  obtain ⟨m, hm⟩ := hg
  refine ⟨max n m, fun fuel hfuel => ?_⟩
  dsimp only
  rw [hn fuel (Nat.le_trans (Nat.le_max_left n m) hfuel)]
  exact hm fuel (Nat.le_trans (Nat.le_max_right n m) hfuel)

theorem Settles.map {f : ℕ → Option α} (g : α → β) (hf : Settles f a) :
    Settles (fun fuel => (f fuel).map g) (g a) := by
  obtain ⟨n, hn⟩ := hf
  exact ⟨n, fun fuel hfuel => congrArg (Option.map g) (hn fuel hfuel)⟩

/-- With a fuel that is enough, more fuel changes nothing. -/
theorem Settles.of_mono {f : ℕ → Option α} (hmono : ∀ n a, f n = some a → f (n + 1) = some a)
    {n : ℕ} (h : f n = some a) : Settles f a := by
  refine ⟨n, fun fuel hfuel => ?_⟩
  induction hfuel with
  | refl => exact h
  | step _ ih => exact hmono _ a ih

/-- A loop comes to the same result with passes that do. -/
theorem foldlM_mono {f g : β → α → Option β} {l : List α}
    (hpass : ∀ b a b', f b a = some b' → g b a = some b') (h : l.foldlM f b = some b') :
    l.foldlM g b = some b' := by
  induction l generalizing b with
  | nil => exact h
  | cons a l ih =>
    obtain ⟨b₁, hf, h⟩ := foldlM_cons_eq_some.mp h
    exact foldlM_cons_eq_some.mpr ⟨b₁, hpass b a b₁ hf, ih h⟩

end Fuel

/-- The steps of `step` that meet a condition on the state before them and the
label. -/
def Guarded (step : σ → ι → σ → Prop) (ok : σ → ι → Prop) (s : σ) (i : ι) (t : σ) : Prop :=
  ok s i ∧ step s i t

end Transition
