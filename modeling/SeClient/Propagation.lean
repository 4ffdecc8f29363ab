import Mathlib.Logic.Relation
import SeClient.Calls
import SeClient.Refetch

/-!
# Completion propagates to an end

`dep_complete` and `dep_reset` recurse over the dependents of a Stub without a guard:
they return when no Stub depends on itself, directly or through others.  A link is the
only move that adds an edge to the dependency graph, so a run whose links close no cycle
keeps the graph well-founded, and in every state such a run passes through both functions
return.
-/

namespace SeClient
open Transition

/-! ## Adding an edge to a well-founded graph -/

section Graph
variable {α : Type*} {R R' : α → α → Prop} {a b : α}

/-- **An edge that closes no cycle.**  `R y x` reads "`y` is next after `x`"; the new edge
leads from `b` to `a`, and `b` cannot be reached from `a`. -/
theorem wellFounded_of_edge (h : WellFounded R) (hsub : ∀ y x, R' y x → R y x ∨ y = a ∧ x = b)
    (hno : ¬ Relation.ReflTransGen (fun x y => R y x) a b) : WellFounded R' := by
  -- what can be reached from the new successor is as accessible as before
  have hreach : ∀ x, Relation.ReflTransGen (fun x y => R y x) a x → Acc R' x := by
    intro x
    induction h.apply x with
    | intro x _ ih =>
      intro hx
      refine Acc.intro x fun y hy => ?_
      rcases hsub y x hy with hy | ⟨_, rfl⟩
      · exact ih y hy (hx.tail hy)
      · exact absurd hx hno
  refine ⟨fun x => ?_⟩
  induction h.apply x with
  | intro x _ ih =>
    refine Acc.intro x fun y hy => ?_
    rcases hsub y x hy with hy | ⟨rfl, _⟩
    · exact ih y hy
    · exact hreach y Relation.ReflTransGen.refl

theorem not_acc_of_loop (h : R a a) : ¬ Acc R a := by
  intro hacc
  induction hacc with
  | intro x _ ih => exact ih x h h

/-- A bound for each element of a list is a bound for all of them. -/
theorem exists_bound {P : ℕ → α → Prop} {l : List α}
    (h : ∀ d ∈ l, ∃ n, ∀ m, n ≤ m → P m d) : ∃ n, ∀ m, n ≤ m → ∀ d ∈ l, P m d := by
  induction l with
  | nil => exact ⟨0, fun _ _ _ hd => absurd hd List.not_mem_nil⟩
  | cons d l ih =>
    obtain ⟨n₁, h₁⟩ := h d List.mem_cons_self
    obtain ⟨n₂, h₂⟩ := ih fun x hx => h x (List.mem_cons_of_mem _ hx)
    refine ⟨max n₁ n₂, fun m hm x hx => ?_⟩
    rcases List.mem_cons.mp hx with rfl | hx
    · exact h₁ m ((le_max_left _ _).trans hm)
    · exact h₂ m ((le_max_right _ _).trans hm) x hx

end Graph

/-! ## Grounded webs -/

/-- The edge a move adds: from a resource to its new dependent. -/
def Move.edge : Move → Option (StubId × StubId)
  | .link r d => some (d, r)
  | .moveTo s t => some (t, s)
  | _ => none

namespace Web

/-- `d` is `r`, or depends on it, directly or through others. -/
def Reaches (w : Web) (r d : StubId) : Prop :=
  Relation.ReflTransGen (fun x y => y ∈ (w.ties x).deps) r d

/-- The move makes a Stub depend on a Stub that is itself, or depends on it. -/
def Closes (w : Web) (m : Move) : Prop := ∃ d r, m.edge = some (d, r) ∧ w.Reaches r d

/-- The dependents of every Stub are among those of a graph, and no requirement is listed
twice. -/
structure Within (w : Web) (G : StubId → List StubId) : Prop where
  deps : ∀ x, ∀ y ∈ (w.ties x).deps, y ∈ G x
  reqs : ∀ x, (w.ties x).reqs.Nodup
  list : ∀ x, (w.ties x).list.Nodup

/-- No Stub depends on itself, directly or through others. -/
structure Grounded (w : Web) : Prop where
  wf : WellFounded fun d s => d ∈ (w.ties s).deps
  within : w.Within fun x => (w.ties x).deps

variable {w w' : Web} {G : StubId → List StubId} {s d r x : StubId} {m : Move} {f : Ties → Ties}

theorem insertUnique_nodup {l : List StubId} (h : l.Nodup) : (Core.insertUnique l s).Nodup := by
  unfold Core.insertUnique
  split
  · exact h
  · rename_i hs
    exact List.nodup_cons.mpr ⟨hs, h⟩

theorem mem_insertUnique {l : List StubId} : x ∈ Core.insertUnique l s ↔ x = s ∨ x ∈ l := by
  unfold Core.insertUnique
  split
  · rename_i hs
    exact ⟨Or.inr, fun h => h.elim (fun h => h ▸ hs) id⟩
  · exact List.mem_cons

/-- A change of one Stub that adds no dependent. -/
theorem Within.set (h : w.Within G) (hdeps : ∀ y ∈ (f (w.ties x)).deps, y ∈ G x)
    (hreqs : (f (w.ties x)).reqs.Nodup) (hlist : (f (w.ties x)).list.Nodup) :
    (w.set x f).Within G := by
  have hset : ∀ {P : StubId → Ties → Prop}, P x (f (w.ties x)) → (∀ y, P y (w.ties y)) →
      ∀ y, P y ((w.set x f).ties y) := by
    intro P hx hy y
    by_cases he : y = x
    · subst he; rw [set_same]; exact hx
    · rw [set_of_ne _ he]; exact hy y
  exact ⟨hset (P := fun x t => ∀ y ∈ t.deps, y ∈ G x) hdeps h.deps,
    hset (P := fun _ t => t.reqs.Nodup) hreqs h.reqs,
    hset (P := fun _ t => t.list.Nodup) hlist h.list⟩

theorem Within.mono {G' : StubId → List StubId} (h : w.Within G) (hG : ∀ x, ∀ y ∈ G x, y ∈ G' x) :
    w.Within G' :=
  ⟨fun x y hy => hG x y (h.deps x y hy), h.reqs, h.list⟩

theorem Within.sever (h : w.Within G) (d : StubId) (rs : List StubId) :
    (w.sever d rs).Within G := by
  refine ⟨fun x y hy => ?_, fun x => ?_, fun x => ?_⟩
  · exact h.deps x y ((sever_deps w d rs).1.subset hy)
  · rw [(sever_frame w d rs).1]; exact h.reqs x
  · rw [(sever_frame w d rs).2.1]; exact h.list x

theorem Within.release (h : w.Within G) (s : StubId) : (w.release s).Within G := by
  have hsever := h.sever s ((w.ties s).reqs ++ (w.ties s).list)
  exact hsever.set (hsever.deps s) List.nodup_nil List.nodup_nil

theorem Within.strike (h : w.Within G) (s : StubId) : (w.strike s).Within G := by
  unfold Web.strike
  generalize (w.ties s).deps = ds
  induction ds generalizing w with
  | nil => exact h
  | cons d ds ih =>
    rw [List.foldl_cons]
    refine ih (h.set ?_ ?_ ?_)
    · split <;> exact h.deps d
    · split
      · exact h.reqs d
      · exact (h.reqs d).erase s
    · split
      · exact (h.list d).erase s
      · exact h.list d

/-- A move adds no edge but its own. -/
theorem Step.within (h : Step w m w') (hw : w.Within G)
    (hedge : ∀ d r, m.edge = some (d, r) → r ∈ G d) : w'.Within G := by
  cases h with
  | create =>
    have hset := hw.set (x := w.fresh) (f := fun _ => {}) (fun y hy => absurd hy List.not_mem_nil)
      List.nodup_nil List.nodup_nil
    exact ⟨hset.deps, hset.reqs, hset.list⟩
  | link r d =>
    refine hw.set (fun y hy => ?_) (hw.reqs d) (hw.list d)
    rcases mem_insertUnique.mp hy with rfl | hy
    · exact hedge d y rfl
    · exact hw.deps d y hy
  | meet _ hl =>
    exact hw.set (hw.deps _) (hl.nodup_iff.mpr (insertUnique_nodup (hw.reqs _))) (hw.list _)
  | unmeet _ => exact hw.set (hw.deps _) ((hw.reqs _).erase _) (hw.list _)
  | dropOld d =>
    have hsever := hw.sever d (Core.listSubtract (w.ties d).list (w.ties d).reqs)
    exact hsever.set (hsever.deps d) (hsever.reqs d) List.nodup_nil
  | release s => exact hw.release s
  | refresh _ => exact hw.set (hw.deps _) List.nodup_nil (hw.reqs _)
  | @send s _ _ _ _ =>
    have hset := hw.set (x := s) (f := fun t => { t with status := -1 }) (hw.deps _) (hw.reqs _)
      (hw.list _)
    exact ⟨hset.deps, hset.reqs, hset.list⟩
  | answer s _ => exact hw.set (hw.deps s) (hw.reqs s) (hw.list s)
  | moveTo s t =>
    unfold Web.moveTo
    dsimp only
    refine Within.release ?_ s
    have hsever : ∀ {w₁ : Web}, w₁.Within G →
        ((w₁.link s t).set s fun u => { u with moved := some t }).Within G := by
      intro w₁ h₁
      have hl : (w₁.link s t).Within G := by
        refine h₁.set (fun y hy => ?_) (h₁.reqs t) (h₁.list t)
        rcases mem_insertUnique.mp hy with rfl | hy
        · exact hedge t y rfl
        · exact h₁.deps t y hy
      exact hl.set (hl.deps s) (hl.reqs s) (hl.list s)
    refine hsever ?_
    split
    · split
      · exact hw.sever s _
      · exact hw
    · exact hw
  | remove s =>
    refine Within.strike ?_ s
    unfold Web.shed
    split
    · exact hw.sever s _
    · exact hw.release s
  | page _ _ => exact ⟨hw.deps, hw.reqs, hw.list⟩
  | ask _ => exact ⟨hw.deps, hw.reqs, hw.list⟩
  | receive _ => exact ⟨hw.deps, hw.reqs, hw.list⟩
  | hang _ => exact ⟨hw.deps, hw.reqs, hw.list⟩

/-- **A move that closes no cycle** keeps the web grounded. -/
theorem Step.grounded (h : Step w m w') (hno : ¬ w.Closes m) (hw : w.Grounded) : w'.Grounded := by
  -- the graph with the edge of the move
  have hwithin : w'.Within fun x => (m.edge.toList.filter fun e => e.1 = x).map Prod.snd ++
      (w.ties x).deps := by
    refine h.within (hw.within.mono fun x y hy => List.mem_append_right _ hy) fun d r he => ?_
    refine List.mem_append_left _ ?_
    rw [he]
    simp
  refine ⟨?_, ⟨fun _ _ hy => hy, hwithin.reqs, hwithin.list⟩⟩
  cases he : m.edge with
  | none =>
    refine Subrelation.wf (fun {y x} hy => ?_) hw.wf
    have := hwithin.deps x y hy
    rwa [he] at this
  | some e =>
    refine wellFounded_of_edge (a := e.2) (b := e.1) hw.wf (fun y x hy => ?_)
      fun hreach => hno ⟨e.1, e.2, he, hreach⟩
    have := hwithin.deps x y hy
    rw [he] at this
    rcases List.mem_append.mp this with hy | hy
    · obtain ⟨e', he', rfl⟩ := List.mem_map.mp hy
      obtain ⟨he', hx⟩ := List.mem_filter.mp he'
      obtain rfl := List.mem_singleton.mp he'
      exact Or.inr ⟨rfl, (of_decide_eq_true hx).symm⟩
    · exact Or.inl hy

/-- **Runs that close no cycle** keep the web grounded. -/
theorem Grounded.run {ms : List Move} (hw : w.Grounded)
    (h : Run (Guarded Step fun w m => ¬ w.Closes m) w ms w') : w'.Grounded :=
  h.preserves (J := Grounded) (G := fun _ => True) (fun _ _ => trivial)
    (fun _ _ _ _ hw hs => hs.2.grounded hs.1 hw) hw

/-- A web without ties. -/
theorem grounded_of_blank (h : ∀ s, w.ties s = {}) : w.Grounded := by
  refine ⟨⟨fun x => Acc.intro x fun y hy => ?_⟩, ⟨fun _ _ hy => hy, fun x => ?_, fun x => ?_⟩⟩
  · rw [h] at hy; exact absurd hy List.not_mem_nil
  · rw [h]; exact List.nodup_nil
  · rw [h]; exact List.nodup_nil

end Web

/-! ## Both functions return -/

/-- A computation with fuel returns, and goes on returning with more. -/
def Returns {α : Type} (f : Nat → Option α) : Prop := ∃ n, ∀ fuel, n ≤ fuel → (f fuel).isSome

namespace Core
variable {c c' : Core} {s d r : StubId} {cl : Client} {G : StubId → List StubId}

/-- **`dep_reset` returns** from a Stub that does not depend on itself through the graph. -/
theorem depReset_returns (h : Acc (fun d s => d ∈ G s) s) :
    ∃ n, ∀ fuel, n ≤ fuel → ∀ c : Core, (∀ x, (c.stub x).deps = G x) →
      (depReset fuel c s).isSome := by
  induction h with
  | intro s _ ih =>
    obtain ⟨n, hn⟩ := exists_bound (P := fun m d => ∀ c : Core, (∀ x, (c.stub x).deps = G x) →
      (depReset m c d).isSome) ih
    refine ⟨n + 1, fun fuel hfuel c hc => ?_⟩
    obtain ⟨fuel, rfl⟩ : ∃ k, fuel = k + 1 := ⟨fuel - 1, by omega⟩
    rw [depReset_succ, hc s]
    have hloop : ∀ (l : List StubId) (c : Core), (∀ d ∈ l, d ∈ G s) →
        (∀ x, (c.stub x).deps = G x) →
        (l.foldlM (fun c d => depReset fuel (c.unmeetReq s d) d) c).isSome := by
      intro l
      induction l with
      | nil => exact fun _ _ _ => rfl
      | cons d l ihl =>
        intro c hl hc
        have hc₁ : ∀ x, ((c.unmeetReq s d).stub x).deps = G x := fun x => by
          rw [deps_unmeetReq, hc]
        obtain ⟨c₂, hc₂⟩ := Option.isSome_iff_exists.mp
          (hn fuel (by omega) d (hl d List.mem_cons_self) _ hc₁)
        rw [List.foldlM_cons, hc₂]
        exact ihl c₂ (fun x hx => hl x (List.mem_cons_of_mem _ hx)) fun x => by
          rw [depReset_deps hc₂, hc₁]
    exact hloop (G s) _ (fun _ hd => hd) fun x => by
      rw [← hc x]
      exact congrFun (modifyStub_field c s _ (fun t => t.deps) rfl) x

/-- `dep_reset` returns only where no Stub depends on itself. -/
theorem acc_of_depReset {fuel : Nat} (h : (depReset fuel c s).isSome)
    (hc : ∀ x, (c.stub x).deps = G x) : Acc (fun d s => d ∈ G s) s := by
  induction fuel generalizing c s with
  | zero => cases h
  | succ fuel ih =>
    rw [depReset_succ, hc s] at h
    obtain ⟨c', h⟩ := Option.isSome_iff_exists.mp h
    have hloop : ∀ (l : List StubId) (c : Core), (∀ x, (c.stub x).deps = G x) →
        l.foldlM (fun c d => depReset fuel (c.unmeetReq s d) d) c = some c' →
        ∀ d ∈ l, Acc (fun d s => d ∈ G s) d := by
      intro l
      induction l with
      | nil => exact fun _ _ _ d hd => absurd hd List.not_mem_nil
      | cons d l ihl =>
        intro c hc h x hx
        obtain ⟨c₁, hd, h⟩ := foldlM_cons_eq_some.mp h
        have hc₁ : ∀ x, ((c.unmeetReq s d).stub x).deps = G x := fun x => by
          rw [deps_unmeetReq, hc]
        rcases List.mem_cons.mp hx with rfl | hx
        · exact ih (Option.isSome_iff_exists.mpr ⟨c₁, hd⟩) hc₁
        · exact ihl c₁ (fun y => by rw [depReset_deps hd, hc₁]) h x hx
    refine Acc.intro s (hloop (G s) _ (fun x => ?_) h)
    rw [← hc x]
    exact congrFun (modifyStub_field c s _ (fun t => t.deps) rfl) x

/-! ### Completion -/

/-- What a completion that starts below `s` may do to the graph: only dependents that
come after `s` are taken off. -/
structure Completes (G : StubId → List StubId) (s : StubId) (c c' : Core) : Prop where
  within : c'.web.Within G
  keeps : ∀ x r, x ∈ (c.stub r).deps →
    x ∈ (c'.stub r).deps ∨ Relation.TransGen (fun d s => d ∈ G s) x s

theorem Completes.trans {c'' : Core} (h : Completes G s c c') (h' : Completes G s c' c'') :
    Completes G s c c'' :=
  ⟨h'.within, fun x r hx => (h.keeps x r hx).elim (h'.keeps x r) Or.inr⟩

/-- A web with the same dependents. -/
theorem Completes.of_deps (hw : c'.web.Within G)
    (h : ∀ r, (c'.stub r).deps = (c.stub r).deps) : Completes G s c c' :=
  ⟨hw, fun x r hx => Or.inl (by rw [h]; exact hx)⟩

theorem Completes.below (h : Completes G d c c') (hd : d ∈ G s) : Completes G s c c' :=
  ⟨h.within, fun x r hx => (h.keeps x r hx).imp_right fun hx => hx.tail hd⟩

theorem listSubtract_sublist (la lb : List StubId) : (listSubtract la lb).Sublist la := by
  induction lb generalizing la with
  | nil => exact List.Sublist.refl la
  | cons b lb ih => exact (ih (la.erase b)).trans List.erase_sublist

theorem not_mem_listSubtract {la lb : List StubId} (h : la.Nodup) (hs : s ∈ lb) :
    s ∉ listSubtract la lb := by
  induction lb generalizing la with
  | nil => exact absurd hs List.not_mem_nil
  | cons b lb ih =>
    rcases List.mem_cons.mp hs with rfl | hs
    · exact fun hmem => h.not_mem_erase ((listSubtract_sublist _ lb).subset hmem)
    · exact ih (h.erase b) hs

/-- `s` joins the requirements of `d`. -/
theorem meetReq_spec (cl : Client) (s d : StubId) (hw : c.web.Within G) :
    (c.meetReq cl s d).1.web.Within G ∧
      (∀ x, ((c.meetReq cl s d).1.stub x).deps = (c.stub x).deps) ∧
      s ∈ ((c.meetReq cl s d).1.stub d).reqs := by
  obtain ⟨l, hl, hweb⟩ := @web_meetReq c s d cl
  have hmem : s ∈ l := hl.mem_iff.mpr (Web.mem_insertUnique.mpr (Or.inl rfl))
  have hwithin : (c.web.set d fun t => { t with reqs := l }).Within G :=
    hw.set (hw.deps d) (hl.nodup_iff.mpr (Web.insertUnique_nodup (hw.reqs d))) (hw.list d)
  refine ⟨hweb ▸ hwithin, fun x => ?_, ?_⟩
  · change ((c.meetReq cl s d).1.web.ties x).deps = _
    rw [hweb]
    by_cases hx : x = d
    · subst hx; rw [Web.set_same]; rfl
    · rw [Web.set_of_ne _ hx]; rfl
  · change s ∈ ((c.meetReq cl s d).1.web.ties d).reqs
    rw [hweb, Web.set_same]
    exact hmem

/-- The old requirements that are dropped lose `d`, but not the one that was met. -/
theorem dropOldReqs_completes (hw : c.web.Within G) (hd : d ∈ G s)
    (hmet : s ∈ (c.stub d).reqs) :
    Completes G s c (c.dropOldReqs d) ∧
      (d ∈ (c.stub s).deps → d ∈ ((c.dropOldReqs d).stub s).deps) := by
  rcases @web_dropOldReqs c d with ⟨hweb, _⟩ | hweb
  · have hdeps : ∀ x, ((c.dropOldReqs d).stub x).deps = (c.stub x).deps := fun x =>
      congrArg (fun w : Web => (w.ties x).deps) hweb
    exact ⟨Completes.of_deps (hweb ▸ hw) hdeps, fun h => by rw [hdeps]; exact h⟩
  · have hwithin : (c.dropOldReqs d).web.Within G := by
      rw [hweb]
      have hsever := hw.sever d (listSubtract (c.web.ties d).list (c.web.ties d).reqs)
      exact hsever.set (hsever.deps d) (hsever.reqs d) List.nodup_nil
    have hkeep : ∀ x r, x ∈ (c.stub r).deps →
        x ≠ d ∨ r ∉ listSubtract (c.web.ties d).list (c.web.ties d).reqs →
        x ∈ ((c.dropOldReqs d).stub r).deps := by
      intro x r hx hor
      change x ∈ ((c.dropOldReqs d).web.ties r).deps
      have hsever := (Web.sever_deps (x := r) c.web d
        (listSubtract (c.web.ties d).list (c.web.ties d).reqs)).2 x hx hor
      rw [hweb, Web.dropOld]
      by_cases hr : r = d
      · subst hr; rw [Web.set_same]; exact hsever
      · rw [Web.set_of_ne _ hr]; exact hsever
    refine ⟨⟨hwithin, fun x r hx => ?_⟩, fun h => ?_⟩
    · by_cases hxd : x = d
      · subst hxd
        exact Or.inr (Relation.TransGen.single hd)
      · exact Or.inl (hkeep x r hx (Or.inl hxd))
    · exact hkeep d s h (Or.inr (not_mem_listSubtract (hw.list d) hmet))

/-- The loop of `dep_complete` returns when the completions of the dependents do. -/
theorem depCompleteLoop_returns {next : Core → StubId → Option Core}
    (hirr : ∀ d, ¬ Relation.TransGen (fun d s => d ∈ G s) d d)
    (ds : List StubId) (hds : ∀ d ∈ ds, d ∈ G s)
    (hnext : ∀ d ∈ ds, ∀ c : Core, c.web.Within G →
      ∃ c', next c d = some c' ∧ Completes G d c c')
    (hw : c.web.Within G) :
    ∃ c', depCompleteLoop cl next s c ds = some c' ∧ Completes G s c c' := by
  induction ds generalizing c with
  | nil => exact ⟨c, rfl, hw, fun _ _ hx => Or.inl hx⟩
  | cons d ds ih =>
    have ih := fun {c} => @ih c (fun x hx => hds x (List.mem_cons_of_mem _ hx))
      (fun x hx => hnext x (List.mem_cons_of_mem _ hx))
    have hd := hds d List.mem_cons_self
    rw [depCompleteLoop]
    by_cases hdeps : d ∉ (c.stub s).deps
    · rw [if_pos hdeps]
      exact ih hw
    · rw [if_neg hdeps]
      obtain ⟨hw₁, hdeps₁, hmet⟩ := meetReq_spec cl s d hw
      generalize hpass : c.meetReq cl s d = pass at hw₁ hdeps₁ hmet
      obtain ⟨c₁, complete⟩ := pass
      have hmeet : Completes G s c c₁ := Completes.of_deps hw₁ hdeps₁
      have hin₁ : d ∈ (c₁.stub s).deps := by rw [hdeps₁]; exact not_not.mp hdeps
      -- the pass ends with `d` still among the dependents: its own completion keeps it
      obtain ⟨c₂, hc₂, hcompletes, hin₂⟩ : ∃ c₂, (if complete then next (c₁.dropOldReqs d) d
          else some c₁) = some c₂ ∧ Completes G s c₁ c₂ ∧ d ∈ (c₂.stub s).deps := by
        cases complete with
        | false => exact ⟨c₁, rfl, Completes.of_deps hw₁ fun _ => rfl, hin₁⟩
        | true =>
          obtain ⟨hdrop, hkeep⟩ := dropOldReqs_completes hw₁ hd hmet
          obtain ⟨c₂, hc₂, hnext⟩ := hnext d List.mem_cons_self _ hdrop.within
          refine ⟨c₂, hc₂, hdrop.trans (hnext.below hd), ?_⟩
          exact (hnext.keeps d s (hkeep hin₁)).resolve_right (hirr d)
      obtain ⟨c₃, hc₃, hrest⟩ := ih hcompletes.within
      refine ⟨c₃, ?_, hmeet.trans (hcompletes.trans hrest)⟩
      dsimp only
      rw [hc₂]
      dsimp only
      rw [if_neg (not_not.mpr hin₂)]
      exact hc₃

/-- **`dep_complete` returns** where no Stub depends on itself. -/
theorem depComplete_returns (hwf : WellFounded fun d s => d ∈ G s) (s : StubId) :
    ∃ n, ∀ fuel, n ≤ fuel → ∀ c : Core, c.web.Within G →
      ∃ c', depComplete cl fuel c s = some c' ∧ Completes G s c c' := by
  have hirr : ∀ d, ¬ Relation.TransGen (fun d s => d ∈ G s) d d := fun d h =>
    hwf.transGen.asymmetric d d h h
  induction hwf.apply s with
  | intro s _ ih =>
    obtain ⟨n, hn⟩ := exists_bound (P := fun m d => ∀ c : Core, c.web.Within G →
      ∃ c', depComplete cl m c d = some c' ∧ Completes G d c c') ih
    refine ⟨n + 1, fun fuel hfuel c hw => ?_⟩
    obtain ⟨fuel, rfl⟩ : ∃ k, fuel = k + 1 := ⟨fuel - 1, by omega⟩
    rw [depComplete]
    generalize hc₁ : ((c.callCompletion s).modifyStub s fun t => { t with complete := true }) = c₁
    have hweb : c₁.web = c.web := by
      subst hc₁
      rw [web_modifyStub_of_ties rfl, callCompletion_web]
    have hw₁ : c₁.web.Within G := hweb ▸ hw
    obtain ⟨c', hc', hcompletes⟩ := depCompleteLoop_returns hirr (c₁.stub s).deps
      (hw₁.deps s) (fun d hd => hn fuel (by omega) d (hw₁.deps s d hd)) hw₁
    refine ⟨c', hc', hcompletes.within, fun x r hx => hcompletes.keeps x r ?_⟩
    change x ∈ (c₁.web.ties r).deps
    rw [hweb]
    exact hx

/-- `dep_reset` returns exactly where no Stub depends on itself. -/
theorem depReset_returns_iff :
    Returns (fun fuel => c.depReset fuel s) ↔ Acc (fun d s => d ∈ (c.stub s).deps) s := by
  refine ⟨fun ⟨n, hn⟩ => acc_of_depReset (hn n le_rfl) fun _ => rfl, fun h => ?_⟩
  obtain ⟨n, hn⟩ := depReset_returns h
  exact ⟨n, fun fuel hfuel => hn fuel hfuel c fun _ => rfl⟩

/-- A call that returns, and the moves it makes, none of which closes a cycle. -/
def Unlooped (cl : Client) (c : Core) (i : Retrieval × List Move) (c' : Core) : Prop :=
  (∃ fuel, c.perform cl fuel i.1 = some c') ∧
    Run (Guarded Web.Step fun w m => ¬ w.Closes m) c.web i.2 c'.web

/-- **Completion terminates.**  After a run of calls whose links close no cycle, in every
state the next call passes through while its links close none, `dep_reset` and
`dep_complete` return from every Stub. -/
theorem completion_terminates {c₀ : Core} {is : List (Retrieval × List Move)} {ms : List Move}
    (h₀ : ∀ s, c₀.web.ties s = {}) (h : Run (Unlooped cl) c₀ is c)
    (hmid : Run (Guarded Web.Step fun w m => ¬ w.Closes m) c.web ms c'.web) (s : StubId) :
    Returns (fun fuel => c'.depReset fuel s) ∧ Returns (fun fuel => depComplete cl fuel c' s) := by
  have hc : c.web.Grounded := h.preserves (J := fun c => c.web.Grounded) (G := fun _ => True)
    (fun _ _ => trivial) (fun _ _ _ _ hw hs => hw.run hs.2) (Web.grounded_of_blank h₀)
  have hc' : c'.web.Grounded := hc.run hmid
  refine ⟨depReset_returns_iff.mpr (hc'.wf.apply s), ?_⟩
  obtain ⟨n, hn⟩ := @depComplete_returns cl _ hc'.wf s
  refine ⟨n, fun fuel hfuel => ?_⟩
  obtain ⟨c'', hc'', _⟩ := hn fuel hfuel c' hc'.within
  exact Option.isSome_iff_exists.mpr ⟨c'', hc''⟩

/-! ## A run that links a list with its items -/

theorem not_closes_of_edge {w : Web} {m : Move} (h : m.edge = none) : ¬ w.Closes m := by
  rintro ⟨d, r, he, -⟩
  cases h.symm.trans he

/-- A Stub that nothing depends on may come to depend on another one. -/
theorem not_closes_link {w : Web} {r d : StubId} (hne : r ≠ d) (hdeps : (w.ties r).deps = []) :
    ¬ w.Closes (.link r d) := by
  rintro ⟨d', r', he, hreach⟩
  obtain ⟨rfl, rfl⟩ := Prod.mk.inj (Option.some.inj he)
  rcases hreach.cases_head with heq | ⟨y, hy, -⟩
  · exact hne heq
  · rw [hdeps] at hy
    cases hy

/-- An EndDeviceList with two items. -/
def edevItems : Reply where
  status := 200
  body := some ⟨115, { path := some "/edev", all := 2, results := 2 },
    [{ path := some "/edev/1" }, { path := some "/edev/2" }]⟩

/-- The list is requested: it is Stub 0. -/
def listRequested : Core :=
  ((blank 1000000).perform Client.paths 4 (.getResource 0 115 "/edev" 1)).get (by decide +kernel)

/-- The GET of `listRequested`. -/
def listRequest : HttpRequest := ⟨0, .get, "/edev", some (0, 1), some 0⟩

/-- The list has come, with its items: they are Stubs 1 and 2. -/
def listLinked : Core :=
  (listRequested.perform Client.paths 4 (.processHttp 0 edevItems)).get (by decide +kernel)

theorem web_ext {w w' : Web} (hties : ∀ d, w.ties d = w'.ties d)
    (hrequests : w.requests = w'.requests) (hfresh : w.fresh = w'.fresh) : w = w' := by
  obtain ⟨ties, requests, fresh⟩ := w
  obtain rfl : ties = w'.ties := funext hties
  subst hrequests hfresh
  rfl

theorem listRequested_unlooped : Unlooped Client.paths (blank 1000000)
    (.getResource 0 115 "/edev" 1, [.create, .send 0]) listRequested := by
  refine ⟨⟨4, (Option.some_get _).symm⟩, ?_⟩
  have hweb : listRequested.web = (((blank 1000000).web.create).set 0 fun t =>
      { t with status := -1 }).ask listRequest := by
    refine web_ext ?_ (by decide +kernel) (by decide +kernel)
    rintro (_ | d)
    · decide +kernel
    · rfl
  rw [hweb]
  exact Run.cons ⟨not_closes_of_edge rfl, Web.Step.create⟩
    (Run.single ⟨not_closes_of_edge rfl, Web.Step.send (by decide +kernel) rfl rfl⟩)

theorem listLinked_unlooped : Unlooped Client.paths listRequested
    (.processHttp 0 edevItems, [.receive listRequest, .answer 0, .create, .link 0 1, .meet 1 0,
      .create, .link 0 2, .meet 2 0]) listLinked := by
  refine ⟨⟨4, (Option.some_get _).symm⟩, ?_⟩
  have hweb : listLinked.web = (((((({ listRequested.web with
      requests := listRequested.web.requests.erase listRequest }.set 0 fun t =>
        { t with status := 200 }).create.link 0 1).set 0 fun t =>
        { t with reqs := [1] }).create).link 0 2).set 0 fun t => { t with reqs := [1, 2] }) := by
    refine web_ext ?_ (by decide +kernel) (by decide +kernel)
    rintro (_ | _ | _ | d)
    · decide +kernel
    · decide +kernel
    · decide +kernel
    · rfl
  rw [hweb]
  refine Run.cons ⟨not_closes_of_edge rfl, Web.Step.receive _⟩
    (Run.cons ⟨not_closes_of_edge rfl, Web.Step.answer 0 200⟩
    (Run.cons ⟨not_closes_of_edge rfl, Web.Step.create⟩
    (Run.cons ⟨not_closes_link (by decide) (by decide +kernel), Web.Step.link 0 1⟩
    (Run.cons ⟨not_closes_of_edge rfl, Web.Step.meet (by decide +kernel) (by decide +kernel)⟩
    (Run.cons ⟨not_closes_of_edge rfl, Web.Step.create⟩
    (Run.cons ⟨not_closes_link (by decide) (by decide +kernel), Web.Step.link 0 2⟩
    (Run.single ⟨not_closes_of_edge rfl,
      Web.Step.meet (by decide +kernel) (by decide +kernel)⟩)))))))

/-- The items of the list depend on it. -/
theorem completion_terminates_items :
    Returns (fun fuel => listLinked.depReset fuel 1) ∧
      Returns (fun fuel => depComplete Client.paths fuel listLinked 1) :=
  completion_terminates (fun _ => rfl)
    (Run.cons listRequested_unlooped (Run.single listLinked_unlooped)) Run.nil 1

/-- A client whose resources all have a link to "/dcap". -/
def dcapClient : Client := { Client.paths with dep := fun _ s => [.link s 100 "/dcap" 0 1] }

/-- A DeviceCapability with a link to itself: `dep_reset` does not return. -/
theorem not_completion_terminates :
    ∃ c, [Retrieval.getResource 0 100 "/dcap" 0, .processHttp 0 dcapReply].foldlM
        (perform dcapClient 2) (blank 1000000) = some c ∧
      ¬ Returns (fun fuel => c.depReset fuel 0) := by
  have hres : ([Retrieval.getResource 0 100 "/dcap" 0, .processHttp 0 dcapReply].foldlM
      (perform dcapClient 2) (blank 1000000)).map (fun c => (c.stub 0).deps) = some [0] := by decide
  obtain ⟨c, hc, hdeps⟩ := Option.map_eq_some_iff.mp hres
  refine ⟨c, hc, fun h => not_acc_of_loop ?_ (depReset_returns_iff.mp h)⟩
  rw [hdeps]
  exact List.mem_singleton_self 0

end Core
end SeClient
