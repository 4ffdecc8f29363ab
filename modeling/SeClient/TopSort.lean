import Mathlib.Data.Finite.Defs
import Mathlib.Data.Fintype.EquivFin
import Mathlib.Data.List.Nodup
import Mathlib.Order.RelClasses
import Mathlib.Logic.Relation
import Mathlib.Tactic.Common

/-!
# Topological sorting

`top_sort` of `schema_gen.c` takes a node that no edge leads to, removes the edges that leave it,
and takes up each node to which the last edge has been removed.  Nodes are pointers, and only
compared.
-/

namespace SeClient

/-- `Graph`: an edge leads from `a` to `b` where `a` depends on `b`. -/
structure Graph (α : Type) where
  start : List α := []
  edges : List (α × α) := []

section
variable {α : Type} [DecidableEq α]

/-- The inner loop of `top_sort`: the edges in front of `e`, those from `e` on, and the nodes that
have become free. -/
def scanEdges (n : α) : List (α × α) → List (α × α) → List α → List (α × α) × List α
  | kept, [], s => (kept, s)
  | kept, (a, b) :: rest, s =>
    if a = n then
      let inUse := (kept ++ rest).any fun f => f.2 = b
      scanEdges n kept rest (if inUse then s else b :: s)
    else scanEdges n (kept ++ [(a, b)]) rest s

/-- The outer loop of `top_sort`; `none` when it has not left it after `fuel` passes. -/
def topLoop : ℕ → List α → List α → List (α × α) → Option (List α)
  | _, [], l, _ => some l
  | 0, _ :: _, _, _ => none
  | fuel + 1, n :: s, l, edges =>
    let r := scanEdges n [] edges s
    topLoop fuel r.2 (n :: l) r.1

/-- `top_sort` -/
def topSort (fuel : ℕ) (g : Graph α) : Option (List α) := topLoop fuel g.start [] g.edges

/-- The last loop of `build_graph`: the nodes that an edge leads to are no start nodes. -/
def Graph.deleteBases (g : Graph α) : Graph α :=
  { g with start := g.edges.foldl (fun s e => s.erase e.2) g.start }

/-- `a` stands in front of `b`. -/
def Precedes (l : List α) (a b : α) : Prop := l.idxOf a < l.idxOf b

/-! ## The start nodes -/

theorem foldl_erase_nodup {edges : List (α × α)} {s : List α} (hs : s.Nodup) :
    (edges.foldl (fun s e => s.erase e.2) s).Nodup := by
  induction edges generalizing s with
  | nil => exact hs
  | cons e edges ih => exact ih (hs.erase e.2)

theorem mem_foldl_erase {edges : List (α × α)} {s : List α} {m : α} (hs : s.Nodup) :
    m ∈ edges.foldl (fun s e => s.erase e.2) s ↔ m ∈ s ∧ ∀ e ∈ edges, e.2 ≠ m := by
  induction edges generalizing s with
  | nil => simp
  | cons e edges ih =>
    rw [List.foldl_cons, ih (hs.erase e.2), hs.mem_erase_iff, List.forall_mem_cons, ne_comm]
    constructor
    · rintro ⟨⟨hne, hm⟩, hall⟩
      exact ⟨hm, hne, hall⟩
    · rintro ⟨hm, hne, hall⟩
      exact ⟨⟨hne, hm⟩, hall⟩

/-! ## The inner loop -/

variable {n : α} {kept rest : List (α × α)} {s : List α}

theorem scanEdges_edges :
    (scanEdges n kept rest s).1 = kept ++ rest.filter fun e => e.1 ≠ n := by
  induction rest generalizing kept s with
  | nil => exact (List.append_nil kept).symm
  | cons e rest ih =>
    obtain ⟨a, b⟩ := e
    unfold scanEdges
    by_cases ha : a = n
    · rw [if_pos ha, ih, List.filter_cons_of_neg (by simpa using ha)]
    · rw [if_neg ha, ih, List.filter_cons_of_pos (by simpa using ha), List.append_assoc]
      rfl

/-- The nodes taken up are those that the last edge to them leaves from `n`. -/
theorem mem_scanEdges {m : α} : m ∈ (scanEdges n kept rest s).2 ↔
    m ∈ s ∨ (n, m) ∈ rest ∧ ∀ e ∈ kept ++ rest.filter fun e => e.1 ≠ n, e.2 ≠ m := by
  induction rest generalizing kept s with
  | nil =>
    constructor
    · exact Or.inl
    · rintro (h | ⟨h, -⟩)
      · exact h
      · exact absurd h List.not_mem_nil
  | cons e rest ih =>
    obtain ⟨a, b⟩ := e
    unfold scanEdges
    by_cases ha : a = n
    · subst ha
      rw [if_pos rfl, ih, List.filter_cons_of_neg (by simp)]
      by_cases huse : (kept ++ rest).any fun f => f.2 = b
      · rw [if_pos huse]
        obtain ⟨f, hf, hfb⟩ := List.any_eq_true.mp huse
        have hfb : f.2 = b := of_decide_eq_true hfb
        constructor
        · rintro (h | ⟨h, hall⟩)
          · exact Or.inl h
          · exact Or.inr ⟨List.mem_cons_of_mem _ h, hall⟩
        · rintro (h | ⟨h, hall⟩)
          · exact Or.inl h
          · rcases List.mem_cons.mp h with h | h
            · obtain ⟨-, rfl⟩ := Prod.mk.inj h
              -- the edge that is in the way is behind this one, and leaves `n` as well
              refine Or.inr ⟨?_, hall⟩
              rcases List.mem_append.mp hf with hf | hf
              · exact absurd hfb (hall f (List.mem_append_left _ hf))
              · by_cases hfa : f.1 = a
                · rwa [← hfa, ← hfb]
                · refine absurd hfb (hall f (List.mem_append_right _ ?_))
                  exact List.mem_filter.mpr ⟨hf, by simpa using hfa⟩
            · exact Or.inr ⟨h, hall⟩
      · rw [if_neg huse]
        have hnone : ∀ f ∈ kept ++ rest, f.2 ≠ b := by
          intro f hf hfb
          exact huse (List.any_eq_true.mpr ⟨f, hf, decide_eq_true hfb⟩)
        constructor
        · rintro (h | ⟨h, hall⟩)
          · rcases List.mem_cons.mp h with rfl | h
            · refine Or.inr ⟨List.mem_cons_self, fun f hf => hnone f ?_⟩
              rcases List.mem_append.mp hf with hf | hf
              · exact List.mem_append_left _ hf
              · exact List.mem_append_right _ (List.mem_filter.mp hf).1
            · exact Or.inl h
          · exact Or.inr ⟨List.mem_cons_of_mem _ h, hall⟩
        · rintro (h | ⟨h, hall⟩)
          · exact Or.inl (List.mem_cons_of_mem _ h)
          · rcases List.mem_cons.mp h with h | h
            · obtain ⟨-, rfl⟩ := Prod.mk.inj h
              exact Or.inl List.mem_cons_self
            · exact Or.inr ⟨h, hall⟩
    · rw [if_neg ha, ih, List.filter_cons_of_pos (by simpa using ha), List.append_assoc]
      refine or_congr Iff.rfl (and_congr ?_ Iff.rfl)
      rw [List.mem_cons, or_iff_right]
      intro h
      exact ha (Prod.mk.inj h).1.symm

/-- No node is taken up twice. -/
theorem nodup_scanEdges (hs : s.Nodup) (hnew : ∀ m, (n, m) ∈ rest → m ∉ s) :
    (scanEdges n kept rest s).2.Nodup := by
  induction rest generalizing kept s with
  | nil => exact hs
  | cons e rest ih =>
    obtain ⟨a, b⟩ := e
    unfold scanEdges
    by_cases ha : a = n
    · subst ha
      rw [if_pos rfl]
      have hb : b ∉ s := hnew b List.mem_cons_self
      have hrest : ∀ m, (a, m) ∈ rest → m ∉ s := fun m hm => hnew m (List.mem_cons_of_mem _ hm)
      dsimp only
      by_cases huse : (kept ++ rest).any fun f => f.2 = b
      · rw [if_pos huse]
        exact ih hs hrest
      · rw [if_neg huse]
        refine ih (List.nodup_cons.mpr ⟨hb, hs⟩) fun m hm => ?_
        intro hmem
        rcases List.mem_cons.mp hmem with rfl | hmem
        · refine huse (List.any_eq_true.mpr ⟨(a, m), List.mem_append_right _ hm, ?_⟩)
          exact decide_eq_true rfl
        · exact hrest m hm hmem
    · rw [if_neg ha]
      exact ih hs fun m hm => hnew m (List.mem_cons_of_mem _ hm)

/-! ## The outer loop -/

/-- A graph as it should be: the nodes, and the start nodes among them, are listed once; the start
nodes are those that no edge leads to; and no way along the edges leads back. -/
structure Graph.Proper (g : Graph α) (nodes : List α) : Prop where
  nodup : nodes.Nodup
  inside : ∀ e ∈ g.edges, e.1 ∈ nodes ∧ e.2 ∈ nodes
  start_nodup : g.start.Nodup
  start : ∀ m, m ∈ g.start ↔ m ∈ nodes ∧ ∀ e ∈ g.edges, e.2 ≠ m
  acyclic : ∀ m, ¬Relation.TransGen (fun a b => (a, b) ∈ g.edges) m m

/-- Where the loop is: the nodes `l` are sorted and the edges from them removed, and `s` are the
others that no edge leads to any more. -/
structure Sorting (g : Graph α) (nodes s l : List α) (edges : List (α × α)) : Prop where
  edges_eq : edges = g.edges.filter fun e => e.1 ∉ l
  nodup : (s ++ l).Nodup
  free : ∀ m, m ∈ s ∨ m ∈ l ↔ m ∈ nodes ∧ ∀ e ∈ edges, e.2 ≠ m
  sorted : ∀ e ∈ g.edges, e.2 ∈ l → e.1 ∈ l ∧ l.idxOf e.2 < l.idxOf e.1

variable {g : Graph α} {nodes l : List α} {edges : List (α × α)}

theorem Graph.Proper.sorting (hg : g.Proper nodes) : Sorting g nodes g.start [] g.edges where
  edges_eq := by
    rw [List.filter_eq_self.mpr]
    intro e _
    exact decide_eq_true List.not_mem_nil
  nodup := by
    rw [List.append_nil]
    exact hg.start_nodup
  free m := by
    rw [or_iff_left List.not_mem_nil]
    exact hg.start m
  sorted e _ he := absurd he List.not_mem_nil

/-- **A pass** of the loop. -/
theorem Sorting.pass (hg : g.Proper nodes) (h : Sorting g nodes (n :: s) l edges) :
    Sorting g nodes (scanEdges n [] edges s).2 (n :: l) (scanEdges n [] edges s).1 := by
  have hedges : (scanEdges n [] edges s).1 = edges.filter fun e => e.1 ≠ n := scanEdges_edges
  have hn : n ∉ s ∧ n ∉ l := by
    have hnot : n ∉ s ++ l := (List.nodup_cons.mp h.nodup).1
    rw [List.mem_append, not_or] at hnot
    exact hnot
  have htail : (s ++ l).Nodup := (List.nodup_cons.mp h.nodup).2
  obtain ⟨hs, hl, hdisjoint⟩ := List.nodup_append.mp htail
  have hfree := (h.free n).mp (Or.inl List.mem_cons_self)
  -- an edge that is left leads to no node that is taken up or sorted
  have hnew : ∀ m, (n, m) ∈ edges → m ∉ n :: s ∧ m ∉ l := by
    intro m hm
    constructor
    · intro hmem
      exact ((h.free m).mp (Or.inl hmem)).2 _ hm rfl
    · intro hmem
      exact ((h.free m).mp (Or.inr hmem)).2 _ hm rfl
  have hmem : ∀ m, m ∈ (scanEdges n [] edges s).2 ↔ m ∈ s ∨ (n, m) ∈ edges ∧
      ∀ e ∈ edges.filter fun e => e.1 ≠ n, e.2 ≠ m := fun m => mem_scanEdges
  constructor
  · rw [hedges, h.edges_eq, List.filter_filter]
    refine List.filter_congr fun e _ => ?_
    rw [← Bool.decide_and, decide_eq_decide, List.mem_cons, not_or]
  · refine List.nodup_append.mpr ⟨?_, List.nodup_cons.mpr ⟨hn.2, hl⟩, ?_⟩
    · exact nodup_scanEdges hs fun m hm hmem => (hnew m hm).1 (List.mem_cons_of_mem _ hmem)
    · intro a ha b hb hab
      subst hab
      rcases (hmem a).mp ha with ha | ⟨ha, -⟩
      · rcases List.mem_cons.mp hb with heq | hb
        · exact hn.1 (heq ▸ ha)
        · exact hdisjoint a ha a hb rfl
      · rcases List.mem_cons.mp hb with heq | hb
        · exact (hnew a ha).1 (heq ▸ List.mem_cons_self)
        · exact (hnew a ha).2 hb
  · intro m
    rw [hmem, hedges]
    constructor
    · rintro ((hm | ⟨hm, hall⟩) | hm)
      · obtain ⟨hnode, hall⟩ := (h.free m).mp (Or.inl (List.mem_cons_of_mem _ hm))
        exact ⟨hnode, fun e he => hall e (List.mem_filter.mp he).1⟩
      · rw [h.edges_eq] at hm
        exact ⟨(hg.inside _ (List.mem_filter.mp hm).1).2, hall⟩
      · have hold : m ∈ n :: s ∨ m ∈ l := by
          rcases List.mem_cons.mp hm with rfl | hm
          · exact Or.inl List.mem_cons_self
          · exact Or.inr hm
        obtain ⟨hnode, hall⟩ := (h.free m).mp hold
        exact ⟨hnode, fun e he => hall e (List.mem_filter.mp he).1⟩
    · rintro ⟨hnode, hall⟩
      by_cases hedge : (n, m) ∈ edges
      · exact Or.inl (Or.inr ⟨hedge, hall⟩)
      · have hnone : ∀ e ∈ edges, e.2 ≠ m := by
          intro e he hem
          by_cases hen : e.1 = n
          · refine hedge ?_
            rwa [← hen, ← hem]
          · exact hall e (List.mem_filter.mpr ⟨he, by simpa using hen⟩) hem
        rcases (h.free m).mpr ⟨hnode, hnone⟩ with hm | hm
        · rcases List.mem_cons.mp hm with rfl | hm
          · exact Or.inr List.mem_cons_self
          · exact Or.inl (Or.inl hm)
        · exact Or.inr (List.mem_cons_of_mem _ hm)
  · intro e he hmem
    rcases List.mem_cons.mp hmem with heq | hmem
    · -- all edges to `n` are gone, so they left sorted nodes
      have hsource : e.1 ∈ l := by
        by_contra hnot
        have hleft : e ∈ edges := by
          rw [h.edges_eq]
          exact List.mem_filter.mpr ⟨he, decide_eq_true hnot⟩
        exact hfree.2 e hleft heq
      refine ⟨List.mem_cons_of_mem _ hsource, ?_⟩
      have hne : e.1 ≠ n := fun hen => hn.2 (hen ▸ hsource)
      rw [heq, List.idxOf_cons_self, List.idxOf_cons_ne _ (Ne.symm hne)]
      exact Nat.succ_pos _
    · obtain ⟨hsource, hlt⟩ := h.sorted e he hmem
      refine ⟨List.mem_cons_of_mem _ hsource, ?_⟩
      have hne₁ : e.1 ≠ n := fun hen => hn.2 (hen ▸ hsource)
      have hne₂ : e.2 ≠ n := fun hen => hn.2 (hen ▸ hmem)
      rw [List.idxOf_cons_ne _ (Ne.symm hne₁), List.idxOf_cons_ne _ (Ne.symm hne₂)]
      exact Nat.succ_lt_succ hlt

/-- Where no node is left to take up, all are sorted. -/
theorem Sorting.all (hg : g.Proper nodes) (h : Sorting g nodes [] l edges) :
    ∀ m ∈ nodes, m ∈ l := by
  -- from a node that is not sorted, an edge leads back to another one, and so on without an end
  have hback : ∀ m ∈ nodes, m ∉ l → ∃ a ∈ nodes, a ∉ l ∧ (a, m) ∈ g.edges := by
    intro m hm hnot
    by_contra hnone
    refine hnot (((h.free m).mpr ⟨hm, fun e he hem => hnone ?_⟩).resolve_left List.not_mem_nil)
    rw [h.edges_eq] at he
    obtain ⟨he, hel⟩ := List.mem_filter.mp he
    refine ⟨e.1, (hg.inside e he).1, of_decide_eq_true hel, ?_⟩
    rwa [← hem]
  let R : { m // m ∈ nodes } → { m // m ∈ nodes } → Prop :=
    fun a b => Relation.TransGen (fun a b => (a, b) ∈ g.edges) a.1 b.1
  have hwf : WellFounded R := by
    have : IsTrans { m // m ∈ nodes } R := ⟨fun _ _ _ => Relation.TransGen.trans⟩
    have : Std.Irrefl R := ⟨fun a => hg.acyclic a.1⟩
    exact Finite.wellFounded_of_trans_of_irrefl R
  intro m hm
  induction hx : (⟨m, hm⟩ : { m // m ∈ nodes }) using hwf.induction generalizing m with
  | h x ih =>
    subst hx
    by_contra hnot
    obtain ⟨a, ha, hal, hedge⟩ := hback m hm hnot
    exact hal (ih ⟨a, ha⟩ (Relation.TransGen.single hedge) a ha rfl)

theorem Sorting.length (h : Sorting g nodes s l edges) : s.length + l.length ≤ nodes.length := by
  rw [← List.length_append]
  refine (List.subperm_of_subset h.nodup fun m hm => ?_).length_le
  exact ((h.free m).mp (List.mem_append.mp hm)).1

theorem Sorting.loop (hg : g.Proper nodes) {fuel : ℕ} (h : Sorting g nodes s l edges)
    (hfuel : nodes.length ≤ fuel + l.length) :
    ∃ l', topLoop fuel s l edges = some l' ∧ ∃ edges', Sorting g nodes [] l' edges' := by
  induction fuel generalizing s l edges with
  | zero =>
    have hlength := h.length
    cases s with
    | nil => exact ⟨l, rfl, edges, h⟩
    | cons n s =>
      rw [List.length_cons] at hlength
      omega
  | succ fuel ih =>
    cases s with
    | nil => exact ⟨l, rfl, edges, h⟩
    | cons n s =>
      refine ih (h.pass hg) ?_
      rw [List.length_cons]
      omega

/-- **The sorted list** has all nodes once, each behind those that it depends on. -/
theorem topSort_spec (hg : g.Proper nodes) : ∃ l, topSort nodes.length g = some l ∧
    l.Perm nodes ∧ ∀ a b, (a, b) ∈ g.edges → Precedes l b a := by
  have hfuel : nodes.length ≤ nodes.length + ([] : List α).length := Nat.le_add_right _ _
  obtain ⟨l, hloop, edges, h⟩ := hg.sorting.loop hg hfuel
  have hall := h.all hg
  refine ⟨l, hloop, ?_, fun a b hab => ?_⟩
  · refine (List.perm_ext_iff_of_nodup h.nodup hg.nodup).mpr fun m => ?_
    exact ⟨fun hm => ((h.free m).mp (Or.inr hm)).1, hall m⟩
  · exact (h.sorted (a, b) hab (hall b (hg.inside _ hab).2)).2

end
end SeClient
