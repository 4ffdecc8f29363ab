import SeClient.ChainSort
import SeClient.KeyOrder
import SeClient.SchemaGraph

/-!
# The attributes of a complex type

`collect_attr` of `c_gen.c` makes one sorted list of the attributes of a complex type and of the
types that it extends.  The lists are chains of `List` cells; the cells of the schema are read, and
the list that is sorted is made of new ones.
-/

namespace SeClient
open Chain

section
variable {A : Type}

/-- The `List` cells in memory, of which the first `count` are allocated. -/
structure Cells (A : Type) where
  next : ℕ → Option ℕ
  data : ℕ → A
  count : ℕ

/-- `type_alloc (List)`, with the data. -/
def Cells.alloc (m : Cells A) (d : A) : Cells A where
  next := Function.update m.next m.count none
  data := Function.update m.data m.count d
  count := m.count + 1

/-- The loop of `list_dup`. -/
def dupLoop : ℕ → Cells A → Option ℕ → Option ℕ → Option ℕ → Option (Cells A × Option ℕ)
  | _, m, none, _, head => some (m, head)
  | 0, _, some _, _, _ => none
  | fuel + 1, m, some l, prev, head =>
    let n := m.count
    let m := m.alloc (m.data l)
    match prev with
    | some p =>
      let m := { m with next := Function.update m.next p (some n) }
      dupLoop fuel m (m.next l) (some p) head
    | none => dupLoop fuel m (m.next l) (some n) (some n)

/-- `list_dup` -/
def listDup (fuel : ℕ) (m : Cells A) (list : Option ℕ) : Option (Cells A × Option ℕ) :=
  dupLoop fuel m list none none

/-- The loop of `collect_attr`; `none` where a base is not found. -/
def collectLoop (size : ℕ) (head : List (SchemaType (Option ℕ))) :
    ℕ → Cells A → Option ℕ → Option CString → Option (Cells A × Option ℕ)
  | _, m, attr, none => some (m, attr)
  | 0, _, _, some _ => none
  | fuel + 1, m, attr, some base =>
    ((findByName head base).bind fun i => head[i]?).bind fun u =>
    (listDup size m u.attr).bind fun r =>
    (listCat size r.1.next attr r.2).bind fun s =>
    collectLoop size head fuel { r.1 with next := s.1 } s.2 u.base

/-- `compare_attr`, of cells whose data are declared as `decl` says. -/
def compareAttr (decl : A → AttrDecl) (m : Cells A) (a b : ℕ) : ℤ :=
  strcmp (decl (m.data a)).name (decl (m.data b)).name

/-- `collect_attr`, with loops of at most `size` passes. -/
def collectAttr (decl : A → AttrDecl) (size : ℕ) (m : Cells A) (t : SchemaType (Option ℕ))
    (head : List (SchemaType (Option ℕ))) : Option (Cells A × Option ℕ) :=
  (listDup size m t.attr).bind fun r =>
  (collectLoop size head size r.1 r.2 t.base).bind fun s =>
  (quickSort (compareAttr decl s.1) size s.1.next s.2).map fun u =>
    ({ s.1 with next := u.1 }, u.2)

end

/-! ## The claim of the generator -/

/-- The types that a type with this base extends. -/
inductive Ancestry (head : List (SchemaType (Option ℕ))) :
    Option CString → List (SchemaType (Option ℕ)) → Prop
  | root : Ancestry head none []
  | base {base : CString} {i : ℕ} {u : SchemaType (Option ℕ)}
      {ancestors : List (SchemaType (Option ℕ))} : findByName head base = some i →
      head[i]? = some u → Ancestry head u.base ancestors → Ancestry head (some base) (u :: ancestors)

/-- A complex type of a schema in memory, with its ancestors and the cells of their attributes. -/
structure Lineage (A : Type) where
  decl : A → AttrDecl
  memory : Cells A
  head : List (SchemaType (Option ℕ))
  type : SchemaType (Option ℕ)
  ancestors : List (SchemaType (Option ℕ))
  ancestry : Ancestry head type.base ancestors
  cells : SchemaType (Option ℕ) → List ℕ
  linked : ∀ u ∈ type :: ancestors, Linked memory.next u.attr (cells u)
  allocated : ∀ u ∈ type :: ancestors, ∀ c ∈ cells u, c < memory.count

namespace Lineage
variable {A : Type} (L : Lineage A)

/-- The attributes that a type declares. -/
def declared (u : SchemaType (Option ℕ)) : List A := (L.cells u).map L.memory.data

/-- The attributes of the type and of all its ancestors. -/
def attributes : List A := (L.type :: L.ancestors).flatMap L.declared

/-- More than any loop has passes. -/
def size : ℕ := L.ancestors.length + L.attributes.length + 1

/-- `collect_attr` returns all attributes once, sorted by name, and leaves the lists alone. -/
def Collected : Prop := ∃ m h cells,
  collectAttr L.decl L.size L.memory L.type L.head = some (m, h) ∧ Linked m.next h cells ∧
  (cells.map m.data).Perm L.attributes ∧
  ((cells.map m.data).Pairwise fun a b => strcmp (L.decl a).name (L.decl b).name ≤ 0) ∧
  ∀ c < L.memory.count, m.next c = L.memory.next c ∧ m.data c = L.memory.data c

end Lineage

/-! ## Copies -/

/-- What `list_dup` keeps of a list: the first and the last. -/
def ends {α : Type} (l : List α) : List α := l.head?.toList ++ l.tail.getLast?.toList

theorem length_ends {α : Type} (l : List α) : (ends l).length = min l.length 2 := by
  rcases l with _ | ⟨a, _ | ⟨b, l⟩⟩
  · rfl
  · rfl
  · rw [ends, List.head?_cons, List.tail_cons, List.getLast?_cons, List.length_append,
      List.length_cons, List.length_cons]
    simp

theorem ends_eq {α : Type} {l : List α} (h : l.length ≤ 2) : ends l = l := by
  rcases l with _ | ⟨a, _ | ⟨b, _ | ⟨c, l⟩⟩⟩
  · rfl
  · rfl
  · rfl
  · simp only [List.length_cons] at h
    omega

/-- Where as many are kept as there are, no list is longer than two. -/
theorem length_flatMap_ends {α β : Type} {f : β → List α} (us : List β) :
    (us.flatMap fun u => ends (f u)).length ≤ (us.flatMap f).length ∧
    ((us.flatMap f).length ≤ (us.flatMap fun u => ends (f u)).length →
      ∀ u ∈ us, (f u).length ≤ 2) := by
  induction us with
  | nil => exact ⟨Nat.le_refl _, fun _ _ h => absurd h List.not_mem_nil⟩
  | cons u us ih =>
    obtain ⟨hle, hall⟩ := ih
    rw [List.flatMap_cons, List.flatMap_cons, List.length_append, List.length_append, length_ends,
      List.forall_mem_cons]
    refine ⟨by omega, fun h => ⟨by omega, hall (by omega)⟩⟩

section
variable {A : Type} {m m' m₀ : Cells A} {h : Option ℕ} {l cells : List ℕ} {fuel p c : ℕ}

theorem Cells.alloc_next {d : A} (hc : c < m.count) : (m.alloc d).next c = m.next c :=
  Function.update_of_ne (Nat.ne_of_lt hc) _ _

theorem Cells.alloc_data {d : A} (hc : c < m.count) : (m.alloc d).data c = m.data c :=
  Function.update_of_ne (Nat.ne_of_lt hc) _ _

theorem Cells.alloc_self {d : A} :
    (m.alloc d).next m.count = none ∧ (m.alloc d).data m.count = d :=
  ⟨Function.update_self _ _ _, Function.update_self _ _ _⟩

/-- A chain of new cells, with all that was there left as it was. -/
structure Copied (m m' : Cells A) (h : Option ℕ) (cells : List ℕ) : Prop where
  linked : Linked m'.next h cells
  nodup : cells.Nodup
  new : ∀ c ∈ cells, m.count ≤ c ∧ c < m'.count
  next : ∀ c < m.count, m'.next c = m.next c
  data : ∀ c < m.count, m'.data c = m.data c
  count : m.count ≤ m'.count

/-- The loop of `list_dup` behind the first cell `p`: each further cell takes the place of the one
that followed `p`. -/
theorem dupLoop_rest {head : Option ℕ} (hl : Linked m.next h l) (hold : ∀ c ∈ l, c < m.count)
    (hp : p ∉ l) (hpc : p < m.count) (hf : l.length ≤ fuel) : ∃ m',
      dupLoop fuel m h (some p) head = some (m', head) ∧
      (l = [] ∧ m' = m ∨ ∃ q, m.count ≤ q ∧ q < m'.count ∧ m'.next p = some q ∧
        m'.next q = none ∧ (l.map m.data).getLast? = some (m'.data q)) ∧
      (∀ c < m.count, c ≠ p → m'.next c = m.next c) ∧
      (∀ c < m.count, m'.data c = m.data c) ∧ m.count ≤ m'.count := by
  induction l generalizing m h fuel with
  | nil =>
    rw [linked_nil] at hl
    subst hl
    refine ⟨m, ?_, Or.inl ⟨rfl, rfl⟩, fun _ _ _ => rfl, fun _ _ => rfl, Nat.le_refl _⟩
    unfold dupLoop
    rfl
  | cons a l ih =>
    obtain ⟨rfl, hl⟩ := hl
    obtain ⟨ha, hold⟩ := List.forall_mem_cons.mp hold
    obtain ⟨hpa, hpl⟩ := not_or.mp (mt List.mem_cons.mpr hp)
    cases fuel with
    | zero => exact absurd hf (Nat.not_succ_le_zero _)
    | succ fuel =>
      obtain ⟨m₁, hm₁⟩ : ∃ m₁ : Cells A, m₁ = { m.alloc (m.data a) with
        next := Function.update (m.alloc (m.data a)).next p (some m.count) } := ⟨_, rfl⟩
      have hnext : ∀ c < m.count, c ≠ p → m₁.next c = m.next c := by
        intro c hc hcp
        rw [hm₁]
        exact (Function.update_of_ne hcp _ _).trans (Cells.alloc_next hc)
      have hdata : ∀ c < m.count, m₁.data c = m.data c := by
        intro c hc
        rw [hm₁]
        exact Cells.alloc_data hc
      have hself : m₁.data m.count = m.data a := by
        rw [hm₁]
        exact Cells.alloc_self.2
      have hcount : m₁.count = m.count + 1 := by
        rw [hm₁]
        rfl
      have hl₁ : Linked m₁.next (m₁.next a) l := by
        rw [hnext a ha (Ne.symm hpa)]
        exact hl.congr fun c hc => hnext c (hold c hc) fun he => hpl (he ▸ hc)
      obtain ⟨m', heq, hlast, hn', hd', hc'⟩ := @ih m₁ _ fuel hl₁
        (fun c hc => by rw [hcount]; exact Nat.lt_succ_of_lt (hold c hc)) hpl (by omega)
        (Nat.le_of_succ_le_succ hf)
      refine ⟨m', ?_, Or.inr ?_, ?_, ?_, by omega⟩
      · rw [dupLoop, ← hm₁]
        exact heq
      · rcases hlast with ⟨rfl, rfl⟩ | ⟨q, hq₁, hq₂, hpq, hq, hlast⟩
        · refine ⟨m.count, Nat.le_refl _, by omega, ?_, ?_, ?_⟩
          · rw [hm₁]
            exact Function.update_self _ _ _
          · rw [hm₁]
            exact (Function.update_of_ne (Nat.ne_of_gt hpc) _ _).trans Cells.alloc_self.1
          · rw [hself]
            rfl
        · refine ⟨q, by omega, hq₂, hpq, hq, ?_⟩
          have hmap : l.map m₁.data = l.map m.data :=
            List.map_congr_left fun c hc => hdata c (hold c hc)
          rw [hmap] at hlast
          rw [List.map_cons, List.getLast?_cons, hlast]
          rfl
      · intro c hc hcp
        rw [hn' c (by omega) hcp, hnext c hc hcp]
      · intro c hc
        rw [hd' c (by omega), hdata c hc]

/-- **`list_dup`** makes a list of the first and the last element. -/
theorem listDup_spec (hl : Linked m.next h l) (hold : ∀ c ∈ l, c < m.count)
    (hf : l.length ≤ fuel) : ∃ m' h' cells, listDup fuel m h = some (m', h') ∧
      Copied m m' h' cells ∧ cells.map m'.data = ends (l.map m.data) := by
  unfold listDup
  cases l with
  | nil =>
    rw [linked_nil] at hl
    subst hl
    refine ⟨m, none, [], ?_, ⟨rfl, List.nodup_nil, nofun, fun _ _ => rfl, fun _ _ => rfl,
      Nat.le_refl _⟩, rfl⟩
    unfold dupLoop
    rfl
  | cons a l =>
    obtain ⟨rfl, hl⟩ := hl
    obtain ⟨ha, hold⟩ := List.forall_mem_cons.mp hold
    cases fuel with
    | zero => exact absurd hf (Nat.not_succ_le_zero _)
    | succ fuel =>
      obtain ⟨m₁, hm₁⟩ : ∃ m₁ : Cells A, m₁ = m.alloc (m.data a) := ⟨_, rfl⟩
      have hnext : ∀ c < m.count, m₁.next c = m.next c := fun c hc => hm₁ ▸ Cells.alloc_next hc
      have hdata : ∀ c < m.count, m₁.data c = m.data c := fun c hc => hm₁ ▸ Cells.alloc_data hc
      have hcount : m₁.count = m.count + 1 := by
        rw [hm₁]
        rfl
      have hself : m₁.data m.count = m.data a := by
        rw [hm₁]
        exact Cells.alloc_self.2
      have hl₁ : Linked m₁.next (m₁.next a) l := by
        rw [hnext a ha]
        exact hl.congr fun c hc => hnext c (hold c hc)
      have hnew : m.count ∉ l := fun hmem => Nat.lt_irrefl _ (hold _ hmem)
      obtain ⟨m', heq, hlast, hn', hd', hc'⟩ := @dupLoop_rest A m₁ (m₁.next a) l fuel m.count
        (some m.count) hl₁ (fun c hc => by rw [hcount]; exact Nat.lt_succ_of_lt (hold c hc))
        hnew (by omega) (Nat.le_of_succ_le_succ hf)
      have hframe : ∀ c < m.count, m'.next c = m.next c := by
        intro c hc
        rw [hn' c (by omega) (Nat.ne_of_lt hc), hnext c hc]
      have hframe' : ∀ c < m.count, m'.data c = m.data c := by
        intro c hc
        rw [hd' c (by omega), hdata c hc]
      have hfirst : m'.data m.count = m.data a := (hd' _ (by omega)).trans hself
      have hloop : dupLoop (fuel + 1) m (some a) none none = some (m', some m.count) := by
        rw [dupLoop, ← hm₁]
        exact heq
      rcases hlast with ⟨rfl, rfl⟩ | ⟨q, hq₁, hq₂, hpq, hq, hlast⟩
      · refine ⟨m', some m.count, [m.count], hloop,
          ⟨⟨rfl, ?_⟩, List.nodup_singleton _, ?_, hframe, hframe', by omega⟩, ?_⟩
        · rw [hm₁]
          exact Cells.alloc_self.1
        · intro c hc
          rw [List.mem_singleton.mp hc]
          omega
        · rw [List.map_singleton, hfirst]
          rfl
      · have hmap : l.map m₁.data = l.map m.data :=
          List.map_congr_left fun c hc => hdata c (hold c hc)
        rw [hmap] at hlast
        refine ⟨m', some m.count, [m.count, q], hloop,
          ⟨⟨rfl, hpq, hq⟩, ?_, ?_, hframe, hframe', by omega⟩, ?_⟩
        · refine List.nodup_cons.mpr ⟨?_, List.nodup_singleton _⟩
          rw [List.mem_singleton]
          omega
        · intro c hc
          rcases List.mem_cons.mp hc with rfl | hc
          · omega
          · rw [List.mem_singleton.mp hc]
            omega
        · rw [List.map_cons, List.map_singleton, hfirst, List.map_cons, ends, List.head?_cons,
            List.tail_cons, hlast]
          rfl

/-! ## The collection -/

/-- What all copies together hold. -/
def Lineage.kept (L : Lineage A) : List A :=
  (L.type :: L.ancestors).flatMap fun u => ends (L.declared u)

theorem Copied.trans {m'' : Cells A} {h' : Option ℕ} {cells' : List ℕ} (hc : Copied m m' h cells)
    (hc' : Copied m' m'' h' cells') (hf : cells.length ≤ fuel) : ∃ next h'',
      listCat fuel m''.next h h' = some (next, h'') ∧
      Copied m { m'' with next := next } h'' (cells ++ cells') ∧
      (cells ++ cells').map m''.data = cells.map m'.data ++ cells'.map m''.data := by
  have hold : ∀ c ∈ cells, c < m'.count := fun c h => (hc.new c h).2
  have hl : Linked m''.next h cells := hc.linked.congr fun c h => hc'.next c (hold c h)
  have hnd : (cells ++ cells').Nodup := by
    refine List.nodup_append.mpr ⟨hc.nodup, hc'.nodup, fun a ha b hb hab => ?_⟩
    exact absurd (hc'.new b hb).1 (Nat.not_le_of_lt (hab ▸ hold a ha))
  obtain ⟨next, h'', heq, hl', hframe⟩ := listCat_spec hl hc'.linked hnd hf
  have hcount := hc.count
  refine ⟨next, h'', heq, ⟨hl', hnd, ?_, ?_, ?_, ?_⟩, ?_⟩
  · intro c h
    rcases List.mem_append.mp h with h | h
    · exact ⟨(hc.new c h).1, Nat.lt_of_lt_of_le (hold c h) hc'.count⟩
    · exact ⟨Nat.le_trans hcount (hc'.new c h).1, (hc'.new c h).2⟩
  · intro c hlt
    have hnot : c ∉ cells := fun h => absurd (hc.new c h).1 (Nat.not_le_of_lt hlt)
    exact (hframe c hnot).trans ((hc'.next c (by omega)).trans (hc.next c hlt))
  · intro c hlt
    exact (hc'.data c (by omega)).trans (hc.data c hlt)
  · exact Nat.le_trans hcount hc'.count
  · rw [List.map_append]
    refine congrArg (· ++ _) (List.map_congr_left fun c h => hc'.data c (hold c h))

/-- The loop of `collect_attr` adds the copies of the ancestors. -/
theorem collectLoop_spec {head : List (SchemaType (Option ℕ))} {base : Option CString}
    {ancestors : List (SchemaType (Option ℕ))} {attr : SchemaType (Option ℕ) → List ℕ} {size : ℕ}
    (ha : Ancestry head base ancestors) (hl : ∀ u ∈ ancestors, Linked m₀.next u.attr (attr u))
    (hold : ∀ u ∈ ancestors, ∀ c ∈ attr u, c < m₀.count) (hc : Copied m₀ m h cells)
    (hsize : cells.length + (ancestors.flatMap attr).length ≤ size) (hf : ancestors.length ≤ fuel) :
    ∃ m' h' cells', collectLoop size head fuel m h base = some (m', h') ∧
      Copied m₀ m' h' cells' ∧ cells'.map m'.data = cells.map m.data ++
        ancestors.flatMap fun u => ends ((attr u).map m₀.data) := by
  induction ha generalizing m h cells fuel with
  | root =>
    refine ⟨m, h, cells, ?_, hc, (List.append_nil _).symm⟩
    unfold collectLoop
    rfl
  | @base b i u ancestors hfind hget _ ih =>
    cases fuel with
    | zero => exact absurd hf (Nat.not_succ_le_zero _)
    | succ fuel =>
      obtain ⟨hlu, hl⟩ := List.forall_mem_cons.mp hl
      obtain ⟨holdu, hold⟩ := List.forall_mem_cons.mp hold
      rw [List.flatMap_cons, List.length_append] at hsize
      have hlu' : Linked m.next u.attr (attr u) := hlu.congr fun c h => hc.next c (holdu c h)
      have holdu' : ∀ c ∈ attr u, c < m.count := fun c h =>
        Nat.lt_of_lt_of_le (holdu c h) hc.count
      obtain ⟨m₁, h₁, cells₁, heq₁, hc₁, hdata₁⟩ := listDup_spec hlu' holdu'
        (show (attr u).length ≤ size by omega)
      obtain ⟨next, h₂, heq₂, hc₂, hdata₂⟩ := hc.trans hc₁ (show cells.length ≤ size by omega)
      have hlength : cells₁.length ≤ (attr u).length := by
        have := congrArg List.length hdata₁
        rw [List.length_map, length_ends, List.length_map] at this
        omega
      have hmap : (attr u).map m.data = (attr u).map m₀.data :=
        List.map_congr_left fun c h => hc.data c (holdu c h)
      obtain ⟨m', h', cells', heq', hc', hdata'⟩ := ih hl hold hc₂
        (by rw [List.length_append]; omega) (Nat.le_of_succ_le_succ hf)
      refine ⟨m', h', cells', ?_, hc', ?_⟩
      · rw [collectLoop, hfind, Option.bind_some, hget, Option.bind_some, heq₁, Option.bind_some,
          heq₂, Option.bind_some, heq']
      · rw [hdata', hdata₂, hdata₁, hmap, List.flatMap_cons, List.append_assoc]

theorem compareAttr_preorders (decl : A → AttrDecl) (m : Cells A) :
    Preorders (compareAttr decl m) where
  flip a b h := by
    have hab := strcmp_agrees (decl (m.data a)).name (decl (m.data b)).name
    have hba := strcmp_agrees (decl (m.data b)).name (decl (m.data a)).name
    refine hba.le_iff.mpr fun hgt => h (hab.1.mpr ?_)
    exact Std.OrientedCmp.gt_iff_lt.mp hgt
  trans a b c h₁ h₂ := by
    have hab := strcmp_agrees (decl (m.data a)).name (decl (m.data b)).name
    have hbc := strcmp_agrees (decl (m.data b)).name (decl (m.data c)).name
    have hac := strcmp_agrees (decl (m.data a)).name (decl (m.data c)).name
    have hle₁ := Ordering.isLE_iff_ne_gt.mpr (hab.le_iff.mp h₁)
    have hle₂ := Ordering.isLE_iff_ne_gt.mpr (hbc.le_iff.mp h₂)
    exact hac.le_iff.mpr (Ordering.isLE_iff_ne_gt.mp (Std.TransCmp.isLE_trans hle₁ hle₂))

/-- **The list that is collected**: what the copies hold, sorted, in new cells. -/
theorem collectAttr_spec (L : Lineage A) : ∃ m h cells,
    collectAttr L.decl L.size L.memory L.type L.head = some (m, h) ∧ Linked m.next h cells ∧
    (cells.map m.data).Perm L.kept ∧
    ((cells.map m.data).Pairwise fun a b => strcmp (L.decl a).name (L.decl b).name ≤ 0) ∧
    ∀ c < L.memory.count, m.next c = L.memory.next c ∧ m.data c = L.memory.data c := by
  obtain ⟨hl, hls⟩ := List.forall_mem_cons.mp L.linked
  obtain ⟨hold, holds⟩ := List.forall_mem_cons.mp L.allocated
  have hsize : L.size = L.ancestors.length +
      ((L.cells L.type).length + (L.ancestors.flatMap L.cells).length) + 1 := by
    unfold Lineage.size Lineage.attributes Lineage.declared
    rw [List.flatMap_cons, List.length_append, List.length_map, List.length_flatMap,
      List.length_flatMap]
    simp only [List.length_map]
  obtain ⟨m₁, h₁, cells₁, heq₁, hc₁, hdata₁⟩ := listDup_spec hl hold
    (show (L.cells L.type).length ≤ L.size by omega)
  have hlength : cells₁.length ≤ (L.cells L.type).length := by
    have := congrArg List.length hdata₁
    rw [List.length_map, length_ends, List.length_map] at this
    omega
  obtain ⟨m₂, h₂, cells₂, heq₂, hc₂, hdata₂⟩ := collectLoop_spec L.ancestry hls holds hc₁
    (show cells₁.length + (L.ancestors.flatMap L.cells).length ≤ L.size by omega)
    (show L.ancestors.length ≤ L.size by omega)
  have hkept : cells₂.map m₂.data = L.kept := by
    rw [hdata₂, hdata₁]
    rfl
  have hlength₂ : cells₂.length < L.size := by
    have hle := (length_flatMap_ends (f := L.declared) (L.type :: L.ancestors)).1
    have hkept := congrArg List.length hkept
    rw [List.length_map] at hkept
    rw [hkept]
    exact Nat.lt_succ_of_le (Nat.le_trans hle (Nat.le_add_left _ _))
  obtain ⟨next, h₃, cells₃, heq₃, hl₃, hperm, hsorted, hframe⟩ := quickSort_spec
    (compareAttr_preorders L.decl m₂) hc₂.linked hc₂.nodup hlength₂
  refine ⟨{ m₂ with next := next }, h₃, cells₃, ?_, hl₃, ?_, ?_, fun c hc => ⟨?_, ?_⟩⟩
  · rw [collectAttr, heq₁, Option.bind_some, heq₂, Option.bind_some, heq₃, Option.map_some]
  · rw [← hkept]
    exact hperm.map m₂.data
  · exact List.pairwise_map.mpr hsorted
  · have hnot : c ∉ cells₂ := fun h => absurd (hc₂.new c h).1 (Nat.not_le_of_lt hc)
    exact (hframe c hnot).trans (hc₂.next c hc)
  · exact hc₂.data c hc

/-- A list with all attributes has no type with more than two. -/
theorem Lineage.Collected.short {L : Lineage A} (h : L.Collected) :
    ∀ u ∈ L.type :: L.ancestors, (L.cells u).length ≤ 2 := by
  obtain ⟨m, h, cells, heq, hl, hperm, -⟩ := h
  obtain ⟨m', h', cells', heq', hl', hperm', -⟩ := collectAttr_spec L
  obtain ⟨rfl, rfl⟩ := Prod.mk.inj (Option.some.inj (heq.symm.trans heq'))
  obtain rfl := hl.unique hl'
  have hlength := (hperm.symm.trans hperm').length_eq
  intro u hu
  have hall := (length_flatMap_ends (f := L.declared) (L.type :: L.ancestors)).2
    (Nat.le_of_eq hlength) u hu
  rwa [Lineage.declared, List.length_map] at hall

/-- **All attributes are collected** exactly where no type of the line declares more than two. -/
theorem collected_iff (L : Lineage A) :
    L.Collected ↔ ∀ u ∈ L.type :: L.ancestors, (L.cells u).length ≤ 2 := by
  constructor
  · exact Lineage.Collected.short
  · intro hshort
    have hkept : L.kept = L.attributes := by
      refine List.flatMap_congr fun u hu => ends_eq ?_
      rw [Lineage.declared, List.length_map]
      exact hshort u hu
    obtain ⟨m, h, cells, heq, hl, hperm, hsorted, hframe⟩ := collectAttr_spec L
    rw [hkept] at hperm
    exact ⟨m, h, cells, heq, hl, hperm, hsorted, hframe⟩

end

/-- A complex type with the attributes `a`, `b` and `c`. -/
def threeAttributes : Lineage AttrDecl where
  decl a := a
  memory := {
    next := fun c => if c < 2 then some (c + 1) else none
    data := fun c => ⟨[0x61 + UInt8.ofNat c], some [0x78, 0x73, 0x3A, 0x69, 0x6E, 0x74]⟩
    count := 3 }
  head := [{ name := some [0x54], attr := some 0 }]
  type := { name := some [0x54], attr := some 0 }
  ancestors := []
  ancestry := .root
  cells _ := [0, 1, 2]
  linked _ hu := by
    rw [List.mem_singleton.mp hu]
    exact ⟨rfl, rfl, rfl, rfl⟩
  allocated _ _ c hc := by
    simp only [List.mem_cons, List.not_mem_nil, or_false] at hc
    show c < 3
    omega

theorem not_collected : ¬threeAttributes.Collected := by
  intro h
  exact absurd (h.short _ List.mem_cons_self) (by decide)

end SeClient
