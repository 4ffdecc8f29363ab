import SeClient.StringTable
import SeClient.TopSort

/-!
# The dependency graph of the schema types

`build_graph` of `schema_gen.c` draws an edge from each type to the types that its base, its
elements and its attributes name, and `top_sort` puts the types into an order in which each comes
after those that it depends on.  A `SchemaType *` is `none` where it is `NULL`, and otherwise the
index of the type in the list.
-/

namespace SeClient

/-- `AttrDecl` -/
structure AttrDecl where
  name : CString
  type : Option CString

/-- The `Particle`s that are linked by `next`; what is not an element is a group with a `child`. -/
inductive Particles
  | nil
  | element (name type : Option CString) (next : Particles)
  | group (child next : Particles)

/-- `SchemaType`, with `attr` the list of attributes or where it is kept. -/
structure SchemaType (Attr : Type) where
  name : Option CString
  base : Option CString := none
  part : Particles := .nil
  attr : Attr

section
variable {Attr : Type}

/-- `find_by_name` -/
def findByName (head : List (SchemaType Attr)) (name : CString) : Option ℕ :=
  head.findIdx? fun t => t.name = some name

/-- `strncmp (name, "xs:", 3) == 0` -/
def builtIn (name : CString) : Bool := [0x78, 0x73, 0x3A].isPrefixOf name

/-- The edges of the graph. -/
abbrev Deps := List (Option ℕ × Option ℕ)

variable (head : List (SchemaType Attr)) (t : ℕ)

/-- `add_dep` -/
def addDep (edges : Deps) (name : CString) : Deps :=
  if builtIn name then edges else (some t, findByName head name) :: edges

/-- `add_particle_dep`; `none` where it follows the name of an element, which shares its place with
`child`, as a `Particle *`. -/
def addParticleDep : Particles → Deps → Option Deps
  | .nil, edges => some edges
  | .element _ (some type) next, edges => addParticleDep next (addDep head t edges type)
  | .element none none next, edges => addParticleDep next edges
  | .element (some _) none _, _ => none
  | .group child next, edges => (addParticleDep child edges).bind (addParticleDep next)

end

section
variable (head : List (SchemaType (List AttrDecl))) (t : ℕ)

/-- `add_attribute_dep`; `none` where it gives `NULL` to `strncmp`. -/
def addAttributeDep : List AttrDecl → Deps → Option Deps
  | [], edges => some edges
  | a :: attr, edges => a.type.bind fun type => addAttributeDep attr (addDep head t edges type)

/-- The edges that the loop of `build_graph` adds for a type. -/
def addTypeDep (u : SchemaType (List AttrDecl)) (edges : Deps) : Option Deps :=
  let edges := u.base.elim edges (addDep head t edges)
  (addParticleDep head t u.part edges).bind (addAttributeDep head t u.attr)

/-- The loop of `build_graph` from the type `t` on. -/
def addTypes : ℕ → List (SchemaType (List AttrDecl)) → Graph (Option ℕ) → Option (Graph (Option ℕ))
  | _, [], graph => some graph
  | t, u :: rest, graph => (addTypeDep head t u graph.edges).bind fun edges =>
    addTypes (t + 1) rest { start := some t :: graph.start, edges := edges }

end

/-- `build_graph` -/
def buildGraph (head : List (SchemaType (List AttrDecl))) : Option (Graph (Option ℕ)) :=
  (addTypes head 0 head {}).map Graph.deleteBases

/-! ## What a type depends on -/

/-- The types that the elements name. -/
def Particles.types : Particles → List CString
  | .nil => []
  | .element _ type next => type.toList ++ next.types
  | .group child next => child.types ++ next.types

/-- Each element that has a name has a type. -/
def Particles.Typed : Particles → Prop
  | .nil => True
  | .element name type next => (type = none → name = none) ∧ next.Typed
  | .group child next => child.Typed ∧ next.Typed

namespace SchemaType

/-- The types that a type names. -/
def types (u : SchemaType (List AttrDecl)) : List CString :=
  u.base.toList ++ u.part.types ++ u.attr.filterMap AttrDecl.type

/-- Each element that has a name has a type, and each attribute. -/
def Typed (u : SchemaType (List AttrDecl)) : Prop :=
  u.part.Typed ∧ ∀ a ∈ u.attr, a.type ≠ none

end SchemaType

section
variable (head : List (SchemaType (List AttrDecl)))

/-- The type `i` names the type `j` of the schema. -/
def Depends (i j : ℕ) : Prop := ∃ u, head[i]? = some u ∧
  ∃ name ∈ u.types, builtIn name = false ∧ findByName head name = some j

end

/-- A schema that defines the types it names and in which no type depends on itself. -/
structure AcyclicSchema where
  types : List (SchemaType (List AttrDecl))
  defined : ∀ u ∈ types, ∀ name ∈ u.types, builtIn name = false → findByName types name ≠ none
  acyclic : ∀ i, ¬Relation.TransGen (Depends types) i i

namespace AcyclicSchema

/-- The types of the schema, as `top_sort` should list them. -/
def nodes (S : AcyclicSchema) : List (Option ℕ) := (List.range S.types.length).map some

/-- The graph is built and sorted: every type is listed once, after those that it depends on. -/
def Sorted (S : AcyclicSchema) : Prop :=
  ∃ graph l, buildGraph S.types = some graph ∧ topSort S.types.length graph = some l ∧
    l.Perm S.nodes ∧ ∀ i j, Depends S.types i j → Precedes l (some j) (some i)

end AcyclicSchema

/-! ## The edges of a type -/

section
variable {head : List (SchemaType (List AttrDecl))} {t : ℕ} {edges : Deps}

/-- The edges to all types of a list of names. -/
def addDeps (head : List (SchemaType (List AttrDecl))) (t : ℕ) (edges : Deps)
    (names : List CString) : Deps := names.foldl (addDep head t) edges

theorem addDeps_append {names names' : List CString} :
    addDeps head t edges (names ++ names') = addDeps head t (addDeps head t edges names) names' :=
  List.foldl_append

theorem mem_addDeps {names : List CString} {e : Option ℕ × Option ℕ} :
    e ∈ addDeps head t edges names ↔ e ∈ edges ∨
      ∃ name ∈ names, builtIn name = false ∧ e = (some t, findByName head name) := by
  induction names generalizing edges with
  | nil => simp [addDeps]
  | cons name names ih =>
    have hcons : addDeps head t edges (name :: names) =
        addDeps head t (addDep head t edges name) names := rfl
    rw [hcons, ih, List.exists_mem_cons_iff]
    by_cases hname : builtIn name
    · rw [addDep, if_pos hname, hname]
      simp
    · rw [addDep, if_neg hname, List.mem_cons, eq_false_of_ne_true hname]
      simp only [true_and]
      rw [or_comm (a := e = _), or_assoc]

theorem addParticleDep_typed {part : Particles} (h : part.Typed) :
    addParticleDep head t part edges = some (addDeps head t edges part.types) := by
  induction part generalizing edges with
  | nil => rfl
  | element name type next ih =>
    cases type with
    | some type => exact ih h.2
    | none =>
      cases name with
      | some name => exact absurd (h.1 rfl) (Option.some_ne_none name)
      | none => exact ih h.2
  | group child next ihc ihn =>
    unfold addParticleDep
    rw [ihc h.1, Option.bind_some, ihn h.2, Particles.types, addDeps_append]

/-- An element without a type goes wrong by its name. -/
theorem addParticleDep_untyped {part : Particles} (h : ¬part.Typed) :
    addParticleDep head t part edges = none := by
  induction part generalizing edges with
  | nil => exact absurd trivial h
  | element name type next ih =>
    have hnext : (type = none → name = none) → ¬next.Typed := fun h₁ h₂ => h ⟨h₁, h₂⟩
    cases type with
    | some type => exact ih (hnext fun h => absurd h (Option.some_ne_none type))
    | none =>
      cases name with
      | some name => rfl
      | none => exact ih (hnext fun _ => rfl)
  | group child next ihc ihn =>
    unfold addParticleDep
    by_cases hchild : child.Typed
    · rw [addParticleDep_typed hchild, Option.bind_some]
      exact ihn fun hnext => h ⟨hchild, hnext⟩
    · rw [ihc hchild, Option.bind_none]

theorem addAttributeDep_typed {attr : List AttrDecl} (h : ∀ a ∈ attr, a.type ≠ none) :
    addAttributeDep head t attr edges =
      some (addDeps head t edges (attr.filterMap AttrDecl.type)) := by
  induction attr generalizing edges with
  | nil => rfl
  | cons a attr ih =>
    obtain ⟨ha, hattr⟩ := List.forall_mem_cons.mp h
    obtain ⟨type, htype⟩ := Option.ne_none_iff_exists'.mp ha
    rw [addAttributeDep, htype, Option.bind_some, ih hattr, List.filterMap_cons_some htype]
    rfl

theorem addAttributeDep_untyped {attr : List AttrDecl} (h : ∃ a ∈ attr, a.type = none) :
    addAttributeDep head t attr edges = none := by
  induction attr generalizing edges with
  | nil =>
    obtain ⟨a, ha, -⟩ := h
    exact absurd ha List.not_mem_nil
  | cons a attr ih =>
    rw [addAttributeDep]
    cases htype : a.type with
    | none => rfl
    | some type =>
      rw [List.exists_mem_cons_iff, htype] at h
      exact ih (h.resolve_left (Option.some_ne_none type))

theorem addTypeDep_typed {u : SchemaType (List AttrDecl)} (h : u.Typed) :
    addTypeDep head t u edges = some (addDeps head t edges u.types) := by
  have hbase : u.base.elim edges (addDep head t edges) = addDeps head t edges u.base.toList := by
    cases u.base <;> rfl
  rw [addTypeDep, hbase, addParticleDep_typed h.1, Option.bind_some, addAttributeDep_typed h.2,
    SchemaType.types, addDeps_append, addDeps_append]

theorem addTypeDep_untyped {u : SchemaType (List AttrDecl)} (h : ¬u.Typed) :
    addTypeDep head t u edges = none := by
  unfold addTypeDep
  dsimp only
  by_cases hpart : u.part.Typed
  · rw [addParticleDep_typed hpart, Option.bind_some]
    refine addAttributeDep_untyped ?_
    by_contra hall
    refine h ⟨hpart, fun a ha hnone => hall ⟨a, ha, hnone⟩⟩
  · rw [addParticleDep_untyped hpart, Option.bind_none]

/-! ## The edges of the graph -/

variable {rest : List (SchemaType (List AttrDecl))} {graph : Graph (Option ℕ)}

theorem addTypes_typed (h : ∀ u ∈ rest, u.Typed) : ∃ graph',
    addTypes head t rest graph = some graph' ∧
    graph'.start = ((List.range' t rest.length).map some).reverse ++ graph.start ∧
    ∀ e, e ∈ graph'.edges ↔ e ∈ graph.edges ∨ ∃ k u, rest[k]? = some u ∧ ∃ name ∈ u.types,
      builtIn name = false ∧ e = (some (t + k), findByName head name) := by
  induction rest generalizing t graph with
  | nil =>
    refine ⟨graph, rfl, rfl, fun e => ⟨Or.inl, ?_⟩⟩
    rintro (he | ⟨k, u, hu, -⟩)
    · exact he
    · exact absurd hu (by simp)
  | cons u rest ih =>
    obtain ⟨hu, hrest⟩ := List.forall_mem_cons.mp h
    obtain ⟨graph', heq, hstart, hedges⟩ := @ih (t + 1)
      { start := some t :: graph.start, edges := addDeps head t graph.edges u.types } hrest
    refine ⟨graph', ?_, ?_, fun e => ?_⟩
    · rw [addTypes, addTypeDep_typed hu, Option.bind_some, heq]
    · rw [hstart, List.length_cons, List.range'_succ, List.map_cons, List.reverse_cons,
        List.append_assoc]
      rfl
    · rw [hedges, mem_addDeps, or_assoc]
      refine or_congr Iff.rfl ⟨?_, ?_⟩
      · rintro (⟨name, hname, hbuilt, he⟩ | ⟨k, v, hv, name, hname, hbuilt, he⟩)
        · exact ⟨0, u, rfl, name, hname, hbuilt, he⟩
        · refine ⟨k + 1, v, hv, name, hname, hbuilt, ?_⟩
          rw [he, Nat.add_right_comm, Nat.add_assoc]
      · rintro ⟨k, v, hv, name, hname, hbuilt, he⟩
        cases k with
        | zero =>
          obtain rfl := Option.some.inj hv
          exact Or.inl ⟨name, hname, hbuilt, he⟩
        | succ k =>
          refine Or.inr ⟨k, v, hv, name, hname, hbuilt, ?_⟩
          rw [he, Nat.add_right_comm, Nat.add_assoc]

theorem addTypes_untyped (h : ∃ u ∈ rest, ¬u.Typed) : addTypes head t rest graph = none := by
  induction rest generalizing t graph with
  | nil =>
    obtain ⟨u, hu, -⟩ := h
    exact absurd hu List.not_mem_nil
  | cons u rest ih =>
    rw [addTypes]
    by_cases hu : u.Typed
    · rw [addTypeDep_typed hu, Option.bind_some]
      rw [List.exists_mem_cons_iff] at h
      exact ih (h.resolve_left (not_not_intro hu))
    · rw [addTypeDep_untyped hu, Option.bind_none]

end

/-! ## Sorting -/

section
variable {S : AcyclicSchema} {graph : Graph (Option ℕ)}

theorem findByName_lt {Attr : Type} {head : List (SchemaType Attr)} {name : CString} {j : ℕ}
    (h : findByName head name = some j) : j < head.length :=
  (List.findIdx?_eq_some_iff_getElem.mp h).1

/-- The edges of a graph that is built are the dependences. -/
theorem AcyclicSchema.mem_edges (hedges : ∀ e, e ∈ graph.edges ↔ ∃ k u, S.types[k]? = some u ∧
      ∃ name ∈ u.types, builtIn name = false ∧ e = (some k, findByName S.types name))
    {e : Option ℕ × Option ℕ} :
    e ∈ graph.edges ↔ ∃ i j, Depends S.types i j ∧ e = (some i, some j) := by
  rw [hedges]
  constructor
  · rintro ⟨i, u, hu, name, hname, hbuilt, he⟩
    have hfound := S.defined u (List.mem_of_getElem? hu) name hname hbuilt
    obtain ⟨j, hj⟩ := Option.ne_none_iff_exists'.mp hfound
    exact ⟨i, j, ⟨u, hu, name, hname, hbuilt, hj⟩, hj ▸ he⟩
  · rintro ⟨i, j, ⟨u, hu, name, hname, hbuilt, hj⟩, he⟩
    exact ⟨i, u, hu, name, hname, hbuilt, hj.symm ▸ he⟩

theorem AcyclicSchema.mem_nodes {m : Option ℕ} :
    m ∈ S.nodes ↔ ∃ i, i < S.types.length ∧ m = some i := by
  rw [AcyclicSchema.nodes, List.mem_map]
  constructor
  · rintro ⟨i, hi, rfl⟩
    exact ⟨i, List.mem_range.mp hi, rfl⟩
  · rintro ⟨i, hi, rfl⟩
    exact ⟨i, List.mem_range.mpr hi, rfl⟩

theorem AcyclicSchema.nodup_nodes : S.nodes.Nodup :=
  List.Nodup.map (Option.some_injective ℕ) List.nodup_range

theorem Depends.lt {head : List (SchemaType (List AttrDecl))} {i j : ℕ} (h : Depends head i j) :
    i < head.length ∧ j < head.length := by
  obtain ⟨u, hu, name, -, -, hj⟩ := h
  exact ⟨(List.getElem?_eq_some_iff.mp hu).1, findByName_lt hj⟩

/-- The graph of an acyclic schema is as `top_sort` needs it. -/
theorem AcyclicSchema.proper (hstart : graph.start = S.nodes.reverse)
    (hedges : ∀ e, e ∈ graph.edges ↔ ∃ i j, Depends S.types i j ∧ e = (some i, some j)) :
    graph.deleteBases.Proper S.nodes where
  nodup := S.nodup_nodes
  inside e he := by
    obtain ⟨i, j, hdep, rfl⟩ := (hedges e).mp he
    exact ⟨mem_nodes.mpr ⟨i, hdep.lt.1, rfl⟩, mem_nodes.mpr ⟨j, hdep.lt.2, rfl⟩⟩
  start_nodup := by
    refine foldl_erase_nodup ?_
    rw [hstart]
    exact List.nodup_reverse.mpr S.nodup_nodes
  start m := by
    refine (mem_foldl_erase ?_).trans ?_
    · rw [hstart]
      exact List.nodup_reverse.mpr S.nodup_nodes
    · rw [hstart, List.mem_reverse]
      exact Iff.rfl
  acyclic m hm := by
    have hedge : ∀ {a b}, (a, b) ∈ graph.edges → Depends S.types (a.getD 0) (b.getD 0) := by
      intro a b hab
      obtain ⟨i, j, hdep, heq⟩ := (hedges (a, b)).mp hab
      obtain ⟨rfl, rfl⟩ := Prod.mk.inj heq
      exact hdep
    have hlift : ∀ {a b}, Relation.TransGen (fun a b => (a, b) ∈ graph.edges) a b →
        Relation.TransGen (Depends S.types) (a.getD 0) (b.getD 0) := by
      intro a b h
      induction h with
      | single hab => exact Relation.TransGen.single (hedge hab)
      | tail _ hbc ih => exact ih.tail (hedge hbc)
    exact S.acyclic (m.getD 0) (hlift hm)

/-- **The types are sorted** where each element that has a name has a type, and each attribute. -/
theorem sorted_iff (S : AcyclicSchema) : S.Sorted ↔ ∀ u ∈ S.types, u.Typed := by
  constructor
  · rintro ⟨graph, l, hbuild, -⟩
    by_contra hall
    push Not at hall
    rw [buildGraph, addTypes_untyped hall] at hbuild
    exact absurd hbuild (by simp)
  · intro htyped
    obtain ⟨graph, hadd, hstart, hedges⟩ := @addTypes_typed S.types 0 S.types {} htyped
    have hdeps : ∀ e, e ∈ graph.edges ↔ ∃ i j, Depends S.types i j ∧ e = (some i, some j) := by
      intro e
      refine AcyclicSchema.mem_edges fun e => ?_
      rw [hedges]
      simp
    have hnodes : graph.start = S.nodes.reverse := by
      rw [hstart, List.append_nil, AcyclicSchema.nodes, List.range_eq_range']
    obtain ⟨l, hsort, hperm, horder⟩ := topSort_spec (AcyclicSchema.proper hnodes hdeps)
    refine ⟨graph.deleteBases, l, ?_, ?_, hperm, fun i j hdep => ?_⟩
    · rw [buildGraph, hadd, Option.map_some]
    · rwa [AcyclicSchema.nodes, List.length_map, List.length_range] at hsort
    · exact horder _ _ ((hdeps _).mpr ⟨i, j, hdep, rfl⟩)

end

/-- A type with an element `x` of an anonymous type. -/
def inlineSchema : AcyclicSchema where
  types := [
    { name := some [0x54], part := .group (.element (some [0x78]) none .nil) .nil, attr := [] },
    { name := none, attr := [] }]
  defined u hu name hname := by
    rcases List.mem_cons.mp hu with rfl | hu
    · exact absurd hname List.not_mem_nil
    · obtain rfl := List.mem_singleton.mp hu
      exact absurd hname List.not_mem_nil
  acyclic i hi := by
    obtain ⟨j, hdep, -⟩ := Relation.TransGen.head'_iff.mp hi
    obtain ⟨u, hu, name, hname, -⟩ := hdep
    rcases List.mem_cons.mp (List.mem_of_getElem? hu) with rfl | hu
    · exact absurd hname List.not_mem_nil
    · obtain rfl := List.mem_singleton.mp hu
      exact absurd hname List.not_mem_nil

theorem not_sorted : ¬inlineSchema.Sorted := by
  rintro ⟨graph, l, hbuild, -⟩
  cases hbuild

end SeClient
