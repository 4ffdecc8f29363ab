import SeClient.TableRows
import SeClient.XmlDriver

/-!
# What the printed tables say

A describable document is printed as a table that the parsers can work with, and the table says
of each type what the document says: its attributes, the elements of its base types and its own.
-/

namespace SeClient

theorem forall₂_of_mapM {α β : Type*} {f : α → Option β} {l : List α} {l' : List β}
    (h : l.mapM f = some l') : List.Forall₂ (fun a b => f a = some b) l l' := by
  induction l generalizing l' with
  | nil =>
    obtain rfl : [] = l' := by simpa using h
    exact .nil
  | cons a l ih =>
    simp only [List.mapM_cons, Option.bind_eq_bind, Option.pure_def, Option.bind_eq_some_iff,
      Option.some.injEq] at h
    obtain ⟨b, hb, bs, hbs, rfl⟩ := h
    exact .cons hb (ih hbs)

theorem getElem?_of_forall₂ {α β : Type*} {r : α → β → Prop} {l : List α} {l' : List β}
    (h : List.Forall₂ r l l') {k : ℕ} {a : α} (ha : l[k]? = some a) :
    ∃ b, l'[k]? = some b ∧ r a b := by
  obtain ⟨hk, rfl⟩ := List.getElem?_eq_some_iff.1 ha
  have hk' : k < l'.length := h.length_eq ▸ hk
  exact ⟨l'[k], List.getElem?_eq_getElem hk', h.get hk hk'⟩

namespace SchemaDoc
variable {doc : SchemaDoc} {layout : Layout} {tables : Tables} {fuel : ℕ} {sorted : List ℕ}
  {S : Schema}

/-! ## The parts of the table -/

theorem Indexed.entries {index : ℕ} (h : Indexed doc fuel tables sorted index) {i : ℕ}
    (hi : i ∈ sorted) {t : GenType} (ht : doc.types[i]? = some t) (hcomplex : t.isComplex = true) :
    ∃ seen, Earlier seen tables ∧ doc.genSchemaEntries seen fuel t = some (tables.entries i) := by
  induction sorted generalizing index with
  | nil => exact absurd hi List.not_mem_nil
  | cons j sorted ih =>
    obtain ⟨u, hu, h⟩ := h
    rcases List.mem_cons.1 hi with rfl | hi
    · obtain rfl : t = u := Option.some.inj (ht.symm.trans hu)
      rw [if_pos hcomplex] at h
      exact h.2.1
    · split at h
      · exact ih h.2.2 hi
      · exact ih h hi

/-- What is printed for a global element. -/
theorem printElement_spec {e : ElementDecl} {row : SchemaElement}
    (h : doc.printElement tables fuel e = some row) :
    (row.n = 0 ∧ row.min = 1 ∧ row.max = 1 ∧ row.isAttribute = false ∧ row.unbounded = false) ∧
      ∃ prim, doc.xsPrimitive fuel e.type 0 = some prim ∧
        (prim.1 ≠ .null → row.simple = true ∧ row.xsType = prim.1 ∧
          row.xsLength = prim.2 % 2 ^ 12) ∧
        (prim.1 = .null → row.simple = false ∧ doc.getIndex tables e.type = some row.index) := by
  unfold printElement at h
  rw [Option.bind_eq_some_iff] at h
  obtain ⟨prim, hprim, h⟩ := h
  split at h
  · rename_i hp
    obtain rfl := Option.some.inj h
    exact ⟨⟨rfl, rfl, rfl, rfl, rfl⟩, prim, hprim, fun _ => ⟨rfl, rfl, rfl⟩, fun h => absurd h hp⟩
  · rename_i hp
    obtain ⟨index, hindex, rfl⟩ := Option.map_eq_some_iff.1 h
    exact ⟨⟨rfl, rfl, rfl, rfl, rfl⟩, prim, hprim, fun h => absurd h hp, fun _ => ⟨rfl, hindex⟩⟩

/-- The parts of the table that is printed. -/
structure Parts (doc : SchemaDoc) (layout : Layout) (fuel : ℕ) (sorted : List ℕ) (S : Schema)
    (tables : Tables) (globals rows : List SchemaElement) : Prop where
  length : S.length = doc.elements.length
  elements : S.elements = globals ++ rows
  names : S.names = doc.printNames tables sorted
  ids : S.ids = doc.printIds tables S.names sorted
  indexed : Indexed doc fuel tables sorted doc.elements.length
  globals : List.Forall₂ (fun e row => doc.printElement tables fuel e = some row) doc.elements
    globals
  placed : Placed doc layout tables sorted doc.elements.length rows
  types : doc.printTypes layout tables sorted = some rows

theorem Indexed.made {index : ℕ} (hindexed : Indexed doc fuel tables sorted index) {i : ℕ}
    (hi : i ∈ sorted) {t : GenType} (ht : doc.types[i]? = some t) (hcomplex : t.isComplex = true) :
    ∀ te ∈ tables.entries i, Made doc te := by
  obtain ⟨seen, -, hentries⟩ := hindexed.entries hi ht hcomplex
  exact genSchemaEntries_made (List.mem_of_getElem? ht) hentries

theorem printSchema_parts (hdoc : doc.Describable fuel sorted)
    (h : doc.printSchema layout fuel sorted = some S) :
    ∃ tables globals rows, Parts doc layout fuel sorted S tables globals rows := by
  simp only [printSchema, Option.bind_eq_some_iff, Option.map_eq_some_iff] at h
  obtain ⟨tables, htables, globals, hglobals, rows, hrows, rfl⟩ := h
  have hindexed := (genSchemaElements_spec hdoc.nodup (fun _ _ => rfl) htables).1
  refine ⟨tables, globals, rows, rfl, rfl, rfl, rfl, hindexed, forall₂_of_mapM hglobals, ?_, hrows⟩
  refine printTypes_spec hindexed (fun i hi t ht hcomplex => ⟨hdoc.named i hi t ht hcomplex, ?_,
    ?_⟩) hrows
  · exact fun te hte => (hdoc.made (hindexed.made hi ht hcomplex te hte)).1
  · obtain ⟨seen, -, hentries⟩ := hindexed.entries hi ht hcomplex
    obtain ⟨declared, hdeclared, hall⟩ := genSchemaEntries_declarations hentries
    rw [← hall.length_eq]
    exact hdoc.small i hi t ht hcomplex declared hdeclared

section
variable {globals rows : List SchemaElement}

theorem Parts.element_global (hparts : Parts doc layout fuel sorted S tables globals rows)
    {k : ℕ} (hk : k < S.length) : ∃ e, doc.elements[k]? = some e ∧
    doc.printElement tables fuel e = some (S.element k) := by
  have hlength : globals.length = S.length := by rw [hparts.length, hparts.globals.length_eq]
  have hkD : k < doc.elements.length := hparts.length ▸ hk
  have hkG : k < globals.length := hlength ▸ hk
  refine ⟨doc.elements[k], List.getElem?_eq_getElem hkD, ?_⟩
  have hrow := hparts.globals.get hkD hkG
  have hk : S.element k = globals[k] := by
    unfold Schema.element
    rw [hparts.elements, List.getD_eq_getElem?_getD, List.getElem?_append_left hkG,
      List.getElem?_eq_getElem hkG, Option.getD_some]
  rw [hk]
  exact hrow

theorem Parts.drop (hparts : Parts doc layout fuel sorted S tables globals rows) {k : ℕ}
    (hk : S.length ≤ k) : S.elements.drop k = rows.drop (k - S.length) := by
  have hlength : globals.length = S.length := by rw [hparts.length, hparts.globals.length_eq]
  rw [hparts.elements, List.drop_append, List.drop_eq_nil_of_le (hlength ▸ hk), hlength,
    List.nil_append]

theorem element_eq_head (k : ℕ) : S.element k = (S.elements.drop k).head?.getD {} := by
  unfold Schema.element
  rw [List.head?_drop, List.getD_eq_getElem?_getD]

/-- A row behind those of the global elements. -/
theorem Parts.element_mem (hparts : Parts doc layout fuel sorted S tables globals rows) {k : ℕ}
    (hk : S.length ≤ k) : S.element k ∈ rows ∨ S.element k = {} := by
  rw [element_eq_head, hparts.drop hk, List.head?_drop]
  cases hrow : rows[k - S.length]? with
  | none => exact Or.inr rfl
  | some row => exact Or.inl (List.mem_of_getElem? hrow)

/-- A row with a number of productions is that of an entry. -/
theorem Parts.entry (hparts : Parts doc layout fuel sorted S tables globals rows)
    {k : ℕ} (hk : S.length ≤ k) (hn : (S.element k).n ≠ 0) : ∃ te parent n, Made doc te ∧ n ≠ 0 ∧
      doc.printSchemaElement layout tables parent te n = some (S.element k) := by
  rcases hparts.element_mem hk with hmem | hdefault
  · obtain ⟨i, hi, t, ht, hcomplex, te, hte, parent, n, hne, hrow⟩ :=
      hparts.placed.entries _ hmem hn
    exact ⟨te, parent, n, hparts.indexed.made hi ht hcomplex te hte, hne, hrow⟩
  · rw [hdefault] at hn
    exact absurd rfl hn

/-- The row of a global element. -/
theorem Parts.element_lt (hparts : Parts doc layout fuel sorted S tables globals rows) {k : ℕ}
    (hk : k < S.length) : (S.element k).n = 0 ∧ (S.element k).min = 1 ∧ (S.element k).max = 1 ∧
      (S.element k).isAttribute = false ∧ (S.element k).unbounded = false := by
  obtain ⟨e, -, hrow⟩ := hparts.element_global hk
  exact (printElement_spec hrow).1

/-- The head of a type. -/
theorem Parts.element_head (hparts : Parts doc layout fuel sorted S tables globals rows) {k : ℕ}
    (hk : S.length ≤ k) (hn : (S.element k).n = 0) :
    S.element k = { offset := (S.element k).offset, index := (S.element k).index } := by
  rcases hparts.element_mem hk with hmem | hdefault
  · exact hparts.placed.heads _ hmem hn
  · rw [hdefault]

/-- The index of a type that has a place in the table. -/
theorem Parts.index (hparts : Parts doc layout fuel sorted S tables globals rows)
    (hfits : S.elements.length ≤ 2 ^ 16) {i : ℕ} (hi : i ∈ sorted) {t : GenType}
    (ht : doc.types[i]? = some t) (hcomplex : t.isComplex = true) :
    S.length ≤ tables.index i ∧ tables.index i < 2 ^ 16 := by
  obtain ⟨k, head, entries, rest, hindex, hdrop, -⟩ := hparts.placed.types i hi t ht hcomplex
  have hk : k < rows.length := by
    by_contra hk
    rw [List.drop_eq_nil_of_le (Nat.le_of_not_lt hk)] at hdrop
    simp at hdrop
  have hlength : globals.length = S.length := by rw [hparts.length, hparts.globals.length_eq]
  rw [hparts.elements, List.length_append, hlength] at hfits
  rw [hindex, ← hparts.length]
  omega

theorem Parts.getIndex (hparts : Parts doc layout fuel sorted S tables globals rows)
    (hfits : S.elements.length ≤ 2 ^ 16) {name : CString} (hname : Tabled doc sorted name)
    {index : ℕ} (h : doc.getIndex tables name = some index) :
    ∃ i, doc.find name = some i ∧ index = tables.index i ∧ S.length ≤ index := by
  obtain ⟨i, hfind, rfl⟩ := Option.map_eq_some_iff.1 h
  obtain ⟨hi, t, ht, hcomplex⟩ := hname i hfind
  obtain ⟨hle, hlt⟩ := hparts.index hfits hi ht hcomplex
  refine ⟨i, hfind, Nat.mod_eq_of_lt hlt, ?_⟩
  rw [Nat.mod_eq_of_lt hlt]
  exact hle

end

/-- **The printed tables are tables that the parsers and the outputs can work with.** -/
theorem printed_generated (hdoc : doc.Describable fuel sorted)
    (hprint : doc.printSchema layout fuel sorted = some S) (hfits : S.elements.length ≤ 2 ^ 16) :
    S.Generated := by
  obtain ⟨tables, globals, rows, hparts⟩ := printSchema_parts hdoc hprint
  have hentry : ∀ k, (S.element k).n ≠ 0 → S.length ≤ k ∧ ∃ te parent n, Made doc te ∧ n ≠ 0 ∧
      doc.printSchemaElement layout tables parent te n = some (S.element k) := by
    intro k hn
    by_cases hk : S.length ≤ k
    · exact ⟨hk, hparts.entry hk hn⟩
    · exact absurd (hparts.element_lt (Nat.lt_of_not_le hk)).1 hn
  -- a row is that of a global element, the head of a type or that of an entry
  have hother : ∀ k, (S.element k).n = 0 → (S.element k).isAttribute = false ∧
      (S.element k).min ≤ (S.element k).max := by
    intro k hn
    rcases Nat.lt_or_ge k S.length with hk | hk
    · obtain ⟨-, hmin, hmax, hattribute, -⟩ := hparts.element_lt hk
      exact ⟨hattribute, by rw [hmin, hmax]⟩
    · rw [hparts.element_head hk hn]
      exact ⟨rfl, Nat.le_refl 0⟩
  refine {
    globals := fun k hk => ?_
    root := fun k hk => (hparts.element_lt hk).2
    productions := fun k hn => ?_
    attributes := fun k hattribute => ?_
    bounds := fun k hunbounded => ?_
    heads := fun k hk hn => ?_
    types := fun k hrow hattribute hsimple => ?_ }
  · rcases Nat.lt_or_ge k S.length with hlt | hge
    · exact (hparts.element_lt hlt).1
    · obtain rfl : k = S.length := Nat.le_antisymm hk hge
      rw [element_eq_head, hparts.drop (Nat.le_refl _), Nat.sub_self, List.drop_zero]
      cases hrow : rows.head? with
      | none => rfl
      | some se => exact hparts.placed.headed se hrow
  · obtain ⟨hk, -⟩ := hentry k hn
    have hdrop := hparts.drop hk
    have hcounts := hparts.placed.counts.drop (k - S.length)
    unfold Schema.entries
    rw [hdrop]
    rw [← hdrop] at hcounts ⊢
    refine hcounts.head ?_ hn
    cases hhead : (S.elements.drop k).head? with
    | none =>
      rw [element_eq_head, hhead] at hn
      exact absurd rfl hn
    | some se => rw [element_eq_head, hhead, Option.getD_some]
  · by_cases hn : (S.element k).n = 0
    · rw [(hother k hn).1] at hattribute
      exact Bool.noConfusion hattribute
    · obtain ⟨-, te, parent, n, hmade, -, hrow⟩ := hentry k hn
      obtain ⟨-, hmin, hmax, hunbounded, hattribute', -⟩ :=
        printSchemaElement_spec (hdoc.made hmade).1 hrow
      rw [hmin, hmax, hunbounded]
      obtain ⟨hle, hone, hbounded, -⟩ := (hdoc.made hmade).1.ofAttribute (hattribute' ▸ hattribute)
      exact ⟨hle, hone, hbounded⟩
  · by_cases hn : (S.element k).n = 0
    · exact (hother k hn).2
    · obtain ⟨-, te, parent, n, hmade, -, hrow⟩ := hentry k hn
      obtain ⟨-, hmin, hmax, hunbounded', -⟩ := printSchemaElement_spec (hdoc.made hmade).1 hrow
      rw [hmin, hmax]
      exact (hdoc.made hmade).1.bounds (hunbounded' ▸ hunbounded)
  · rw [hparts.element_head hk hn]
    exact ⟨rfl, rfl, rfl, rfl⟩
  · by_cases hk : k < S.length
    · obtain ⟨e, he, hrow⟩ := hparts.element_global hk
      obtain ⟨-, prim, hprim, hprimitive, hcomplex⟩ := printElement_spec hrow
      by_cases hp : prim.1 = .null
      · have hname := hdoc.globals e (List.mem_of_getElem? he) prim hprim hp
        obtain ⟨i, -, -, hle⟩ := hparts.getIndex hfits hname (hcomplex hp).2
        exact hle
      · rw [(hprimitive hp).1] at hsimple
        exact Bool.noConfusion hsimple
    · have hn := hrow.resolve_left hk
      obtain ⟨-, te, parent, n, hmade, -, hrow⟩ := hentry k hn
      obtain ⟨-, -, -, -, hattribute', hsimple', hindex⟩ :=
        printSchemaElement_spec (hdoc.made hmade).1 hrow
      have ha : te.se.isAttribute = false := hattribute' ▸ hattribute
      have hs : te.se.simple = false := hsimple' ▸ hsimple
      obtain ⟨name, htype, hname⟩ := (hdoc.made hmade).2 ha hs
      have hindex := hindex ha hs
      rw [htype, Option.bind_some] at hindex
      obtain ⟨i, -, -, hle⟩ := hparts.getIndex hfits hname hindex
      exact hle

/-! ## A document -/

/-- A field of the type `anyURI`. -/
def hrefField : GenField where
  name := chars ['h', 'r', 'e', 'f']
  type := chars ['x', 's', ':', 'a', 'n', 'y', 'U', 'R', 'I']
  prim := .anyURI

/-- The second type extends the first and has a list of its elements. -/
def readingDoc : SchemaDoc where
  types :=
    [{ name := some (chars ['L', 'i', 'n', 'k'])
       isComplex := true
       attr := true
       attributes := [⟨hrefField, true⟩] },
     { name := some (chars ['R', 'e', 'a', 'd', 'i', 'n', 'g'])
       isComplex := true
       base := some (chars ['L', 'i', 'n', 'k'])
       part := .element
         { name := chars ['n'], type := chars ['x', 's', ':', 'l', 'o', 'n', 'g'], prim := .long }
         0 1 (.group (.element
           { name := chars ['l'], type := chars ['L', 'i', 'n', 'k'] } 0 (-1) .nil) .nil)
       attributes := [⟨hrefField, true⟩] }]
  elements := [⟨chars ['r'], chars ['R', 'e', 'a', 'd', 'i', 'n', 'g']⟩]

theorem readingDoc_describable : readingDoc.Describable 2 [0, 1] where
  nodup := by decide
  named := by decide
  small := by decide
  bounds := by decide
  fields := by decide
  globals := by decide

/-- The structures of the types, of which the second begins with the first. -/
def readingLayout : Layout where
  size name := if name = chars ['L', 'i', 'n', 'k'] then 8 else 24
  offset _ name :=
    if name = chars ['l'] then 16 else if name = chars ['n'] then 8 else 0

theorem readingDoc_fits : ∀ S, readingDoc.printSchema readingLayout 2 [0, 1] = some S →
    S.elements.length ≤ 2 ^ 16 := by decide

theorem readingDoc_generated :
    ∃ S, readingDoc.printSchema readingLayout 2 [0, 1] = some S ∧ S.Generated := by
  have hsome : (readingDoc.printSchema readingLayout 2 [0, 1]).isSome = true := by decide
  obtain ⟨S, hS⟩ := Option.isSome_iff_exists.1 hsome
  exact ⟨S, hS, printed_generated readingDoc_describable hS (readingDoc_fits S hS)⟩

/-! ## What the document says of a type -/

/-- How often a declaration allows an entry to occur, and of what type it is, where the head of the
type number `i` is at `place i`. -/
def Declaration.Occurs (doc : SchemaDoc) (place : ℕ → ℕ) (row : SchemaElement) :
    Declaration → Prop
  | .ofAttribute a => row.isAttribute = true ∧ row.min = (if a.optional then 0 else 1) ∧
      row.max = 1 ∧ row.unbounded = false ∧ row.xsType = a.field.prim ∧
      row.xsLength = a.field.length % 2 ^ 12
  | .ofElement f min max => row.isAttribute = false ∧ (row.min : ℤ) = min ∧
      (row.unbounded = true ↔ max < 0) ∧ (0 ≤ max → (row.max : ℤ) = max) ∧
      (f.prim ≠ .null → row.simple = true ∧ row.xsType = f.prim ∧
        row.xsLength = f.length % 2 ^ 12) ∧
      (f.prim = .null → row.simple = false ∧ ∃ i, doc.find f.type = some i ∧ row.index = place i)

/-- The row `row` describes the declaration `d` of the type `parent`.  The flag is there where the
entry need not be as often as it can be, unless `print_schema_element` takes it for a pointer. -/
structure Describes (doc : SchemaDoc) (layout : Layout) (place : ℕ → ℕ) (parent : Option CString)
    (d : Declaration) (row : SchemaElement) : Prop where
  occurs : d.Occurs doc place row
  offset : ∀ type, parent = some type → (row.xsType = .boolean → row.xsLength ≠ 0) →
    row.offset = layout.offset type d.field.name % 2 ^ 16
  bit : (row.min < row.max ∧ row.readsPointer = false) ∨ (row.xsType = .boolean ∧ row.xsLength = 0) →
    row.bit = d.field.bit % 2 ^ 5

/-! ## The entries are the declarations -/

/-- The elements of a type are fields of the types of the document. -/
theorem contents_mem {t : GenType} {elements : List (GenField × ℤ × ℤ)} (ht : t ∈ doc.types)
    (h : doc.contents fuel t = some elements) :
    ∀ x ∈ elements, ∃ t ∈ doc.types, x ∈ t.part.elements := by
  induction fuel generalizing t elements with
  | zero => simp [contents] at h
  | succ fuel ih =>
    simp only [contents, Option.map_eq_some_iff] at h
    obtain ⟨inherited, hinherited, rfl⟩ := h
    intro x hx
    rcases List.mem_append.1 hx with hx | hx
    · cases hb : t.base with
      | none =>
        rw [hb] at hinherited
        obtain rfl : [] = inherited := by simpa using hinherited
        exact absurd hx List.not_mem_nil
      | some base =>
        rw [hb] at hinherited
        simp only [Option.elim_some, Option.bind_eq_some_iff] at hinherited
        obtain ⟨u, ⟨i, -, hu⟩, hinherited⟩ := hinherited
        exact ih (List.mem_of_getElem? hu) hinherited x hx
    · split at hx
      · exact absurd hx List.not_mem_nil
      · exact ⟨t, ht, hx⟩

/-- The number of a type that has a place is not cut off. -/
abbrev Fits (doc : SchemaDoc) (tables : Tables) (sorted : List ℕ) : Prop :=
  ∀ name, Tabled doc sorted name → ∀ index, doc.getIndex tables name = some index →
    ∃ i, doc.find name = some i ∧ index = tables.index i

/-- An index that was there before is the one that is printed. -/
theorem Earlier.getIndex {seen : ℕ → ℕ} (h : Earlier seen tables) (name : CString) :
    ((doc.find name).map fun i => seen i % 2 ^ 16).getD 0 = 0 ∨
      doc.getIndex tables name =
        some (((doc.find name).map fun i => seen i % 2 ^ 16).getD 0) := by
  unfold SchemaDoc.getIndex
  cases doc.find name with
  | none => exact Or.inl rfl
  | some i =>
    simp only [Option.map_some, Option.getD_some]
    rcases h i with hzero | hsame
    · exact Or.inl (by rw [hzero, Nat.zero_mod])
    · exact Or.inr (by rw [hsame])

/-- The type, the offset and the flag that are printed for an entry. -/
theorem printSchemaElement_fields {parent : Option CString} {te : TableEntry} {n : ℕ}
    {row : SchemaElement} (hte : te.Proper)
    (hnull : te.se.isAttribute = false → te.se.simple = false → te.se.xsType = .null ∧
      (te.se.index = 0 ∨ te.type.bind (doc.getIndex tables) = some te.se.index))
    (h : doc.printSchemaElement layout tables parent te n = some row) :
    row.xsType = te.se.xsType ∧
      (te.se.isAttribute = true ∨ te.se.simple = true → row.xsLength = te.se.xsLength) ∧
      (∀ type, parent = some type → (row.xsType = .boolean → row.xsLength ≠ 0) →
        row.offset = layout.offset type te.name % 2 ^ 16) ∧
      ((row.min < row.max ∧ row.readsPointer = false) ∨
        (row.xsType = .boolean ∧ row.xsLength = 0) → row.bit = te.se.bit) := by
  obtain ⟨-, hmin, hmax, -⟩ := printSchemaElement_spec hte h
  rw [hmin, hmax]
  unfold printSchemaElement at h
  cases hattribute : te.se.isAttribute with
  | true =>
    obtain ⟨-, hone, -⟩ := hte.ofAttribute hattribute
    simp only [hattribute, Bool.or_true, if_true, Option.some.injEq] at h
    subst h
    refine ⟨rfl, fun _ => rfl, fun type htype hboolean => ?_, fun hbit => ?_⟩
    · rw [htype]
      have hno : ¬(te.se.xsType = .boolean ∧ te.se.xsLength = 0) := fun h => hboolean h.1 h.2
      simp [hno]
    · refine if_pos ?_
      rcases hbit with ⟨hlt, hpointer⟩ | hboolean
      · rw [hone] at hlt
        have hpointer : te.se.readsPointer = false := by
          simp only [SchemaElement.readsPointer, hattribute, Bool.or_true, if_true] at hpointer ⊢
          exact hpointer
        exact Or.inl ⟨Nat.lt_one_iff.1 hlt, by rw [hpointer]; rfl⟩
      · exact Or.inr (by simpa using hboolean)
  | false =>
    cases hsimple : te.se.simple with
    | true =>
      simp only [hattribute, hsimple, Bool.or_false, if_true, Option.some.injEq] at h
      subst h
      refine ⟨rfl, fun _ => rfl, fun type htype hboolean => ?_, fun hbit => ?_⟩
      · rw [htype]
        have hno : ¬(te.se.xsType = .boolean ∧ te.se.xsLength = 0) := fun h => hboolean h.1 h.2
        simp [hno]
      · refine if_pos ?_
        rcases hbit with ⟨hlt, hpointer⟩ | hboolean
        · have hpointer : te.se.readsPointer = false := by
            simp only [SchemaElement.readsPointer, hsimple, Bool.true_or, if_true] at hpointer ⊢
            exact hpointer
          exact Or.inl ⟨hlt, by rw [hpointer]; rfl⟩
        · exact Or.inr ⟨trivial, by simpa using hboolean⟩
    | false =>
      obtain ⟨hnull, hseen⟩ := hnull hattribute hsimple
      simp only [hattribute, hsimple, Bool.or_false, Bool.false_eq_true, if_false,
        Option.map_eq_some_iff] at h
      obtain ⟨index, hindex, rfl⟩ := h
      refine ⟨hnull.symm, fun h => ?_, fun type htype _ => ?_, fun hbit => ?_⟩
      · simp at h
      · rw [htype]
        simp
      · refine if_pos ?_
        rcases hbit with ⟨hlt, hpointer⟩ | hboolean
        · refine Or.inl ⟨hlt, ?_⟩
          simp only [SchemaElement.readsPointer, hsimple, Bool.or_false, Bool.false_eq_true,
            if_false] at hpointer
          have hreads : te.se.readsPointer = (te.se.index = 1 || te.se.index = 4) := by
            rw [SchemaElement.readsPointer, hsimple, hattribute]
            rfl
          rw [hreads]
          rcases hseen with hzero | hseen
          · rw [hzero]
            rfl
          · rw [hindex] at hseen
            rw [← Option.some.inj hseen, hpointer]
            rfl
        · simp at hboolean

/-- What is printed for an entry describes its declaration. -/
theorem Declaration.IsEntry.describes {d : Declaration} {te : TableEntry} {t : GenType}
    {declared : List Declaration} {parent : Option CString} {n : ℕ} {row : SchemaElement}
    (hdoc : doc.Describable fuel sorted) (hfits : Fits doc tables sorted) (ht : t ∈ doc.types)
    (hdeclared : doc.declarations fuel t = some declared) (hd : d ∈ declared) {seen : ℕ → ℕ}
    (hseen : Earlier seen tables) (hte : d.IsEntry doc seen te) (hrow : doc.printSchemaElement layout tables parent te n = some row) :
    te.name = d.field.name ∧ Describes doc layout tables.index parent d row := by
  cases d with
  | ofAttribute a =>
    obtain rfl : te = attributeEntry a := hte
    have hproper := (hdoc.made (Or.inl ⟨a, rfl⟩)).1
    obtain ⟨-, hmin, hmax, hunbounded, hattribute, -⟩ := printSchemaElement_spec hproper hrow
    obtain ⟨htype, hlength, hoffset, hbit⟩ := printSchemaElement_fields hproper
      (fun h => Bool.noConfusion h) hrow
    refine ⟨rfl, ⟨hattribute, ?_, hmax, hunbounded, htype, hlength (Or.inl rfl)⟩, hoffset, hbit⟩
    rw [hmin]
    cases h : a.optional <;> simp [attributeEntry, h]
  | ofElement f min max =>
    simp only [declarations, Option.map_eq_some_iff] at hdeclared
    obtain ⟨elements, helements, rfl⟩ := hdeclared
    have hmem : (f, min, max) ∈ elements := by simpa using hd
    obtain ⟨u, hu, hx⟩ := contents_mem ht helements _ hmem
    obtain ⟨hzero, hlt, hmaximum⟩ := hdoc.bounds u hu _ hx
    have hmade : Made doc te := Or.inr ⟨seen, u, hu, _, hx, hte⟩
    obtain ⟨hproper, htyped⟩ := hdoc.made hmade
    obtain ⟨-, hmin, hmax, hunbounded, hattribute, hsimple, hindex⟩ :=
      printSchemaElement_spec hproper hrow
    have hte : doc.partEntry seen f min max = some te := hte
    unfold partEntry at hte
    split at hte
    · obtain rfl := Option.some.inj hte
      obtain ⟨htype, hlength, hoffset, hbit⟩ := printSchemaElement_fields hproper
        (fun _ h => by
          have hprim : f.prim = .null := by simpa using h
          refine ⟨hprim, ?_⟩
          rw [if_neg (not_not_intro hprim)]
          exact hseen.getIndex f.type) hrow
      refine ⟨rfl, ⟨hattribute, ?_, ?_, fun hbounded => ?_, fun hprim => ?_, fun hprim => ?_⟩,
        hoffset, hbit⟩
      · rw [hmin]
        simp only at hzero hlt ⊢
        omega
      · rw [hunbounded]
        simp
      · rw [hmax]
        have hnot : ¬max < 0 := not_lt.2 hbounded
        obtain ⟨-, hlt⟩ := hmaximum.resolve_left hnot
        simp only [hnot, if_false] at hlt ⊢
        omega
      · rw [hsimple, htype]
        exact ⟨by simpa using hprim, rfl, hlength (Or.inr (by simpa using hprim))⟩
      · obtain ⟨name, htype, hname⟩ := htyped rfl (by simpa using hprim)
        have hindex := hindex rfl (by simpa using hprim)
        rw [htype, Option.bind_some] at hindex
        obtain rfl : f.type = name := Option.some.inj htype
        refine ⟨?_, hfits _ hname _ hindex⟩
        rw [hsimple]
        simpa using hprim
    · simp at hte

/-! ## The names -/

theorem insertQnames_spec (entries qnames : List CString) :
    (entries.foldl insertQname qnames).length ≤ entries.length + qnames.length ∧
      ∀ name, name ∈ entries ∨ name ∈ qnames → name ∈ entries.foldl insertQname qnames := by
  induction entries generalizing qnames with
  | nil => exact ⟨by simp, by simp⟩
  | cons entry entries ih =>
    obtain ⟨hlength, hmem⟩ := ih (insertQname qnames entry)
    have hinsert : (insertQname qnames entry).length ≤ qnames.length + 1 ∧
        ∀ name, name = entry ∨ name ∈ qnames → name ∈ insertQname qnames entry := by
      unfold insertQname
      split
      · rename_i hfound
        have hentry : entry ∈ qnames := by simpa using hfound
        exact ⟨Nat.le_succ _, fun name h => h.elim (fun h => h ▸ hentry) id⟩
      · exact ⟨Nat.le_of_eq List.length_cons, fun name h => List.mem_cons.2 h⟩
    refine ⟨?_, fun name hname => hmem name ?_⟩
    · rw [List.foldl_cons, List.length_cons]
      omega
    · rcases hname with hname | hname
      · rcases List.mem_cons.1 hname with hname | hname
        · exact Or.inr (hinsert.2 name (Or.inl hname))
        · exact Or.inl hname
      · exact Or.inr (hinsert.2 name (Or.inr hname))

/-- The names of the global elements come first, and no name is lost. -/
theorem takeNames_spec (elements : List ElementDecl) (qnames names : List CString) :
    (takeNames elements qnames names).2 = (elements.map (·.name)).reverse ++ names ∧
      (takeNames elements qnames names).1.length ≤ qnames.length ∧
      ∀ name ∈ qnames, name ∈ (takeNames elements qnames names).1 ∨
        name ∈ elements.map (·.name) := by
  induction elements generalizing qnames names with
  | nil => exact ⟨rfl, Nat.le_refl _, fun name h => Or.inl h⟩
  | cons e elements ih =>
    unfold takeNames
    split
    · obtain ⟨hnames, hlength, hmem⟩ := ih (qnames.erase e.name) (e.name :: names)
      refine ⟨?_, hlength.trans List.length_erase_le, fun name hname => ?_⟩
      · rw [hnames]
        simp
      · by_cases he : name = e.name
        · exact Or.inr (by simp [he])
        · rcases hmem name ((List.mem_erase_of_ne he).2 hname) with h | h
          · exact Or.inl h
          · exact Or.inr (List.mem_cons_of_mem _ h)
    · obtain ⟨hnames, hlength, hmem⟩ := ih qnames (e.name :: names)
      refine ⟨?_, hlength, fun name hname => ?_⟩
      · rw [hnames]
        simp
      · rcases hmem name hname with h | h
        · exact Or.inl h
        · exact Or.inr (List.mem_cons_of_mem _ h)

/-- `se_names` has the names of the global elements and then those of the other entries. -/
theorem printNames_spec (doc : SchemaDoc) (tables : Tables) (sorted : List ℕ) :
    ∃ rest, doc.printNames tables sorted = doc.elements.map (·.name) ++ rest ∧
      rest.length ≤ (doc.allEntries tables sorted).length ∧
      ∀ te ∈ doc.allEntries tables sorted, te.name ∈ doc.printNames tables sorted := by
  obtain ⟨hlength, hmem⟩ := insertQnames_spec ((doc.allEntries tables sorted).map (·.name)) []
  obtain ⟨hnames, hle, hkept⟩ := takeNames_spec doc.elements
    (((doc.allEntries tables sorted).map (·.name)).foldl insertQname []) []
  have hprint : doc.printNames tables sorted = doc.elements.map (·.name) ++ (takeNames doc.elements
      (((doc.allEntries tables sorted).map (·.name)).foldl insertQname []) []).1.reverse := by
    unfold printNames
    simp only
    rw [List.reverse_append, hnames, List.append_nil, List.reverse_reverse]
  refine ⟨_, hprint, ?_, fun te hte => ?_⟩
  · rw [List.length_reverse]
    simp only [List.length_map, List.length_nil, Nat.add_zero] at hlength
    exact hle.trans hlength
  · rw [hprint, List.mem_append, List.mem_reverse]
    have hname := hmem te.name (Or.inl (List.mem_map_of_mem hte))
    exact (hkept _ hname).symm

theorem printEntries_length {parent : Option CString} {entries : List TableEntry}
    {rows : List SchemaElement} (h : doc.printEntries layout tables parent entries = some rows) :
    rows.length = entries.length := by
  induction entries generalizing rows with
  | nil =>
    obtain rfl : [] = rows := by simpa [printEntries] using h
    rfl
  | cons te entries ih =>
    simp only [printEntries, Option.bind_eq_some_iff, Option.map_eq_some_iff] at h
    obtain ⟨row, -, rows, hrows, rfl⟩ := h
    rw [List.length_cons, List.length_cons, ih hrows]

/-- There is a row for each entry, and the last row. -/
theorem printTypes_length {rows : List SchemaElement}
    (h : doc.printTypes layout tables sorted = some rows) :
    (doc.allEntries tables sorted).length < rows.length := by
  induction sorted generalizing rows with
  | nil =>
    obtain rfl : [({} : SchemaElement)] = rows := by simpa [printTypes] using h
    exact Nat.one_pos
  | cons i sorted ih =>
    simp only [printTypes, Option.bind_eq_some_iff] at h
    obtain ⟨t, ht, h⟩ := h
    have hsplit : doc.allEntries tables (i :: sorted) =
        (if t.isComplex then tables.entries i else []) ++ doc.allEntries tables sorted := by
      simp [allEntries, ht]
    rw [hsplit]
    split at h
    · rename_i hcomplex
      simp only [Option.bind_eq_some_iff, Option.map_eq_some_iff] at h
      obtain ⟨block, hblock, rest, hrest, rfl⟩ := h
      have hlt := ih hrest
      have hle : (tables.entries i).length ≤ block.length := by
        simp only [printType, Option.bind_eq_some_iff] at hblock
        obtain ⟨entries, hentries, hblock⟩ := hblock
        rw [← printEntries_length hentries]
        split at hblock
        · obtain rfl := Option.some.inj hblock
          exact Nat.le_refl _
        · obtain ⟨index, -, rfl⟩ := Option.map_eq_some_iff.1 hblock
          exact Nat.le_succ _
      rw [if_pos hcomplex, List.length_append, List.length_append]
      omega
    · rename_i hcomplex
      rw [if_neg hcomplex]
      exact ih h

/-- The numbers of the names of the entries of a type are behind that of its head. -/
theorem printIds_spec (names : List CString) {index : ℕ}
    (hindexed : Indexed doc fuel tables sorted index)
    (hnamed : ∀ i ∈ sorted, ∀ t, doc.types[i]? = some t → t.isComplex = true → t.name ≠ none)
    {i : ℕ} (hi : i ∈ sorted) {t : GenType} (ht : doc.types[i]? = some t)
    (hcomplex : t.isComplex = true) : ∃ k rest, tables.index i = index + k ∧
      (doc.printIds tables names sorted).drop k =
        0 :: ((tables.entries i).map fun te => names.idxOf te.name % 2 ^ 16) ++ rest := by
  induction sorted generalizing index with
  | nil => exact absurd hi List.not_mem_nil
  | cons j sorted ih =>
    obtain ⟨u, hu, hindexed⟩ := hindexed
    have hlater : ∀ l ∈ sorted, _ := fun l hl => hnamed l (List.mem_cons_of_mem j hl)
    have hcons : doc.printIds tables names (j :: sorted) =
        (if u.isComplex then u.name.toList.map (fun _ => 0) ++
          (tables.entries j).map fun te => names.idxOf te.name % 2 ^ 16
        else []) ++ doc.printIds tables names sorted := by
      simp [printIds, hu]
    cases hu' : u.isComplex with
    | false =>
      rw [if_neg (Bool.eq_false_iff.1 hu')] at hindexed
      rw [hu', if_neg Bool.false_ne_true, List.nil_append] at hcons
      rcases List.mem_cons.1 hi with rfl | hi
      · obtain rfl : t = u := Option.some.inj (ht.symm.trans hu)
        rw [hcomplex] at hu'
        exact Bool.noConfusion hu'
      · rw [hcons]
        exact ih hindexed hlater hi
    | true =>
      rw [if_pos hu'] at hindexed
      rw [hu', if_pos rfl] at hcons
      obtain ⟨hindex, -, hindexed⟩ := hindexed
      obtain ⟨name, hname⟩ := Option.ne_none_iff_exists'.1 (hnamed j List.mem_cons_self u hu hu')
      rw [hname] at hcons hindexed
      rcases List.mem_cons.1 hi with rfl | hi
      · exact ⟨0, doc.printIds tables names sorted, hindex, hcons⟩
      · obtain ⟨k, rest, hk, hdrop⟩ := ih hindexed hlater hi
        refine ⟨1 + (tables.entries j).length + k, rest, ?_, ?_⟩
        · rw [hk]
          simp only [Option.toList_some, List.length_singleton]
          omega
        · rw [hcons, ← List.drop_drop]
          rw [List.drop_left' (by simp [Nat.add_comm]), hdrop]

/-! ## The table as a whole -/

/-- The row of a global element says of what type it is. -/
def DescribesGlobal (doc : SchemaDoc) (fuel : ℕ) (place : ℕ → ℕ) (e : ElementDecl)
    (row : SchemaElement) : Prop :=
  row.min = 1 ∧ row.max = 1 ∧ ∃ prim, doc.xsPrimitive fuel e.type 0 = some prim ∧
    (prim.1 ≠ .null → row.simple = true ∧ row.xsType = prim.1 ∧ row.xsLength = prim.2 % 2 ^ 12) ∧
    (prim.1 = .null → row.simple = false ∧ ∃ i, doc.find e.type = some i ∧ row.index = place i)

/-- The table describes the type `t`, with its head at `place i`. -/
structure DescribesType (doc : SchemaDoc) (layout : Layout) (fuel : ℕ) (S : Schema)
    (place : ℕ → ℕ) (i : ℕ) (t : GenType) : Prop where
  head : (S.element (place i)).n = 0
  size : ∀ name, t.name = some name →
    (S.element (place i)).offset = layout.size name % 2 ^ 16
  base : ∀ base, t.base = some base → ∀ j, doc.find base = some j →
    (S.element (place i)).index = place j % 2 ^ 16
  entries : ∃ declared, doc.declarations fuel t = some declared ∧
    (S.entries (place i + 1)).length = declared.length ∧
    ∀ k d, declared[k]? = some d → S.nameOf (place i + 1 + k) = d.field.name ∧
      Describes doc layout place t.name d (S.element (place i + 1 + k))

theorem Parts.names_length {globals rows : List SchemaElement}
    (hparts : Parts doc layout fuel sorted S tables globals rows) :
    S.names.length < S.elements.length := by
  obtain ⟨rest, hnames, hrest, -⟩ := printNames_spec doc tables sorted
  have hlt := printTypes_length hparts.types
  rw [hparts.names, hnames, hparts.elements, List.length_append, List.length_append,
    List.length_map, ← hparts.globals.length_eq]
  omega

theorem Parts.nameOf_global {globals rows : List SchemaElement}
    (hparts : Parts doc layout fuel sorted S tables globals rows) {k : ℕ} {e : ElementDecl}
    (he : doc.elements[k]? = some e) : S.nameOf k = e.name := by
  obtain ⟨rest, hnames, -⟩ := printNames_spec doc tables sorted
  obtain ⟨hk, -⟩ := List.getElem?_eq_some_iff.1 he
  unfold Schema.nameOf Schema.seName
  rw [if_pos (hparts.length ▸ hk), hparts.names, hnames, List.getD_eq_getElem?_getD,
    List.getElem?_append_left (by simpa using hk), List.getElem?_map, he]
  rfl

theorem Parts.nameOf_entry {globals rows : List SchemaElement}
    (hparts : Parts doc layout fuel sorted S tables globals rows)
    (hdoc : doc.Describable fuel sorted) (hfits : S.elements.length ≤ 2 ^ 16) {i : ℕ} (hi : i ∈ sorted) {t : GenType}
    (ht : doc.types[i]? = some t) (hcomplex : t.isComplex = true) {k : ℕ} {te : TableEntry}
    (hte : (tables.entries i)[k]? = some te) : S.nameOf (tables.index i + 1 + k) = te.name := by
  obtain ⟨l, rest, hindex, hdrop⟩ := printIds_spec S.names hparts.indexed hdoc.named hi
    ht hcomplex
  obtain ⟨-, -, -, hmem⟩ := printNames_spec doc tables sorted
  have hname : te.name ∈ S.names := by
    rw [hparts.names]
    refine hmem te ?_
    unfold allEntries
    rw [List.mem_flatMap]
    refine ⟨i, hi, ?_⟩
    rw [ht, Option.any_some, if_pos hcomplex]
    exact List.mem_of_getElem? hte
  have hlt : S.names.idxOf te.name < S.names.length := List.idxOf_lt_length_of_mem hname
  have hid : S.ids.getD (l + 1 + k) 0 = S.names.idxOf te.name := by
    have hk : (S.ids.drop l)[1 + k]? = some (S.names.idxOf te.name % 2 ^ 16) := by
      rw [hparts.ids, hdrop, List.cons_append, Nat.add_comm 1, List.getElem?_cons_succ,
        List.getElem?_append_left, List.getElem?_map, hte]
      · rfl
      · rw [List.length_map]
        exact (List.getElem?_eq_some_iff.1 hte).1
    rw [List.getElem?_drop, ← Nat.add_assoc] at hk
    rw [List.getD_eq_getElem?_getD, hk, Option.getD_some]
    have hnames := hparts.names_length
    exact Nat.mod_eq_of_lt (by omega)
  unfold Schema.nameOf Schema.seName
  have hplace : tables.index i + 1 + k = S.length + (l + 1 + k) := by
    rw [hindex, hparts.length]
    omega
  rw [hplace, if_neg (by omega), Nat.add_sub_cancel_left, hid, List.getD_eq_getElem?_getD,
    List.getElem?_eq_getElem hlt, Option.getD_some, List.getElem_idxOf]

/-- **The printed table says what the document says**: each type has a place, where its head is and
behind it a row for each of its declarations, with their names, and the rows lead to the places of
their types. -/
theorem printed_describes (hdoc : doc.Describable fuel sorted)
    (hprint : doc.printSchema layout fuel sorted = some S) (hfits : S.elements.length ≤ 2 ^ 16) :
    ∃ place : ℕ → ℕ,
      (∀ k e, doc.elements[k]? = some e → S.nameOf k = e.name ∧
        DescribesGlobal doc fuel place e (S.element k)) ∧
      ∀ i ∈ sorted, ∀ t, doc.types[i]? = some t → t.isComplex = true →
        DescribesType doc layout fuel S place i t := by
  obtain ⟨tables, globals, rows, hparts⟩ := printSchema_parts hdoc hprint
  have hplaces : Fits doc tables sorted := by
    intro name hname index hindex
    obtain ⟨i, hfind, hi, -⟩ := hparts.getIndex hfits hname hindex
    exact ⟨i, hfind, hi⟩
  refine ⟨tables.index, fun k e he => ⟨hparts.nameOf_global he, ?_⟩, fun i hi t ht hcomplex => ?_⟩
  · have hk : k < S.length := by
      rw [hparts.length]
      exact (List.getElem?_eq_some_iff.1 he).1
    obtain ⟨e', he', hrow⟩ := hparts.element_global hk
    obtain rfl : e = e' := Option.some.inj (he.symm.trans he')
    obtain ⟨⟨-, hmin, hmax, -⟩, prim, hprim, hsimple, hcomplex⟩ := printElement_spec hrow
    refine ⟨hmin, hmax, prim, hprim, hsimple, fun hp => ⟨(hcomplex hp).1, ?_⟩⟩
    have hname := hdoc.globals e (List.mem_of_getElem? he) prim hprim hp
    exact hplaces e.type hname _ (hcomplex hp).2
  · obtain ⟨k, head, entries, rest, hindex, hdrop, ⟨name, index, hname, hbase, hhead⟩, hprinted,
      hrest⟩ := hparts.placed.types i hi t ht hcomplex
    obtain ⟨seen, hseen, hmade⟩ := hparts.indexed.entries hi ht hcomplex
    obtain ⟨declared, hdeclared, hentries⟩ := genSchemaEntries_declarations hmade
    have hplace : S.elements.drop (tables.index i) = head :: (entries ++ rest) := by
      rw [hparts.drop (by rw [hindex, hparts.length]; omega), hindex, hparts.length,
        Nat.add_sub_cancel_left, hdrop]
    have hheadAt : S.element (tables.index i) = head := by
      rw [element_eq_head, hplace]
      rfl
    have hbehind : S.elements.drop (tables.index i + 1) = entries ++ rest := by
      rw [← List.drop_drop, hplace, List.drop_succ_cons, List.drop_zero]
    have hproper : ∀ te ∈ tables.entries i, te.Proper := fun te hte =>
      (hdoc.made (hparts.indexed.made hi ht hcomplex te hte)).1
    refine {
      head := by rw [hheadAt, hhead]
      size := fun name' hname' => ?_
      base := fun base hb j hj => ?_
      entries := ⟨declared, hdeclared, ?_, fun l d hd => ?_⟩ }
    · rw [hheadAt, hhead]
      obtain rfl : name = name' := Option.some.inj (hname.symm.trans hname')
      rfl
    · rw [hb, Option.elim_some] at hbase
      simp only [getIndex, hj, Option.map_some, Option.some.injEq] at hbase
      rw [hheadAt, hhead, hbase]
    · unfold Schema.entries
      rw [hbehind, takeWhile_entries (hprinted.productions hproper).1 hrest, hentries.length_eq,
        hprinted.length_eq]
    · obtain ⟨te, hte, hentry⟩ := getElem?_of_forall₂ hentries hd
      obtain ⟨row, hrow, n, -, hprint⟩ := getElem?_of_forall₂ hprinted hte
      have hat : S.element (tables.index i + 1 + l) = row := by
        have hl : (S.elements.drop (tables.index i + 1))[l]? = some row := by
          rw [hbehind, List.getElem?_append_left (List.getElem?_eq_some_iff.1 hrow).1, hrow]
        rw [List.getElem?_drop] at hl
        unfold Schema.element
        rw [List.getD_eq_getElem?_getD, hl, Option.getD_some]
      obtain ⟨hfield, hdescribes⟩ := hentry.describes hdoc hplaces (List.mem_of_getElem? ht)
        hdeclared (List.mem_of_getElem? hd) hseen hprint
      rw [hat]
      refine ⟨?_, hdescribes⟩
      rw [hparts.nameOf_entry hdoc hfits hi ht hcomplex hte, hfield]

theorem readingDoc_described : ∃ S, readingDoc.printSchema readingLayout 2 [0, 1] = some S ∧
    ∃ place : ℕ → ℕ, S.nameOf 0 = chars ['r'] ∧
      ∀ t, readingDoc.types[1]? = some t →
        DescribesType readingDoc readingLayout 2 S place 1 t := by
  have hsome : (readingDoc.printSchema readingLayout 2 [0, 1]).isSome = true := by decide
  obtain ⟨S, hS⟩ := Option.isSome_iff_exists.1 hsome
  obtain ⟨place, hglobals, htypes⟩ :=
    printed_describes readingDoc_describable hS (readingDoc_fits S hS)
  refine ⟨S, hS, place, (hglobals 0 _ rfl).1, fun t ht => htypes 1 (by decide) t ht ?_⟩
  obtain rfl := Option.some.inj ht
  rfl

end SchemaDoc
end SeClient
