import SeClient.Encoding
import SeClient.ExiWalk
import SeClient.TableGenerator

/-!
# The tables that are generated

What `print_schema` prints for the types of a schema is a table as the parsers and the output
expect it: the entries of a type follow its head, each has the number of its productions, and the
indices lead to the heads.
-/

namespace SeClient

/-! ## Rows -/

/-- Each row has the number of its productions, unless it is the head of a type. -/
def Counts : List SchemaElement → Prop
  | [] => True
  | se :: rows =>
    (se.n ≠ 0 → se.n = productions ((se :: rows).takeWhile fun se => se.n ≠ 0)) ∧ Counts rows

theorem Counts.drop {rows : List SchemaElement} (h : Counts rows) (i : ℕ) :
    Counts (rows.drop i) := by
  induction i generalizing rows with
  | zero => exact h
  | succ i ih =>
    cases rows with
    | nil => exact h
    | cons se rows => exact ih h.2

theorem Counts.head {rows : List SchemaElement} (h : Counts rows) {se : SchemaElement}
    (hse : rows.head? = some se) (hn : se.n ≠ 0) :
    se.n = productions (rows.takeWhile fun se => se.n ≠ 0) := by
  cases rows with
  | nil => simp at hse
  | cons se' rows =>
    obtain rfl : se' = se := by simpa using hse
    exact h.1 hn

/-- The rows of one type, in front of the next head. -/
theorem takeWhile_entries {entries rows : List SchemaElement} (hentries : ∀ se ∈ entries, se.n ≠ 0)
    (hrows : ∀ se ∈ rows.head?, se.n = 0) :
    (entries ++ rows).takeWhile (fun se => se.n ≠ 0) = entries := by
  rw [List.takeWhile_append_of_pos (by simpa using hentries)]
  cases rows with
  | nil => simp
  | cons se rows =>
    rw [List.takeWhile_cons_of_neg (by simpa using hrows se rfl), List.append_nil]

/-- What `productions` counts is in two columns of the table. -/
theorem productionsLoop_congr {first : Bool} {l l' : List SchemaElement}
    (h : List.Forall₂ (fun se se' => se.varies = se'.varies ∧ se.min = se'.min) l l') :
    productionsLoop first l = productionsLoop first l' := by
  induction h generalizing first with
  | nil => rfl
  | cons h hs ih =>
    unfold productionsLoop
    rw [h.1, h.2, ih, ih]

/-! ## Entries -/

namespace TableEntry

/-- An entry as it is made: what `print_schema_element` prints is what it says. -/
structure Proper (te : TableEntry) : Prop where
  ofAttribute : te.se.isAttribute = true → te.se.min ≤ 1 ∧ te.se.max = 1 ∧ te.se.unbounded = false ∧
    te.se.simple = false
  bounds : te.se.unbounded = false → te.se.min ≤ te.se.max
  ofUnbounded : te.se.unbounded = true → te.se.max = 0

end TableEntry

namespace SchemaDoc
variable {doc : SchemaDoc} {layout : Layout} {tables : Tables} {fuel : ℕ} {seen : ℕ → ℕ}

/-- What is printed for an entry. -/
theorem printSchemaElement_spec {parent : Option CString} {te : TableEntry} {n : ℕ}
    {row : SchemaElement} (hte : te.Proper)
    (h : doc.printSchemaElement layout tables parent te n = some row) :
    row.n = n ∧ row.min = te.se.min ∧ row.max = te.se.max ∧ row.unbounded = te.se.unbounded ∧
      row.isAttribute = te.se.isAttribute ∧ row.simple = te.se.simple ∧
      (te.se.isAttribute = false → te.se.simple = false →
        (te.type.bind (doc.getIndex tables)) = some row.index) := by
  unfold printSchemaElement at h
  cases hattribute : te.se.isAttribute with
  | true =>
    obtain ⟨-, hmax, hunbounded, -⟩ := hte.ofAttribute hattribute
    simp only [hattribute, Bool.or_true, if_true, Option.some.injEq] at h
    subst h
    simp [hmax, hunbounded]
  | false =>
    have hmax : (if te.se.unbounded = true then 0 else te.se.max) = te.se.max := by
      cases hunbounded : te.se.unbounded with
      | true => simp [hte.ofUnbounded hunbounded]
      | false => rfl
    cases hsimple : te.se.simple with
    | true =>
      simp only [hattribute, hsimple, Bool.or_false, if_true, Option.some.injEq] at h
      subst h
      simp [hmax]
    | false =>
      simp only [hattribute, hsimple, Bool.or_false, Bool.false_eq_true, if_false,
        Option.map_eq_some_iff] at h
      obtain ⟨index, hindex, rfl⟩ := h
      simp [hmax, hindex]

theorem entryProductions_eq (entries : List TableEntry) (h : entries.length < 255) :
    entryProductions entries = productions (entries.map (·.se)) ∧ entryProductions entries ≠ 0 := by
  have hle := productionsLoop_le true (entries.map (·.se))
  have hpos := productionsLoop_pos true (entries.map (·.se))
  rw [List.length_map] at hle
  have heq : entryProductions entries = productions (entries.map (·.se)) :=
    Nat.mod_eq_of_lt (by unfold productions; omega)
  refine ⟨heq, ?_⟩
  rw [heq]
  unfold productions
  omega

/-- The rows `rows` are printed for the entries. -/
abbrev Printed (doc : SchemaDoc) (layout : Layout) (tables : Tables) (parent : Option CString) :
    List TableEntry → List SchemaElement → Prop :=
  List.Forall₂ fun te row => ∃ n, n ≠ 0 ∧
    doc.printSchemaElement layout tables parent te n = some row

theorem Printed.productions {parent : Option CString} {entries : List TableEntry}
    {rows : List SchemaElement} (h : Printed doc layout tables parent entries rows)
    (hproper : ∀ te ∈ entries, te.Proper) :
    (∀ se ∈ rows, se.n ≠ 0) ∧ productions rows = productions (entries.map (·.se)) := by
  have hsame : (∀ se ∈ rows, se.n ≠ 0) ∧ List.Forall₂
      (fun se se' : SchemaElement => se.varies = se'.varies ∧ se.min = se'.min) rows
      (entries.map (·.se)) := by
    induction h with
    | nil => exact ⟨fun se h => absurd h List.not_mem_nil, .nil⟩
    | @cons te row entries rows hrow hrows ih =>
      obtain ⟨n, hn, hrow⟩ := hrow
      obtain ⟨hrowN, hmin, hmax, hunbounded, -⟩ :=
        printSchemaElement_spec (hproper te List.mem_cons_self) hrow
      obtain ⟨hne, hrest⟩ := ih fun te h => hproper te (List.mem_cons_of_mem _ h)
      refine ⟨?_, .cons ⟨?_, hmin⟩ hrest⟩
      · rw [List.forall_mem_cons]
        exact ⟨by rw [hrowN]; exact hn, hne⟩
      · unfold SchemaElement.varies
        rw [hmin, hmax, hunbounded]
  exact ⟨hsame.1, productionsLoop_congr hsame.2⟩

theorem Printed.mem {parent : Option CString} {entries : List TableEntry}
    {rows : List SchemaElement} (h : Printed doc layout tables parent entries rows)
    {row : SchemaElement} (hrow : row ∈ rows) : ∃ te ∈ entries, ∃ n, n ≠ 0 ∧
      doc.printSchemaElement layout tables parent te n = some row := by
  induction h with
  | nil => exact absurd hrow List.not_mem_nil
  | @cons te row' entries rows hte hrows ih =>
    rcases List.mem_cons.1 hrow with rfl | hrow
    · exact ⟨te, List.mem_cons_self, hte⟩
    · obtain ⟨te', hmem, hte'⟩ := ih hrow
      exact ⟨te', List.mem_cons_of_mem te hmem, hte'⟩

/-- The rows of the entries of a type. -/
theorem printEntries_spec {parent : Option CString} {entries : List TableEntry}
    {rows rest : List SchemaElement} (hproper : ∀ te ∈ entries, te.Proper)
    (hlength : entries.length < 255) (hhead : ∀ se ∈ rest.head?, se.n = 0) (hrest : Counts rest)
    (h : doc.printEntries layout tables parent entries = some rows) :
    Printed doc layout tables parent entries rows ∧ Counts (rows ++ rest) := by
  induction entries generalizing rows with
  | nil =>
    obtain rfl : [] = rows := by simpa [printEntries] using h
    exact ⟨.nil, hrest⟩
  | cons te entries ih =>
    simp only [printEntries, Option.bind_eq_some_iff, Option.map_eq_some_iff] at h
    obtain ⟨row, hrow, rows, hrows, rfl⟩ := h
    rw [List.length_cons] at hlength
    obtain ⟨hall, hcounts⟩ := ih (fun te h => hproper te (List.mem_cons_of_mem _ h)) (by omega)
      hrows
    obtain ⟨heq, hne⟩ := entryProductions_eq (te :: entries) (by simpa using hlength)
    have hsame : Printed doc layout tables parent (te :: entries) (row :: rows) :=
      .cons ⟨_, hne, hrow⟩ hall
    obtain ⟨hrowsN, hproductions⟩ := hsame.productions hproper
    refine ⟨hsame, fun _ => ?_, hcounts⟩
    have hrowN := (printSchemaElement_spec (hproper te List.mem_cons_self) hrow).1
    show row.n = productions (((row :: rows) ++ rest).takeWhile fun se => se.n ≠ 0)
    rw [takeWhile_entries hrowsN hhead, hrowN, heq, hproductions]

/-! ## Types -/

/-- The head of a type has its size and the index of its base type. -/
def IsHead (doc : SchemaDoc) (layout : Layout) (tables : Tables) (t : GenType)
    (head : SchemaElement) : Prop :=
  ∃ name index, t.name = some name ∧ t.base.elim (some 0) (doc.getIndex tables) = some index ∧
    head = { offset := layout.size name % 2 ^ 16, index := index }

/-- Where the rows of the types are: behind the first `index` rows, each type that is named has its
head at its index and its entries behind it. -/
structure Placed (doc : SchemaDoc) (layout : Layout) (tables : Tables) (sorted : List ℕ)
    (index : ℕ) (rows : List SchemaElement) : Prop where
  counts : Counts rows
  headed : ∀ se ∈ rows.head?, se.n = 0
  types : ∀ i ∈ sorted, ∀ t, doc.types[i]? = some t → t.isComplex = true →
    ∃ k head entries rest, tables.index i = index + k ∧ rows.drop k = head :: (entries ++ rest) ∧
      IsHead doc layout tables t head ∧
      Printed doc layout tables t.name (tables.entries i) entries ∧ ∀ se ∈ rest.head?, se.n = 0
  entries : ∀ se ∈ rows, se.n ≠ 0 → ∃ i ∈ sorted, ∃ t, doc.types[i]? = some t ∧
    t.isComplex = true ∧ ∃ te ∈ tables.entries i, ∃ parent n, n ≠ 0 ∧
      doc.printSchemaElement layout tables parent te n = some se
  heads : ∀ se ∈ rows, se.n = 0 → se = { offset := se.offset, index := se.index }

/-- The indices of some of the types, 0 for those that have none yet. -/
def Earlier (seen : ℕ → ℕ) (tables : Tables) : Prop :=
  ∀ i, seen i = 0 ∨ seen i = tables.index i

/-- The indices that `gen_schema_elements` gives to the types, from `index` on. -/
def Indexed (doc : SchemaDoc) (fuel : ℕ) (tables : Tables) : List ℕ → ℕ → Prop
  | [], _ => True
  | i :: sorted, index => ∃ t, doc.types[i]? = some t ∧
    if t.isComplex then
      tables.index i = index ∧ (∃ seen, Earlier seen tables ∧
        doc.genSchemaEntries seen fuel t = some (tables.entries i)) ∧
        Indexed doc fuel tables sorted
          (index + t.name.toList.length + (tables.entries i).length)
    else Indexed doc fuel tables sorted index

/-- What `gen_schema_elements` stores once is not stored again. -/
theorem genSchemaElements_spec {sorted : List ℕ} {index : ℕ} {tables' : Tables}
    (hnodup : sorted.Nodup) (hzero : ∀ i ∈ sorted, tables.index i = 0)
    (h : doc.genSchemaElements fuel sorted index tables = some tables') :
    Indexed doc fuel tables' sorted index ∧
      ∀ i ∉ sorted, tables'.index i = tables.index i ∧ tables'.entries i = tables.entries i := by
  induction sorted generalizing index tables with
  | nil =>
    obtain rfl : tables = tables' := by simpa [genSchemaElements] using h
    exact ⟨trivial, fun i _ => ⟨rfl, rfl⟩⟩
  | cons i sorted ih =>
    obtain ⟨hi, hnodup⟩ := List.nodup_cons.1 hnodup
    simp only [genSchemaElements, Option.bind_eq_some_iff] at h
    obtain ⟨t, ht, h⟩ := h
    cases hcomplex : t.isComplex with
    | true =>
      rw [if_pos hcomplex, Option.bind_eq_some_iff] at h
      obtain ⟨entries, hentries, h⟩ := h
      have hlater : ∀ j ∈ sorted, Function.update tables.index i index j = 0 := by
        intro j hj
        have hji : j ≠ i := by
          rintro rfl
          exact hi hj
        rw [Function.update_of_ne hji]
        exact hzero j (List.mem_cons_of_mem i hj)
      obtain ⟨hindexed, hrest⟩ := ih hnodup hlater h
      obtain ⟨hindex, hentry⟩ := hrest i hi
      have hearlier : Earlier (Function.update tables.index i index) tables' := by
        intro j
        by_cases hj : j ∈ sorted
        · exact Or.inl (hlater j hj)
        · exact Or.inr (hrest j hj).1.symm
      simp only [Function.update_self] at hindex hentry
      refine ⟨⟨t, ht, ?_⟩, fun j hj => ?_⟩
      · rw [if_pos hcomplex, hentry]
        exact ⟨hindex, ⟨_, hearlier, hentries⟩, hindexed⟩
      · obtain ⟨hji, hj⟩ := not_or.1 (mt List.mem_cons.2 hj)
        obtain ⟨hindex, hentry⟩ := hrest j hj
        simp only [Function.update_of_ne hji] at hindex hentry
        exact ⟨hindex, hentry⟩
    | false =>
      rw [if_neg (Bool.eq_false_iff.1 hcomplex)] at h
      obtain ⟨hindexed, hrest⟩ := ih hnodup (fun j hj => hzero j (List.mem_cons_of_mem i hj)) h
      refine ⟨⟨t, ht, ?_⟩, fun j hj => hrest j (not_or.1 (mt List.mem_cons.2 hj)).2⟩
      rw [if_neg (Bool.eq_false_iff.1 hcomplex)]
      exact hindexed

/-- What is printed for a named type. -/
theorem printType_spec {i : ℕ} {t : GenType} {rows rest : List SchemaElement}
    (hname : t.name ≠ none) (hproper : ∀ te ∈ tables.entries i, te.Proper)
    (hlength : (tables.entries i).length < 255) (hhead : ∀ se ∈ rest.head?, se.n = 0)
    (hrest : Counts rest) (h : doc.printType layout tables i t = some rows) :
    ∃ head entries, rows = head :: entries ∧ IsHead doc layout tables t head ∧
      Printed doc layout tables t.name (tables.entries i) entries ∧ Counts (entries ++ rest) := by
  obtain ⟨name, hname⟩ := Option.ne_none_iff_exists'.1 hname
  simp only [printType, Option.bind_eq_some_iff] at h
  obtain ⟨entries, hentries, h⟩ := h
  obtain ⟨hprinted, hcounts⟩ := printEntries_spec hproper hlength hhead hrest hentries
  rw [hname] at h
  simp only [Option.map_eq_some_iff] at h
  obtain ⟨index, hindex, rfl⟩ := h
  refine ⟨_, entries, rfl, ⟨name, index, hname, ?_, rfl⟩, hprinted, hcounts⟩
  cases hb : t.base with
  | none => simpa [hb] using hindex
  | some base => simpa [hb] using hindex

/-- The rows of the types, where each complex type has a name and proper entries. -/
theorem printTypes_spec {sorted : List ℕ} {index : ℕ} {rows : List SchemaElement}
    (hindexed : Indexed doc fuel tables sorted index)
    (hgood : ∀ i ∈ sorted, ∀ t, doc.types[i]? = some t → t.isComplex = true → t.name ≠ none ∧
      (∀ te ∈ tables.entries i, te.Proper) ∧ (tables.entries i).length < 255)
    (h : doc.printTypes layout tables sorted = some rows) :
    Placed doc layout tables sorted index rows := by
  induction sorted generalizing index rows with
  | nil =>
    obtain rfl : [({} : SchemaElement)] = rows := by simpa [printTypes] using h
    exact {
      counts := ⟨fun h => absurd rfl h, trivial⟩
      headed := by simp
      types := by simp
      entries := by simp
      heads := by simp }
  | cons i sorted ih =>
    simp only [printTypes, Option.bind_eq_some_iff] at h
    obtain ⟨t, ht, h⟩ := h
    obtain ⟨t', ht', hindexed⟩ := hindexed
    obtain rfl : t = t' := Option.some.inj (ht.symm.trans ht')
    have hlater : ∀ j ∈ sorted, _ := fun j hj => hgood j (List.mem_cons_of_mem i hj)
    cases hcomplex : t.isComplex with
    | false =>
      rw [if_neg (Bool.eq_false_iff.1 hcomplex)] at h hindexed
      have hplaced := ih hindexed hlater h
      refine ⟨hplaced.counts, hplaced.headed, fun j hj u hu hcomplex' => ?_, fun se hse hn => ?_,
        hplaced.heads⟩
      · rcases List.mem_cons.1 hj with rfl | hj
        · rw [ht] at hu
          rw [← Option.some.inj hu, hcomplex] at hcomplex'
          exact Bool.noConfusion hcomplex'
        · exact hplaced.types j hj u hu hcomplex'
      · obtain ⟨j, hj, hrow⟩ := hplaced.entries se hse hn
        exact ⟨j, List.mem_cons_of_mem i hj, hrow⟩
    | true =>
      rw [if_pos hcomplex] at h hindexed
      obtain ⟨hindex, hentries, hindexed⟩ := hindexed
      simp only [Option.bind_eq_some_iff, Option.map_eq_some_iff] at h
      obtain ⟨block, hblock, rest, hrest, rfl⟩ := h
      have hplaced := ih hindexed hlater hrest
      obtain ⟨hname, hproper, hlength⟩ := hgood i List.mem_cons_self t ht hcomplex
      obtain ⟨head, entries, rfl, hhead, hprinted, hcounts⟩ := printType_spec hname hproper
        hlength hplaced.headed hplaced.counts hblock
      have hheadN : head.n = 0 := by
        obtain ⟨name, index, -, -, rfl⟩ := hhead
        rfl
      have hcount : (tables.entries i).length = entries.length := hprinted.length_eq
      have hone : t.name.toList.length = 1 := by
        obtain ⟨name, hname⟩ := Option.ne_none_iff_exists'.1 hname
        rw [hname]
        rfl
      refine ⟨⟨fun hn => absurd hheadN hn, hcounts⟩, fun se hse => ?_,
        fun j hj u hu hcomplex' => ?_, fun se hse hn => ?_, fun se hse hn => ?_⟩
      · obtain rfl : head = se := by simpa using hse
        exact hheadN
      · rcases List.mem_cons.1 hj with rfl | hj
        · rw [ht] at hu
          obtain rfl := Option.some.inj hu
          exact ⟨0, head, entries, rest, hindex, rfl, hhead, hprinted, hplaced.headed⟩
        · obtain ⟨k, head', entries', rest', hindex', hdrop, hrows⟩ :=
            hplaced.types j hj u hu hcomplex'
          refine ⟨1 + entries.length + k, head', entries', rest', ?_, ?_, hrows⟩
          · rw [hindex', hone, hcount]
            omega
          · rw [← List.drop_drop, Nat.add_comm 1, List.cons_append, List.drop_succ_cons,
              List.drop_left, hdrop]
      · rcases List.mem_append.1 hse with hse | hse
        · rcases List.mem_cons.1 hse with rfl | hse
          · exact absurd hheadN hn
          · obtain ⟨te, hte, n, hne, hrow⟩ := hprinted.mem hse
            exact ⟨i, List.mem_cons_self, t, ht, hcomplex, te, hte, _, n, hne, hrow⟩
        · obtain ⟨j, hj, hrow⟩ := hplaced.entries se hse hn
          exact ⟨j, List.mem_cons_of_mem i hj, hrow⟩
      · rcases List.mem_append.1 hse with hse | hse
        · rcases List.mem_cons.1 hse with rfl | hse
          · obtain ⟨name, index, -, -, rfl⟩ := hhead
            rfl
          · exact absurd hn ((hprinted.productions hproper).1 se hse)
        · exact hplaced.heads se hse hn

/-! ## What the document says of a type -/

/-- The elements of a type: those of its base types, then its own. -/
def contents (doc : SchemaDoc) : ℕ → GenType → Option (List (GenField × ℤ × ℤ))
  | 0, _ => none
  | fuel + 1, t =>
    let inherited := t.base.elim (some []) fun base =>
      ((doc.find base).bind fun i => doc.types[i]?).bind (contents doc fuel)
    inherited.map fun elements => elements ++ if t.restriction then [] else t.part.elements

/-- What a type declares: an attribute, or an element and how often it occurs. -/
inductive Declaration
  | ofAttribute (a : GenAttribute)
  | ofElement (f : GenField) (min max : ℤ)

def Declaration.field : Declaration → GenField
  | .ofAttribute a => a.field
  | .ofElement f _ _ => f

/-- The declarations of a type, in the order in which they occur in a document of it. -/
def declarations (doc : SchemaDoc) (fuel : ℕ) (t : GenType) : Option (List Declaration) :=
  (doc.contents fuel t).map fun elements =>
    t.attributes.map .ofAttribute ++ elements.map fun x => .ofElement x.1 x.2.1 x.2.2

theorem genSchemaPart_elements {part : GenParticles} {entries entries' : List TableEntry}
    (h : doc.genSchemaPart seen part entries = some entries') : ∃ own : List TableEntry,
      List.Forall₂ (fun x te => doc.partEntry seen x.1 x.2.1 x.2.2 = some te) part.elements own ∧
        entries' = own.reverse ++ entries := by
  induction part generalizing entries entries' with
  | nil =>
    obtain rfl : entries = entries' := by simpa [genSchemaPart] using h
    exact ⟨[], .nil, rfl⟩
  | element f min max next ih =>
    simp only [genSchemaPart, Option.bind_eq_some_iff] at h
    obtain ⟨te, hte, h⟩ := h
    obtain ⟨own, hown, rfl⟩ := ih h
    refine ⟨te :: own, .cons hte hown, ?_⟩
    simp
  | group child next ihChild ihNext =>
    simp only [genSchemaPart, Option.bind_eq_some_iff] at h
    obtain ⟨inner, hinner, h⟩ := h
    obtain ⟨inside, hinside, rfl⟩ := ihChild hinner
    obtain ⟨own, hown, rfl⟩ := ihNext h
    refine ⟨inside ++ own, List.rel_append hinside hown, ?_⟩
    simp
  | any next ih => exact ih h

theorem genSchemaParts_contents {t : GenType} {entries : List TableEntry}
    (h : doc.genSchemaParts seen fuel t = some entries) :
    ∃ elements own, doc.contents fuel t = some elements ∧
      List.Forall₂ (fun x te => doc.partEntry seen x.1 x.2.1 x.2.2 = some te) elements own ∧
        entries = own.reverse := by
  induction fuel generalizing t entries with
  | zero => simp [genSchemaParts] at h
  | succ fuel ih =>
    simp only [genSchemaParts, Option.bind_eq_some_iff] at h
    obtain ⟨before, hbefore, h⟩ := h
    have hbase : ∃ elements own, (t.base.elim (some []) fun base =>
        ((doc.find base).bind fun i => doc.types[i]?).bind (contents doc fuel)) = some elements ∧
        List.Forall₂ (fun x te => doc.partEntry seen x.1 x.2.1 x.2.2 = some te) elements own ∧
          before = own.reverse := by
      cases hb : t.base with
      | none =>
        rw [hb] at hbefore
        obtain rfl : [] = before := by simpa using hbefore
        exact ⟨[], [], rfl, .nil, rfl⟩
      | some base =>
        rw [hb] at hbefore
        simp only [Option.bind_eq_some_iff] at hbefore
        obtain ⟨u, ⟨i, hi, hu⟩, hbefore⟩ := hbefore
        obtain ⟨elements, own, hcontents, hown⟩ := ih hbefore
        refine ⟨elements, own, ?_, hown⟩
        simp only [Option.elim_some, hi, hu, Option.bind_some]
        exact hcontents
    obtain ⟨elements, inherited, helements, hinherited, rfl⟩ := hbase
    by_cases hr : t.restriction = true
    · rw [if_pos hr] at h
      obtain rfl := Option.some.inj h
      refine ⟨elements, inherited, ?_, hinherited, rfl⟩
      unfold contents
      rw [helements, Option.map_some, if_pos hr, List.append_nil]
    · rw [if_neg hr, Option.map_eq_some_iff] at h
      obtain ⟨part, hpart, rfl⟩ := h
      obtain ⟨own, hown, rfl⟩ := genSchemaPart_elements hpart
      refine ⟨elements ++ t.part.elements, inherited ++ own, ?_, List.rel_append hinherited hown,
        ?_⟩
      · unfold contents
        rw [helements, Option.map_some, if_neg hr]
      · simp

/-- The entry that is made for a declaration. -/
def Declaration.IsEntry (doc : SchemaDoc) (seen : ℕ → ℕ) (te : TableEntry) : Declaration → Prop
  | .ofAttribute a => te = attributeEntry a
  | .ofElement f min max => doc.partEntry seen f min max = some te

/-- The entries of a type are its declarations, in their order. -/
theorem genSchemaEntries_declarations {t : GenType} {entries : List TableEntry}
    (h : doc.genSchemaEntries seen fuel t = some entries) :
    ∃ declared, doc.declarations fuel t = some declared ∧
      List.Forall₂ (fun d te => d.IsEntry doc seen te) declared entries := by
  simp only [genSchemaEntries, Option.map_eq_some_iff] at h
  obtain ⟨parts, hparts, rfl⟩ := h
  obtain ⟨elements, own, helements, hown, rfl⟩ := genSchemaParts_contents hparts
  refine ⟨_, congrArg (Option.map _) helements, ?_⟩
  rw [List.reverse_append, List.reverse_reverse, List.reverse_reverse]
  refine List.rel_append ?_ ?_
  · rw [List.forall₂_map_left_iff, List.forall₂_map_right_iff, List.forall₂_same]
    exact fun a _ => rfl
  · rw [List.forall₂_map_left_iff]
    exact hown

/-! ## What the entries are -/

/-- A type that has a place in the table. -/
def Tabled (doc : SchemaDoc) (sorted : List ℕ) (name : CString) : Prop :=
  ∀ i, doc.find name = some i → i ∈ sorted ∧ ∃ t, doc.types[i]? = some t ∧ t.isComplex = true

instance (sorted : List ℕ) (name : CString) : Decidable (Tabled doc sorted name) :=
  inferInstanceAs (Decidable (∀ i, doc.find name = some i → i ∈ sorted ∧
    ∃ t, doc.types[i]? = some t ∧ t.isComplex = true))

/-- **A schema document that the tables can describe**: every complex type is named and has less
than 255 attributes and elements, the bounds of an element are in order and fit into a byte, and the elements that
are of no primitive type are of a complex one. -/
structure Describable (doc : SchemaDoc) (fuel : ℕ) (sorted : List ℕ) : Prop where
  nodup : sorted.Nodup
  named : ∀ i ∈ sorted, ∀ t, doc.types[i]? = some t → t.isComplex = true → t.name ≠ none
  small : ∀ i ∈ sorted, ∀ t, doc.types[i]? = some t → t.isComplex = true →
    ∀ declared ∈ doc.declarations fuel t, declared.length < 255
  bounds : ∀ t ∈ doc.types, ∀ x ∈ t.part.elements, 0 ≤ x.2.1 ∧ x.2.1 < 2 ^ 8 ∧
    (x.2.2 < 0 ∨ x.2.1 ≤ x.2.2 ∧ x.2.2 < 2 ^ 8)
  fields : ∀ t ∈ doc.types, ∀ x ∈ t.part.elements, x.1.prim = .null → Tabled doc sorted x.1.type
  globals : ∀ e ∈ doc.elements, ∀ prim, doc.xsPrimitive fuel e.type 0 = some prim →
    prim.1 = .null → Tabled doc sorted e.type

/-- An entry that is made of a field of a type. -/
def Made (doc : SchemaDoc) (te : TableEntry) : Prop :=
  (∃ a, te = attributeEntry a) ∨
    ∃ seen, ∃ t ∈ doc.types, ∃ x ∈ t.part.elements,
      doc.partEntry seen x.1 x.2.1 x.2.2 = some te

theorem genSchemaPart_made {part : GenParticles} {entries entries' : List TableEntry}
    (h : doc.genSchemaPart seen part entries = some entries') : ∀ te ∈ entries', te ∈ entries ∨
      ∃ x ∈ part.elements, doc.partEntry seen x.1 x.2.1 x.2.2 = some te := by
  induction part generalizing entries entries' with
  | nil =>
    obtain rfl : entries = entries' := by simpa [genSchemaPart] using h
    exact fun te hte => Or.inl hte
  | element f min max next ih =>
    simp only [genSchemaPart, Option.bind_eq_some_iff] at h
    obtain ⟨te', hte', h⟩ := h
    intro te hte
    rcases ih h te hte with hmem | ⟨x, hx, hte⟩
    · rcases List.mem_cons.1 hmem with rfl | hmem
      · exact Or.inr ⟨_, List.mem_cons_self, hte'⟩
      · exact Or.inl hmem
    · exact Or.inr ⟨x, List.mem_cons_of_mem _ hx, hte⟩
  | group child next ihChild ihNext =>
    simp only [genSchemaPart, Option.bind_eq_some_iff] at h
    obtain ⟨inner, hinner, h⟩ := h
    intro te hte
    rcases ihNext h te hte with hmem | ⟨x, hx, hte⟩
    · rcases List.mem_append.1 hmem with hmem | hmem
      · rcases ihChild hinner te hmem with hmem | ⟨x, hx, hte⟩
        · exact absurd hmem List.not_mem_nil
        · exact Or.inr ⟨x, List.mem_append_left _ hx, hte⟩
      · exact Or.inl hmem
    · exact Or.inr ⟨x, List.mem_append_right _ hx, hte⟩
  | any next ih => exact ih h

theorem genSchemaParts_made {t : GenType} {entries : List TableEntry} (ht : t ∈ doc.types)
    (h : doc.genSchemaParts seen fuel t = some entries) : ∀ te ∈ entries, Made doc te := by
  induction fuel generalizing t entries with
  | zero => simp [genSchemaParts] at h
  | succ fuel ih =>
    simp only [genSchemaParts, Option.bind_eq_some_iff] at h
    obtain ⟨inherited, hinherited, h⟩ := h
    have hbase : ∀ te ∈ inherited, Made doc te := by
      cases hb : t.base with
      | none =>
        rw [hb] at hinherited
        obtain rfl : [] = inherited := by simpa using hinherited
        exact fun te hte => absurd hte List.not_mem_nil
      | some base =>
        rw [hb] at hinherited
        simp only [Option.bind_eq_some_iff] at hinherited
        obtain ⟨u, ⟨i, -, hu⟩, hinherited⟩ := hinherited
        exact ih (List.mem_of_getElem? hu) hinherited
    by_cases hr : t.restriction = true
    · rw [if_pos hr] at h
      obtain rfl := Option.some.inj h
      exact hbase
    · rw [if_neg hr, Option.map_eq_some_iff] at h
      obtain ⟨own, hown, rfl⟩ := h
      intro te hte
      rcases List.mem_append.1 hte with hte | hte
      · rcases genSchemaPart_made hown te hte with hte | ⟨x, hx, hte⟩
        · exact absurd hte List.not_mem_nil
        · exact Or.inr ⟨seen, t, ht, x, hx, hte⟩
      · exact hbase te hte

theorem genSchemaEntries_made {t : GenType} {entries : List TableEntry} (ht : t ∈ doc.types)
    (h : doc.genSchemaEntries seen fuel t = some entries) : ∀ te ∈ entries, Made doc te := by
  simp only [genSchemaEntries, Option.map_eq_some_iff] at h
  obtain ⟨parts, hparts, rfl⟩ := h
  intro te hte
  rw [List.mem_reverse, List.mem_append, List.mem_reverse, List.mem_map] at hte
  rcases hte with hte | ⟨a, -, rfl⟩
  · exact genSchemaParts_made ht hparts te hte
  · exact Or.inl ⟨a, rfl⟩

/-- Entries of a describable document are proper. -/
theorem Describable.made {sorted : List ℕ} (hdoc : doc.Describable fuel sorted) {te : TableEntry}
    (h : Made doc te) : te.Proper ∧ (te.se.isAttribute = false → te.se.simple = false →
      ∃ name, te.type = some name ∧ Tabled doc sorted name) := by
  rcases h with ⟨a, rfl⟩ | ⟨seen, t, ht, x, hx, hte⟩
  · refine ⟨⟨fun _ => ⟨?_, rfl, rfl, rfl⟩, fun _ => ?_, fun h => Bool.noConfusion h⟩,
      fun h => Bool.noConfusion h⟩
    · exact Bool.toNat_le _
    · exact Bool.toNat_le _
  · obtain ⟨hzero, hmin, hmax⟩ := hdoc.bounds t ht x hx
    unfold partEntry at hte
    split at hte
    · obtain rfl := Option.some.inj hte
      refine ⟨⟨fun h => Bool.noConfusion h, fun h => ?_, fun h => ?_⟩, fun _ h => ⟨_, rfl, ?_⟩⟩
      · have hbounded : ¬x.2.2 < 0 := by simpa using h
        obtain ⟨hle, hlt⟩ := hmax.resolve_left hbounded
        simp only [hbounded, if_false]
        rw [Int.emod_eq_of_lt hzero hmin, Int.emod_eq_of_lt (hzero.trans hle) hlt]
        exact Int.toNat_le_toNat hle
      · have hunbounded : x.2.2 < 0 := by simpa using h
        simp only [hunbounded, if_true]
      · exact hdoc.fields t ht x hx (by simpa using h)
    · simp at hte

end SchemaDoc
end SeClient
