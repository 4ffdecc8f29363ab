import SeClient.XmlBuffers
import SeClient.XmlLexing

/-!
# Documents that are exchanged

What `output_doc` writes with the XML driver `parse_doc` reads, with `xml_token` on the bytes of the
buffers: the same attributes, elements and values.
-/

namespace SeClient

/-- What is stored comes back: it is of its type, there is no white space in front of a text, and
nothing in an attribute is written as an entity. -/
def Visit.Exchangeable (S : Schema) : Visit → Prop
  | .attribute i _ w => (S.element i).Holds w ∧
      ∀ b ∈ w.spell, b ≠ 34 ∧ b ≠ 38 ∧ b ≠ 60 ∧ b ≠ 62
  | .text i _ w => (S.element i).Holds w ∧ ∀ b ∈ w.spell.head?, ws b = false
  | _ => True

section Values
variable {S : Schema} {i : ℕ} {a : Addr} {w : Stored} {v : Visit} {l : List Char}

/-- Where there are no special characters nothing is escaped. -/
theorem escape_plain (h : ∀ b ∈ utf8 l, b ≠ 34 ∧ b ≠ 38 ∧ b ≠ 60 ∧ b ≠ 62) :
    escape l = utf8 l := by
  induction l with
  | nil => rfl
  | cons c l ih =>
    have hutf : utf8 (c :: l) = utf8Bytes c.toNat ++ utf8 l := rfl
    have hescape : escape (c :: l) = escapeChar c.toNat ++ escape l := rfl
    rw [hutf] at h
    have hspecial : ¬Special c.toNat := by
      rintro (hc | hc | hc | hc)
      · exact (h 60 (by simp [hc, utf8Bytes])).2.2.1 rfl
      · exact (h 62 (by simp [hc, utf8Bytes])).2.2.2 rfl
      · exact (h 38 (by simp [hc, utf8Bytes])).2.1 rfl
      · exact (h 34 (by simp [hc, utf8Bytes])).1 rfl
    rw [hescape, hutf, escapeChar_none hspecial, ih fun b hb => h b (List.mem_append_right _ hb)]

/-- The first character of a text that has no white space in front. -/
theorem head_not_blank (h : ∀ b ∈ (utf8 l).head?, ws b = false) : ∀ c ∈ l.head?, ¬Blank c := by
  intro c hc hblank
  obtain ⟨l', rfl⟩ : ∃ l', l = c :: l' := by
    cases l with
    | nil => exact absurd hc (by simp)
    | cons d l' => exact ⟨l', by rw [Option.some.inj hc]⟩
  obtain ⟨b, hb, hws, -⟩ := escapeChar_blank hblank
  have hspecial : ¬Special c.toNat := by
    unfold Blank at hblank
    unfold Special
    omega
  rw [escapeChar_none hspecial] at hb
  have hutf : utf8 (c :: l') = b :: utf8 l' := by
    show utf8Bytes c.toNat ++ utf8 l' = _
    rw [hb]
    rfl
  rw [hutf] at h
  exact absurd (h b rfl) (by simp [hws])

theorem Visit.Exchangeable.legible (h : v.Exchangeable S) : v.Legible S xmlSource := by
  rcases v with ⟨i, a, w⟩ | ⟨i, a⟩ | ⟨i, a, w⟩ | i
  · exact h.1.legible
  · trivial
  · exact h.1.legible
  · trivial

theorem Visit.Exchangeable.writable (h : v.Exchangeable S) : v.Writable S := by
  rcases v with ⟨i, a, w⟩ | ⟨i, a⟩ | ⟨i, a, w⟩ | i
  · exact h.1.writable
  · trivial
  · exact h.1.writable
  · trivial

theorem Visit.Exchangeable.spelled (h : v.Exchangeable S) : v.Spelled S := by
  rcases v with ⟨i, a, w⟩ | ⟨i, a⟩ | ⟨i, a, w⟩ | i
  · obtain ⟨l, hspell, htext, -⟩ := h.1.written
    have hplain := h.2
    rw [hspell] at hplain
    show (S.element i).valueText w = w.spell
    rw [htext, hspell, escape_plain hplain]
  · trivial
  · obtain ⟨l, hspell, htext, hl⟩ := h.1.written
    show (S.element i).valueText w = escapedText w.spell
    rw [htext, hspell, escapedText_exchanged hl]
  · trivial

/-- The text of a simple element as a row of tokens. -/
theorem printedRow_text (hsimple : (S.element i).simple = true)
    (h : (Visit.text i a w).Exchangeable S) :
    PrintedRow S (textItems w.spell ++ [.close i]) := by
  obtain ⟨l, hspell, -, hl⟩ := h.1.written
  have hhead := h.2
  rw [hspell] at hhead ⊢
  unfold textItems
  split
  · exact .close .nil
  · rename_i hne
    have hne : l ≠ [] := by
      rintro rfl
      exact hne rfl
    exact .text hl hne (head_not_blank hhead) hsimple .nil

end Values

/-! ## The tokens of an object -/

section Objects
variable {S : Schema} {m : Heap} {order : ℕ → Addr → List ℕ} {depth j k : ℕ} {x : Addr}
  {xs : List Addr} {extra : List (CString × CString)} {items items' : List XmlItem}

theorem PrintedRow.append (h : PrintedRow S items) (h' : PrintedRow S items') :
    PrintedRow S (items ++ items') := by
  induction h with
  | nil => exact h'
  | tag hall hlength _ ih => exact .tag hall hlength ih
  | close _ ih => exact .close ih
  | text hl hne hhead hsimple _ ih => exact .text hl hne hhead hsimple ih

/-- The tokens of structures that conform are read as they are printed. -/
def PrintedStruct (S : Schema) (m : Heap) (order : ℕ → Addr → List ℕ) (depth : ℕ) : Prop :=
  ∀ i a, Conforms S m depth i a →
    (∀ v ∈ orderedContents S m order depth i a, v.Exchangeable S) →
    PrintedRow S (structItems S m order depth i a) ∧ AttributesRead (writtenAttributes S m i a) ∧
      (writtenAttributes S m i a).length < maxAttribute

theorem printedRow_occurrence (h : PrintedStruct S m order depth)
    (hextra : AttributesRead extra) (hlength : extra.length ≤ 1)
    (hinner : (S.element j).simple = false → Conforms S m depth ((S.element j).index + 1) x)
    (hvalues : ∀ v ∈ occurrenceVisits S m (orderedContents S m order depth) j k x,
      v.Exchangeable S) :
    PrintedRow S (occurrenceItems S m extra (structItems S m order depth) j k x) := by
  have hnone : AttributesRead [] := fun y hy => absurd hy List.not_mem_nil
  rw [occurrenceItems, occurrenceAttributes, occurrenceTail]
  cases hsimple : (S.element j).simple with
  | true =>
    rw [if_pos rfl, if_pos rfl]
    refine .tag hnone (Nat.zero_le _) (printedRow_text hsimple (hvalues (.text j x _) ?_))
    simp [occurrenceVisits, hsimple]
  | false =>
    obtain ⟨hrow, hattributes, hcount⟩ := h _ x (hinner hsimple) fun v hv =>
      hvalues v (by simp [occurrenceVisits, hsimple, hv])
    rw [if_neg Bool.false_ne_true, if_neg Bool.false_ne_true]
    refine .tag ?_ ?_ ?_
    · intro y hy
      rcases List.mem_append.1 hy with hy | hy
      · exact hextra y hy
      · exact hattributes y hy
    · rw [List.length_append]
      omega
    · dsimp only
      split
      · exact .nil
      · exact hrow.append (.close .nil)

theorem printedRow_occurrences (h : PrintedStruct S m order depth)
    (hinner : ∀ x ∈ xs,
      (S.element j).simple = false → Conforms S m depth ((S.element j).index + 1) x)
    (hvalues : ∀ v ∈ occurrencesVisits S m (orderedContents S m order depth) j k xs,
      v.Exchangeable S) :
    PrintedRow S (occurrencesItems S m (structItems S m order depth) j k xs) := by
  induction xs generalizing k with
  | nil => exact .nil
  | cons x xs ih =>
    rw [occurrencesVisits] at hvalues
    rw [occurrencesItems]
    refine PrintedRow.append ?_ (ih (fun y hy => hinner y (List.mem_cons_of_mem x hy))
      fun v hv => hvalues v (List.mem_append_right _ hv))
    exact printedRow_occurrence h (fun y hy => absurd hy List.not_mem_nil) (Nat.zero_le 1)
      (hinner x List.mem_cons_self) fun v hv => hvalues v (List.mem_append_left _ hv)

/-- The structures, by the depth. -/
theorem printedStruct (hlexical : S.Lexical) (hnames : ∀ i, IsName (S.nameOf i))
    (horders : Orders S order) (depth : ℕ) : PrintedStruct S m order depth := by
  induction depth with
  | zero => exact fun i a hconforms => hconforms.elim
  | succ depth ih =>
    intro i a hconforms hvalues
    rw [orderedContents] at hvalues
    refine ⟨?_, fun y hy => ?_, ?_⟩
    · have hentries : ∀ j ∈ order i a, S.ElementOf i j := fun j hj => (horders.mem i a j).1 hj
      have hvisits : ∀ v ∈ (order i a).flatMap fun j =>
          occurrencesVisits S m (orderedContents S m order depth) j 0
            (S.occurrences m a (S.element j)), v.Exchangeable S :=
        fun v hv => hvalues v (List.mem_append_right _ hv)
      rw [structItems]
      generalize order i a = js at hentries hvisits ⊢
      induction js with
      | nil => exact .nil
      | cons j js ihjs =>
        rw [List.flatMap_cons] at hvisits ⊢
        obtain ⟨hj, hjs⟩ := List.forall_mem_cons.1 hentries
        have hx := (hconforms j hj.1 hj.2.1).2 hj.2.2
        refine PrintedRow.append (printedRow_occurrences ih (fun x hmem => (hx x hmem).2)
          fun v hv => hvisits v (List.mem_append_left _ hv)) ?_
        exact ihjs hjs fun v hv => hvisits v (List.mem_append_right _ hv)
    · obtain ⟨j, hj, rfl⟩ := List.mem_map.1 hy
      have hvalue := hvalues (.attribute j a (attributeAt S m a j))
        (List.mem_append_left _ (List.mem_map_of_mem hj))
      exact ⟨hnames j, fun b hb => ⟨(hvalue.2 b hb).1, (hvalue.2 b hb).2.1, (hvalue.2 b hb).2.2.1⟩⟩
    · refine lt_of_le_of_lt ?_ (hlexical.attributes i)
      rw [writtenAttributes, List.length_map]
      exact (List.monotone_filter_right _ fun j hj => (Bool.and_eq_true _ _ ▸ hj).1).length_le

end Objects

/-! ## Documents -/

/-- The namespace stands in the first tag as it is, and the object has no attribute of that name. -/
structure NamespaceRead (S : Schema) (ns : Option CString) (type : ℕ) : Prop where
  quotable : ∀ n ∈ ns, Quotable n
  foreign : ∀ l, S.AttributeOf ((S.element type).index + 1) l →
    S.nameOf l ≠ chars ['x', 'm', 'l', 'n', 's']

/-- The document of an object as it is printed, with its elements in the order `order`. -/
def printedDocument (S : Schema) (m : Heap) (order : ℕ → Addr → List ℕ) (ns : Option CString)
    (obj : Addr) (type : ℕ) : CString :=
  printItems S {} (documentItems S m order (namespaceAttribute ns) obj type)

section Documents
variable {S : Schema} {m : Heap} {ns : Option CString} {order : ℕ → Addr → List ℕ} {obj : Addr}
  {type F size : ℕ}

theorem namespaceAttribute_read (hns : NamespaceRead S ns type) :
    AttributesRead (namespaceAttribute ns) ∧ (namespaceAttribute ns).length ≤ 1 ∧
      ∀ y ∈ namespaceAttribute ns, ∀ l, S.AttributeOf ((S.element type).index + 1) l →
        y.1 ≠ S.nameOf l := by
  have hname : IsName (chars ['x', 'm', 'l', 'n', 's']) :=
    ⟨by decide +kernel, by decide, by decide⟩
  cases ns with
  | none =>
    exact ⟨fun y hy => absurd hy List.not_mem_nil, Nat.zero_le 1,
      fun y hy => absurd hy List.not_mem_nil⟩
  | some n =>
    refine ⟨fun y hy => ?_, Nat.le_refl 1, fun y hy l hl => ?_⟩
    · rw [List.mem_singleton.1 hy]
      exact ⟨hname, hns.quotable n rfl⟩
    · rw [List.mem_singleton.1 hy]
      exact (hns.foreign l hl).symm

/-- The tokens of a document are read as they are printed. -/
theorem document_tokenizes (hS : S.Generated) (hlexical : S.Lexical) (horders : Orders S order)
    (htype : type < S.length) (hconforms : ConformsTo S m obj type)
    (hvalues : ∀ v ∈ orderedDocument S m order obj type, v.Exchangeable S)
    (hns : NamespaceRead S ns type)
    (hunmixed : Unmixed S [] (documentItems S m order (namespaceAttribute ns) obj type))
    (rest : CString) : Tokenizes S xmlSource
      { data := printedDocument S m order ns obj type ++ rest }
      (documentItems S m order (namespaceAttribute ns) obj type) := by
  obtain ⟨hmin, hmax, hattribute, hunbounded⟩ := hS.root type htype
  obtain ⟨hcounted, hinner⟩ := hconforms
  have hone : (S.occurrences m obj (S.element type)).length = 1 := by
    have hleast := hcounted.least hattribute
    have hmost := hcounted.most hattribute hunbounded
    omega
  obtain ⟨x, hx⟩ := List.length_eq_one_iff.1 hone
  have hnames := hlexical.name htype
  have hrow : PrintedRow S (documentItems S m order (namespaceAttribute ns) obj type) := by
    rw [documentItems, hx, List.flatMap_cons, List.flatMap_nil, List.append_nil]
    rw [hx] at hinner
    refine printedRow_occurrence (printedStruct hlexical hnames horders maxStack)
      (namespaceAttribute_read hns).1 (namespaceAttribute_read hns).2.1
      (hinner x List.mem_cons_self) fun v hv => hvalues v ?_
    rw [orderedDocument, entryVisits, hattribute, if_neg Bool.false_ne_true, hx,
      occurrencesVisits, occurrencesVisits, List.append_nil]
    exact hv
  exact printItems_tokenize hnames hrow hunmixed ⟨TokenType.noConfusion, Or.inl ⟨rfl, rfl⟩⟩

/-- **The XML parser reads an object** from its document as it is printed, with the elements of each
structure in any order. -/
theorem document_exchanged (hS : S.Generated) (hread : S.Readable) (hlexical : S.Lexical)
    (horders : Orders S order) (hfuel : ∀ h, (S.entries h).length + 2 ≤ F)
    (htype : type < S.length) (hconforms : ConformsTo S m obj type)
    (hvalues : ∀ v ∈ orderedDocument S m order obj type, v.Exchangeable S)
    (hns : NamespaceRead S ns type)
    (hunmixed : Unmixed S [] (documentItems S m order (namespaceAttribute ns) obj type))
    (rest : CString) (heap : Heap) :
    ∃ visits, XmlDecodes S xmlSource F heap
        { data := printedDocument S m order ns obj type ++ rest } type visits ∧
      visits.map Visit.shape = (orderedDocument S m order obj type).map Visit.shape :=
  document_read hS hread horders hfuel htype hconforms (fun v hv => (hvalues v hv).legible)
    (namespaceAttribute_read hns).2.2
    (document_tokenizes hS hlexical horders htype hconforms hvalues hns hunmixed rest) heap

/-- **What is written is read**: the buffers of `output_doc`, one behind the other, are read as the
object that was written, whatever the size of the buffers and whatever follows. -/
theorem buffers_exchanged (hS : S.Generated) (hread : S.Readable) (hlexical : S.Lexical)
    (hfuel : ∀ h, (S.entries h).length + 2 ≤ F) (htype : type < S.length)
    (hconforms : ConformsTo S m obj type) (hroomy : RoomyTo S m obj type)
    (hvalues : ∀ v ∈ document S m obj type, v.Exchangeable S) (hns : NamespaceRead S ns type)
    (hunmixed : Unmixed S [] (documentItems S m (tableOrder S) (namespaceAttribute ns) obj type))
    (hpieces : ∀ s ∈ documentPieces S ns m obj type, s.length < size) :
    (∃ buffers, XmlOutputs S m ns obj type size buffers) ∧
    ∀ buffers, XmlOutputs S m ns obj type size buffers → ∀ (rest : CString) (heap : Heap),
      ∃ visits, XmlDecodes S xmlSource F heap { data := buffers.flatten ++ rest } type visits ∧
        visits.map Visit.shape = (document S m obj type).map Visit.shape := by
  obtain ⟨hsize, full, last, hpack, -, hflatten⟩ := pieces_packed hS htype hconforms hpieces
  have hiff := xmlOutputs_pack hS htype hconforms hroomy (fun v hv => (hvalues v hv).writable)
    hpieces hsize
  have hdocument : orderedDocument S m (tableOrder S) obj type = document S m obj type :=
    orderedDocument_table hread obj type
  refine ⟨⟨_, (hiff _).2 ⟨full, last, hpack, rfl⟩⟩, fun buffers hbuffers rest heap => ?_⟩
  obtain ⟨full', last', hpack', rfl⟩ := (hiff buffers).1 hbuffers
  obtain ⟨rfl, hsame⟩ := List.append_inj' (hpack.symm.trans hpack') rfl
  obtain rfl := (List.cons.inj hsame).1
  obtain ⟨newline, hnewline⟩ : ∃ s, ended size last = last ++ s := by
    unfold ended
    split
    · exact ⟨[10], rfl⟩
    · exact ⟨[], (List.append_nil last).symm⟩
  have htext : (full ++ [ended size last]).flatten ++ rest =
      printedDocument S m (tableOrder S) ns obj type ++ (newline ++ rest) := by
    rw [printedDocument, ← documentText_items ns hS hread htype hconforms
      fun v hv => (hvalues v hv).spelled, ← hflatten, hnewline]
    simp
  rw [htext, ← hdocument]
  rw [← hdocument] at hvalues
  exact document_read hS hread (orders_elementsOf S) hfuel htype hconforms
    (fun v hv => (hvalues v hv).legible) (namespaceAttribute_read hns).2.2
    (document_tokenizes hS hlexical (orders_elementsOf S) htype hconforms hvalues hns hunmixed
      (newline ++ rest)) heap

end Documents

/-! ## A notification -/

theorem namedNotification_lexical : namedNotification.Lexical where
  names := by
    have hall : ∀ s ∈ namedNotification.names, s ≠ [] ∧
        (∀ b ∈ s.head?, nameStart b.toNat = true) ∧ ∀ b ∈ s, b < 128 ∧ nameChar b.toNat = true := by
      decide +kernel
    exact fun s hs => ⟨(hall s hs).2.1, (hall s hs).1, (hall s hs).2.2⟩
  globals := by decide
  ids := by decide
  attributes := fun i => by
    have hattribute : ∀ j, (namedNotification.element j).isAttribute = false :=
      notification_cases (P := fun _ se => se.isAttribute = false) rfl rfl rfl rfl fun _ _ => rfl
    rw [List.filter_eq_nil_iff.2 fun j _ => by simp [hattribute j]]
    decide

theorem namedNotification_namespace : NamespaceRead namedNotification none 0 where
  quotable := fun n hn => absurd hn (by simp)
  foreign := fun l hl => absurd hl.2.2 (by
    have hattribute : ∀ j, (namedNotification.element j).isAttribute = false :=
      notification_cases (P := fun _ se => se.isAttribute = false) rfl rfl rfl rfl fun _ _ => rfl
    simp [hattribute l])

/-- The URI and the status of the notification. -/
theorem notification_exchangeable (v : Visit)
    (hv : v ∈ ([.enter 0 ⟨0, 0⟩, .enter 2 ⟨0, 8⟩,
      .text 2 ⟨0, 8⟩ (.value (.text (chars ['x']))), .leave 2, .enter 3 ⟨0, 4⟩,
      .text 3 ⟨0, 4⟩ (.value (.number 7)), .leave 3, .leave 0] : List Visit)) :
    v.Exchangeable namedNotification := by
  have huri : (Visit.text 2 ⟨0, 8⟩ (.value (.text (chars ['x'])))).Exchangeable
      namedNotification := by
    refine ⟨⟨['x'], rfl, fun c hc => ?_⟩, by decide +kernel⟩
    rw [List.mem_singleton.1 hc]
    exact ⟨Or.inr (Or.inr (Or.inr (Or.inl (by decide)))), by decide⟩
  have hstatus : (Visit.text 3 ⟨0, 4⟩ (.value (.number 7))).Exchangeable namedNotification :=
    ⟨⟨.ubyte, 7, rfl, rfl, by decide +kernel⟩, by decide +kernel⟩
  simp only [List.mem_cons, List.not_mem_nil, or_false] at hv
  rcases hv with rfl | rfl | rfl | rfl | rfl | rfl | rfl | rfl <;> first
    | exact huri
    | exact hstatus
    | trivial

/-- A tag without attributes, in a schema without them. -/
theorem namedNotification_unmixed (items : List XmlItem) (attr : List (CString × CString)) :
    Unmixed namedNotification attr items := by
  have hattribute : ∀ j, (namedNotification.element j).isAttribute = false :=
    notification_cases (P := fun _ se => se.isAttribute = false) rfl rfl rfl rfl fun _ _ => rfl
  induction items generalizing attr with
  | nil => trivial
  | cons item items ih =>
    cases item with
    | tag empty i attrs =>
      refine ⟨fun _ _ j hj => ?_, ih _⟩
      exact absurd ((hattribute j).symm.trans hj.2.2) Bool.false_ne_true
    | close i => exact ih attr
    | text content => exact ih attr

/-- A notification is read with its elements in the other order. -/
theorem reversed_exchanged : ∃ visits, XmlDecodes namedNotification xmlSource 5 resourceHeap
    { data := printedDocument namedNotification resourceHeap
        (fun i _ => (namedNotification.elementsOf i).reverse) none ⟨0, 0⟩ 0 ++ [10] } 0 visits ∧
    visits.map Visit.shape = (orderedDocument namedNotification resourceHeap
      (fun i _ => (namedNotification.elementsOf i).reverse) ⟨0, 0⟩ 0).map Visit.shape := by
  refine document_exchanged namedNotification_generated namedNotification_readable
    namedNotification_lexical (orders_reverse namedNotification) namedNotification_fuel (by decide)
    resourceHeap_conforms (fun v hv => notification_exchangeable v ?_) namedNotification_namespace
    (namedNotification_unmixed _ _) [10] resourceHeap
  have hdocument : orderedDocument namedNotification resourceHeap
      (fun i _ => (namedNotification.elementsOf i).reverse) ⟨0, 0⟩ 0 =
        [.enter 0 ⟨0, 0⟩, .enter 3 ⟨0, 4⟩, .text 3 ⟨0, 4⟩ (.value (.number 7)), .leave 3,
          .enter 2 ⟨0, 8⟩, .text 2 ⟨0, 8⟩ (.value (.text (chars ['x']))), .leave 2, .leave 0] :=
    rfl
  rw [hdocument] at hv
  simp only [List.mem_cons, List.not_mem_nil, or_false] at hv ⊢
  tauto

/-- A notification is read from the buffers of seven bytes that it was written in. -/
theorem notification_exchanged :
    (∃ buffers, XmlOutputs namedNotification resourceHeap none ⟨0, 0⟩ 0 7 buffers) ∧
    ∀ buffers, XmlOutputs namedNotification resourceHeap none ⟨0, 0⟩ 0 7 buffers →
      ∀ (rest : CString) (heap : Heap), ∃ visits, XmlDecodes namedNotification xmlSource 5 heap
        { data := buffers.flatten ++ rest } 0 visits ∧ visits.map Visit.shape =
          (document namedNotification resourceHeap ⟨0, 0⟩ 0).map Visit.shape :=
  buffers_exchanged namedNotification_generated namedNotification_readable
    namedNotification_lexical namedNotification_fuel (by decide) resourceHeap_conforms
    resourceHeap_roomy notification_exchangeable namedNotification_namespace
    (namedNotification_unmixed _ _) (by decide)

end SeClient
