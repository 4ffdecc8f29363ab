import SeClient.XmlDocuments
import SeClient.XmlPieces

/-!
# Documents as they are printed

The text of a document is the text of its tokens, one behind the other: the tags of elements with
elements are on lines of their own.
-/

namespace SeClient

/-- An attribute as it is printed. -/
def attributeText (y : CString × CString) : CString := 32 :: (y.1 ++ 61 :: 34 :: (y.2 ++ [34]))

/-- The attribute that is only in the first tag. -/
def namespaceAttribute (ns : Option CString) : List (CString × CString) :=
  (ns.map fun n => (chars ['x', 'm', 'l', 'n', 's'], n)).toList

section Printing
variable (S : Schema)

/-- A token as it is printed. -/
def XmlItem.print (pen : Pen) : XmlItem → CString
  | .tag empty i attrs => pen.lead ++ 60 :: (S.nameOf i ++ (attrs.flatMap attributeText ++
      if empty then [47, 62] else [62]))
  | .close i => (if (S.element i).simple then [] else { pen with indent := pen.indent - 2 }.lead) ++
      60 :: 47 :: (S.nameOf i ++ [62])
  | .text content => escapedText content

/-- The pen behind a token. -/
def XmlItem.after (pen : Pen) : XmlItem → Pen
  | .tag empty i _ => if (S.element i).simple then pen
      else { indent := if empty then pen.indent else pen.indent + 2, first := false }
  | .close i => if (S.element i).simple then pen else { pen with indent := pen.indent - 2 }
  | .text _ => pen

def printItems : Pen → List XmlItem → CString
  | _, [] => []
  | pen, item :: items => item.print S pen ++ printItems (item.after S pen) items

/-- The pen behind tokens. -/
def itemsPen (pen : Pen) (items : List XmlItem) : Pen := items.foldl (XmlItem.after S) pen

/-- The pen behind calls. -/
def callsPen (pen : Pen) (cs : List DriverCall) : Pen := cs.foldl (DriverCall.after S) pen

/-- The elements of a type in the order of the table, of any structure. -/
def tableOrder (i : ℕ) (_ : Addr) : List ℕ := S.elementsOf i

end Printing

/-! ## In the order of the table -/

section Order
variable {S : Schema} {m : Heap} {f : ℕ → Addr → List Visit} {a : Addr}

/-- Where the attributes come first, what there is for the entries is what there is for the
attributes and then for the elements. -/
theorem flatMap_attributes_elements (g : ℕ → List Visit) (n i : ℕ)
    (hfirst : ∀ j, i ≤ j → j + 1 < i + n → (S.element j).isAttribute = false →
      (S.element (j + 1)).isAttribute = false) :
    (List.range' i n).flatMap g =
      ((List.range' i n).filter fun j => (S.element j).isAttribute).flatMap g ++
        ((List.range' i n).filter fun j => !(S.element j).isAttribute).flatMap g := by
  induction n generalizing i with
  | zero => rfl
  | succ n ih =>
    have hrest := ih (i + 1) fun j hj hlt => hfirst j (by omega) (by omega)
    rw [List.range'_succ, List.flatMap_cons]
    cases hattribute : (S.element i).isAttribute with
    | true =>
      rw [List.filter_cons_of_pos (by simp [hattribute]),
        List.filter_cons_of_neg (by simp [hattribute]),
        List.flatMap_cons, hrest, List.append_assoc]
    | false =>
      have hall : ∀ k, k ≤ n → (S.element (i + k)).isAttribute = false := by
        intro k hk
        induction k with
        | zero => exact hattribute
        | succ k ihk => exact hfirst (i + k) (by omega) (by omega) (ihk (by omega))
      have hnone :
          (i :: List.range' (i + 1) n).filter (fun j => (S.element j).isAttribute) = [] := by
        refine List.filter_eq_nil_iff.2 fun j hj => ?_
        rw [← List.range'_succ, List.mem_range'_1] at hj
        have hj' := hall (j - i) (by omega)
        rw [Nat.add_sub_cancel' hj.1] at hj'
        simp [hj']
      have hsome : (i :: List.range' (i + 1) n).filter (fun j => !(S.element j).isAttribute) =
          i :: List.range' (i + 1) n := by
        refine List.filter_eq_self.2 fun j hj => ?_
        rw [← List.range'_succ, List.mem_range'_1] at hj
        have hj' := hall (j - i) (by omega)
        rw [Nat.add_sub_cancel' hj.1] at hj'
        simp [hj']
      rw [hnone, hsome, List.flatMap_nil, List.nil_append, List.flatMap_cons]

theorem entriesVisits_flatMap (n i : ℕ) : entriesVisits S m f a n i =
    (List.range' i n).flatMap (entryVisits S m f a) := by
  induction n generalizing i with
  | zero => rfl
  | succ n ih => rw [entriesVisits, ih, List.range'_succ, List.flatMap_cons]

theorem attributesAt_visits (n i : ℕ) :
    ((List.range' i n).filter fun j => (S.element j).isAttribute).flatMap (entryVisits S m f a) =
      (attributesAt S m n i a).map fun j => .attribute j a (attributeAt S m a j) := by
  unfold attributesAt
  induction List.range' i n with
  | nil => rfl
  | cons j l ih =>
    cases hattribute : (S.element j).isAttribute with
    | false =>
      rw [List.filter_cons_of_neg (by simp [hattribute]),
        List.filter_cons_of_neg (by simp [hattribute]), ih]
    | true =>
      rw [List.filter_cons_of_pos (by simp [hattribute]), List.flatMap_cons, ih, entryVisits,
        hattribute,
        if_pos rfl]
      by_cases hcount : m.outputCount a (S.element j) = 0
      · rw [if_neg (not_not_intro hcount), List.filter_cons_of_neg (by simp [hcount])]
        rfl
      · rw [if_pos hcount, List.filter_cons_of_pos (by simp [hattribute, hcount])]
        rfl

theorem elementsOf_visits (n i : ℕ) :
    ((List.range' i n).filter fun j => !(S.element j).isAttribute).flatMap
        (entryVisits S m f a) =
      ((List.range' i n).filter fun j => !(S.element j).isAttribute).flatMap fun j =>
        occurrencesVisits S m f j 0 (S.occurrences m a (S.element j)) := by
  refine List.flatMap_congr fun j hj => ?_
  have hattribute : (S.element j).isAttribute = false := by
    simpa using (List.mem_filter.1 hj).2
  rw [entryVisits, hattribute, if_neg Bool.false_ne_true]

/-- The document of an object is in the order of the table. -/
theorem orderedContents_table (hread : S.Readable) (depth i : ℕ) (a : Addr) :
    orderedContents S m (tableOrder S) depth i a = contents S m depth i a := by
  induction depth generalizing i a with
  | zero => rfl
  | succ depth ih =>
    have hsame : orderedContents S m (tableOrder S) depth = contents S m depth := by
      funext i a
      exact ih i a
    have hfirst : ∀ j, i ≤ j → j + 1 < i + (S.entries i).length →
        (S.element j).isAttribute = false → (S.element (j + 1)).isAttribute = false :=
      fun j hj hlt hattribute => hread.attributesFirst i j ⟨hj, by omega, hattribute⟩ hlt
    rw [contents, entriesVisits_flatMap, flatMap_attributes_elements _ _ _ hfirst,
      attributesAt_visits, elementsOf_visits, orderedContents, hsame]
    rfl

theorem orderedDocument_table (hread : S.Readable) (obj : Addr) (type : ℕ) :
    orderedDocument S m (tableOrder S) obj type = document S m obj type := by
  have hsame : orderedContents S m (tableOrder S) maxStack = contents S m maxStack := by
    funext i a
    exact orderedContents_table hread maxStack i a
  rw [orderedDocument, hsame, document]

end Order

/-! ## Calls and tokens -/

/-- The text that is written for a value is the text of the value. -/
def Visit.Spelled (S : Schema) : Visit → Prop
  | .attribute i _ w => (S.element i).valueText w = w.spell
  | .text i _ w => (S.element i).valueText w = escapedText w.spell
  | _ => True

section Calls
variable {S : Schema} {ns : Option CString} {cs cs' : List DriverCall}
  {items items' : List XmlItem} {attrs : List (CString × CString)} {i : ℕ}

theorem piecesOf_append (pen : Pen) (cs cs' : List DriverCall) : piecesOf S ns pen (cs ++ cs') =
    piecesOf S ns pen cs ++ piecesOf S ns (callsPen S pen cs) cs' := by
  induction cs generalizing pen with
  | nil => rfl
  | cons c cs ih =>
    show c.pieces S ns pen ++ piecesOf S ns (c.after S pen) (cs ++ cs') = _
    rw [ih, ← List.append_assoc]
    rfl

theorem printItems_append (pen : Pen) (items items' : List XmlItem) :
    printItems S pen (items ++ items') =
      printItems S pen items ++ printItems S (itemsPen S pen items) items' := by
  induction items generalizing pen with
  | nil => rfl
  | cons item items ih =>
    show item.print S pen ++ printItems S (item.after S pen) (items ++ items') = _
    rw [ih, ← List.append_assoc]
    rfl

theorem itemsPen_append (pen : Pen) (items items' : List XmlItem) :
    itemsPen S pen (items ++ items') = itemsPen S (itemsPen S pen items) items' :=
  List.foldl_append

theorem callsPen_append (pen : Pen) (cs cs' : List DriverCall) :
    callsPen S pen (cs ++ cs') = callsPen S (callsPen S pen cs) cs' :=
  List.foldl_append

theorem Pen.eq_inside {pen : Pen} (h : pen.first = false ∧ pen.isOpen = false) :
    pen = ⟨pen.indent, false, false⟩ := by
  obtain ⟨indent, isOpen, first⟩ := pen
  obtain ⟨rfl, rfl⟩ := h
  rfl

/-- Behind tokens no tag is open, and the first tag was written if it was before. -/
theorem itemsPen_inside (pen : Pen) (items : List XmlItem) (hfirst : pen.first = false)
    (hclosed : pen.isOpen = false) :
    (itemsPen S pen items).first = false ∧ (itemsPen S pen items).isOpen = false := by
  induction items generalizing pen with
  | nil => exact ⟨hfirst, hclosed⟩
  | cons item items ih =>
    refine ih _ ?_ ?_
    · cases item with
      | tag empty i attrs =>
        unfold XmlItem.after
        dsimp only
        split
        · exact hfirst
        · rfl
      | close i =>
        unfold XmlItem.after
        dsimp only
        split <;> exact hfirst
      | text content => exact hfirst
    · cases item with
      | tag empty i attrs =>
        unfold XmlItem.after
        dsimp only
        split
        · exact hclosed
        · rfl
      | close i =>
        unfold XmlItem.after
        dsimp only
        split <;> exact hclosed
      | text content => exact hclosed

/-- Inside an element: the calls write the tokens, the first of which closes the tag before. -/
structure Prints (S : Schema) (ns : Option CString) (cs : List DriverCall)
    (items : List XmlItem) : Prop where
  text : ∀ pen : Pen, pen.first = false → (piecesOf S ns pen cs).flatten =
    (if pen.isOpen && !items.isEmpty then [62] else []) ++
      printItems S { pen with isOpen := false } items
  pen : ∀ pen : Pen, pen.first = false → callsPen S pen cs =
    { itemsPen S { pen with isOpen := false } items with isOpen := pen.isOpen && items.isEmpty }

theorem Prints.nil : Prints S ns [] [] where
  text := fun pen _ => by simp [piecesOf, printItems]
  pen := fun pen _ => by simp [callsPen, itemsPen]

theorem Prints.append (h : Prints S ns cs items) (h' : Prints S ns cs' items') :
    Prints S ns (cs ++ cs') (items ++ items') := by
  have hpens : ∀ pen : Pen, pen.first = false →
      (callsPen S pen cs).first = false ∧
      (callsPen S pen cs).isOpen = (pen.isOpen && items.isEmpty) ∧
      { callsPen S pen cs with isOpen := false } =
        itemsPen S { pen with isOpen := false } items := by
    intro pen hfirst
    have hinside := itemsPen_inside (S := S) { pen with isOpen := false } items hfirst rfl
    rw [h.pen pen hfirst]
    refine ⟨hinside.1, rfl, ?_⟩
    rw [Pen.eq_inside hinside]
  constructor
  · intro pen hfirst
    obtain ⟨hfirst', hopen, hpen⟩ := hpens pen hfirst
    rw [piecesOf_append, List.flatten_append, h.text pen hfirst, h'.text _ hfirst', hopen, hpen,
      printItems_append]
    cases items <;> simp [printItems]
  · intro pen hfirst
    obtain ⟨hfirst', hopen, hpen⟩ := hpens pen hfirst
    rw [callsPen_append, h'.pen _ hfirst', hopen, hpen, itemsPen_append]
    cases items <;> simp

/-- Calls for attributes write them in the tag that is open. -/
def PrintsAttributes (S : Schema) (ns : Option CString) (cs : List DriverCall)
    (attrs : List (CString × CString)) : Prop :=
  ∀ pen, (piecesOf S ns pen cs).flatten = attrs.flatMap attributeText ∧ callsPen S pen cs = pen

theorem prints_attributes {m : Heap} {a : Addr} (js : List ℕ)
    (h : ∀ j ∈ js, (S.element j).valueText (attributeAt S m a j) = (attributeAt S m a j).spell) :
    PrintsAttributes S ns ((js.map fun j => .attribute j a (attributeAt S m a j)).flatMap
      (Visit.calls S)) (js.map fun j => (S.nameOf j, (attributeAt S m a j).spell)) := by
  induction js with
  | nil => exact fun pen => ⟨rfl, rfl⟩
  | cons j js ih =>
    intro pen
    obtain ⟨htext, hpen⟩ := ih (fun j' hj' => h j' (List.mem_cons_of_mem j hj')) pen
    have hj := h j List.mem_cons_self
    constructor
    · rw [List.map_cons, List.map_cons, List.flatMap_cons, List.flatMap_cons, piecesOf_append,
        List.flatten_append]
      refine congrArg₂ _ ?_ htext
      simp [piecesOf, Visit.calls, DriverCall.pieces, attributeText, hj]
    · exact hpen

/-- An element of simple type. -/
theorem prints_simple {w : Stored} (hsimple : (S.element i).simple = true)
    (hw : (S.element i).valueText w = escapedText w.spell) (pen : Pen) :
    (piecesOf S ns pen [.event .seSimple i, .value i w, .event .eeEvent i]).flatten =
      (if pen.isOpen then [62] else []) ++ printItems S { pen with isOpen := false }
        (.tag false i [] :: (textItems w.spell ++ [.close i])) ∧
    callsPen S pen [.event .seSimple i, .value i w, .event .eeEvent i] =
      itemsPen S { pen with isOpen := false }
        (.tag false i [] :: (textItems w.spell ++ [.close i])) := by
  have hcontent : ∀ pen : Pen, printItems S pen (textItems w.spell ++ [.close i]) =
      escapedText w.spell ++ 60 :: 47 :: (S.nameOf i ++ [62]) ∧
      itemsPen S pen (textItems w.spell ++ [.close i]) = pen := by
    intro pen
    unfold textItems
    by_cases hempty : w.spell = []
    · rw [hempty, if_pos rfl]
      simp [printItems, itemsPen, XmlItem.print, XmlItem.after, hsimple]
      rfl
    · rw [if_neg hempty]
      simp [printItems, itemsPen, XmlItem.print, XmlItem.after, hsimple]
  constructor
  · rw [printItems, (hcontent _).1]
    cases hopen : pen.isOpen <;>
      simp [piecesOf, DriverCall.pieces, DriverCall.after, XmlItem.print, Pen.lead, hopen, hsimple,
        hw]
  · rw [itemsPen, List.foldl_cons]
    refine Eq.trans ?_ (hcontent _).2.symm
    simp [callsPen, DriverCall.after, XmlItem.after, hsimple]

/-- An element with elements. -/
theorem prints_complex {acs : List DriverCall} (hsimple : (S.element i).simple = false)
    (hattributes : PrintsAttributes S ns acs attrs) (h : Prints S ns cs items) (pen : Pen) :
    (piecesOf S ns pen (.event .seComplex i :: (acs ++ (cs ++ [.event .eeEvent i])))).flatten =
      (if pen.isOpen then [62] else []) ++ printItems S { pen with isOpen := false }
        (.tag items.isEmpty i ((if pen.first then namespaceAttribute ns else []) ++ attrs) ::
          if items.isEmpty then [] else items ++ [.close i]) ∧
    callsPen S pen (.event .seComplex i :: (acs ++ (cs ++ [.event .eeEvent i]))) =
      itemsPen S { pen with isOpen := false }
        (.tag items.isEmpty i ((if pen.first then namespaceAttribute ns else []) ++ attrs) ::
          if items.isEmpty then [] else items ++ [.close i]) := by
  have hns : (if pen.first = true then (ns.map namespaceText).getD [] else []) =
      (if pen.first = true then namespaceAttribute ns else []).flatMap attributeText := by
    cases pen.first with
    | false => rfl
    | true => cases ns <;> simp [namespaceAttribute, namespaceText, attributeText, chars]
  have htag : ∀ inner : List DriverCall,
      (piecesOf S ns pen (.event .seComplex i :: inner)).flatten =
        (if pen.isOpen then [62] else []) ++ (pen.lead ++ 60 :: (S.nameOf i ++
        (if pen.first = true then namespaceAttribute ns else []).flatMap attributeText)) ++
        (piecesOf S ns ⟨pen.indent + 2, true, false⟩ inner).flatten := by
    intro inner
    rw [← hns]
    cases hopen : pen.isOpen <;> simp [piecesOf, DriverCall.pieces, DriverCall.after, hopen]
  obtain ⟨hatext, hapen⟩ := hattributes ⟨pen.indent + 2, true, false⟩
  have htext := h.text ⟨pen.indent + 2, true, false⟩ rfl
  have hpen := h.pen ⟨pen.indent + 2, true, false⟩ rfl
  constructor
  · rw [htag, piecesOf_append, List.flatten_append, hatext, hapen, piecesOf_append,
      List.flatten_append, htext, hpen]
    cases hempty : items.isEmpty with
    | true =>
      obtain rfl := List.isEmpty_iff.1 hempty
      simp [printItems, XmlItem.print, piecesOf, DriverCall.pieces, Pen.lead]
    | false =>
      have hitems : itemsPen S ⟨pen.indent + 2, false, false⟩ items =
          ⟨(itemsPen S ⟨pen.indent + 2, false, false⟩ items).indent, false, false⟩ :=
        Pen.eq_inside (itemsPen_inside _ items rfl rfl)
      rw [hitems]
      simp [printItems, XmlItem.print, XmlItem.after, piecesOf, DriverCall.pieces, Pen.lead,
        hsimple, printItems_append]
      rw [hitems]
      rfl
  · have hcalls : callsPen S pen (.event .seComplex i :: (acs ++ (cs ++ [.event .eeEvent i]))) =
        (DriverCall.event .eeEvent i).after S
          (callsPen S (callsPen S ⟨pen.indent + 2, true, false⟩ acs) cs) := by
      show callsPen S ⟨pen.indent + 2, true, false⟩ (acs ++ (cs ++ [.event .eeEvent i])) = _
      rw [callsPen_append, callsPen_append]
      rfl
    rw [hcalls, hapen, hpen]
    cases hempty : items.isEmpty with
    | true =>
      obtain rfl := List.isEmpty_iff.1 hempty
      simp [itemsPen, DriverCall.after, XmlItem.after, hsimple]
    | false =>
      have hitems := Pen.eq_inside (itemsPen_inside (S := S) ⟨pen.indent + 2, false, false⟩ items
        rfl rfl)
      have hlist : itemsPen S { pen with isOpen := false }
          (.tag false i ((if pen.first then namespaceAttribute ns else []) ++ attrs) ::
            (items ++ [.close i])) =
          (XmlItem.close i).after S (itemsPen S ⟨pen.indent + 2, false, false⟩ items) := by
        rw [itemsPen, List.foldl_cons, ← itemsPen, itemsPen_append]
        simp [XmlItem.after, hsimple, itemsPen]
      rw [if_neg Bool.false_ne_true, hlist, hitems]
      simp [DriverCall.after, XmlItem.after, hsimple]

end Calls

/-! ## Objects -/

section Objects
variable {S : Schema} {ns : Option CString} {m : Heap} {order : ℕ → Addr → List ℕ} {depth : ℕ}

/-- The contents of structures are written as their attributes and their elements. -/
def PrintsStruct (S : Schema) (ns : Option CString) (m : Heap) (order : ℕ → Addr → List ℕ)
    (depth : ℕ) : Prop :=
  ∀ i a, Conforms S m depth i a → (∀ v ∈ orderedContents S m order depth i a, v.Spelled S) →
    ∃ acs cs, (orderedContents S m order depth i a).flatMap (Visit.calls S) = acs ++ cs ∧
      PrintsAttributes S ns acs (writtenAttributes S m i a) ∧
      Prints S ns cs (structItems S m order depth i a)

/-- An occurrence of an element. -/
theorem prints_occurrence {j k : ℕ} {x : Addr} (h : PrintsStruct S ns m order depth)
    (hinner : (S.element j).simple = false → Conforms S m depth ((S.element j).index + 1) x)
    (hspelled : ∀ v ∈ occurrenceVisits S m (orderedContents S m order depth) j k x, v.Spelled S)
    (pen : Pen) :
    (piecesOf S ns pen ((occurrenceVisits S m (orderedContents S m order depth) j k x).flatMap
        (Visit.calls S))).flatten =
      (if pen.isOpen then [62] else []) ++ printItems S { pen with isOpen := false }
        (occurrenceItems S m (if pen.first then namespaceAttribute ns else [])
          (structItems S m order depth) j k x) ∧
    callsPen S pen ((occurrenceVisits S m (orderedContents S m order depth) j k x).flatMap
        (Visit.calls S)) =
      itemsPen S { pen with isOpen := false }
        (occurrenceItems S m (if pen.first then namespaceAttribute ns else [])
          (structItems S m order depth) j k x) := by
  cases hsimple : (S.element j).simple with
  | true =>
    have hvisits : occurrenceVisits S m (orderedContents S m order depth) j k x = [.enter j x,
        .text j x (m.load (S.element j).xsType x ((S.element j).bit + k)), .leave j] := by
      simp [occurrenceVisits, hsimple]
    have hcalls : ([.enter j x, .text j x (m.load (S.element j).xsType x ((S.element j).bit + k)),
        .leave j] : List Visit).flatMap (Visit.calls S) = [.event .seSimple j,
          .value j (m.load (S.element j).xsType x ((S.element j).bit + k)), .event .eeEvent j] := by
      simp [Visit.calls, hsimple]
    have hitems : occurrenceItems S m (if pen.first then namespaceAttribute ns else [])
        (structItems S m order depth) j k x = .tag false j [] ::
          (textItems (m.load (S.element j).xsType x ((S.element j).bit + k)).spell ++
            [.close j]) := by
      simp [occurrenceItems, occurrenceEmpty, occurrenceAttributes, occurrenceTail, hsimple]
    have hvalue := hspelled (.text j x (m.load (S.element j).xsType x ((S.element j).bit + k)))
      (by rw [hvisits]; simp)
    rw [hvisits, hcalls, hitems]
    exact prints_simple hsimple hvalue pen
  | false =>
    have hvisits : occurrenceVisits S m (orderedContents S m order depth) j k x = .enter j x ::
        (orderedContents S m order depth ((S.element j).index + 1) x ++ [.leave j]) := by
      simp [occurrenceVisits, hsimple]
    obtain ⟨acs, cs, hcalls, hattributes, hprints⟩ := h _ x (hinner hsimple) fun v hv =>
      hspelled v (by rw [hvisits]; simp [hv])
    have hall : (Visit.enter j x :: (orderedContents S m order depth ((S.element j).index + 1) x ++
        [.leave j])).flatMap (Visit.calls S) =
          .event .seComplex j :: (acs ++ (cs ++ [.event .eeEvent j])) := by
      simp [Visit.calls, hsimple, hcalls]
    have hitems : occurrenceItems S m (if pen.first then namespaceAttribute ns else [])
        (structItems S m order depth) j k x =
          .tag (structItems S m order depth ((S.element j).index + 1) x).isEmpty j
            ((if pen.first then namespaceAttribute ns else []) ++
              writtenAttributes S m ((S.element j).index + 1) x) ::
            if (structItems S m order depth ((S.element j).index + 1) x).isEmpty then []
            else structItems S m order depth ((S.element j).index + 1) x ++ [.close j] := by
      simp [occurrenceItems, occurrenceEmpty, occurrenceAttributes, occurrenceTail, hsimple]
    rw [hvisits, hall, hitems]
    exact prints_complex hsimple hattributes hprints pen

theorem prints_occurrences {j k : ℕ} {xs : List Addr} (h : PrintsStruct S ns m order depth)
    (hinner : ∀ x ∈ xs,
      (S.element j).simple = false → Conforms S m depth ((S.element j).index + 1) x)
    (hspelled : ∀ v ∈ occurrencesVisits S m (orderedContents S m order depth) j k xs,
      v.Spelled S) :
    Prints S ns ((occurrencesVisits S m (orderedContents S m order depth) j k xs).flatMap
      (Visit.calls S)) (occurrencesItems S m (structItems S m order depth) j k xs) := by
  induction xs generalizing k with
  | nil => exact .nil
  | cons x xs ih =>
    rw [occurrencesVisits] at hspelled ⊢
    rw [occurrencesItems, List.flatMap_append]
    have hrest := ih (k := k + 1) (fun y hy => hinner y (List.mem_cons_of_mem x hy))
      fun v hv => hspelled v (List.mem_append_right _ hv)
    have hone := prints_occurrence h (hinner x List.mem_cons_self)
      fun v hv => hspelled v (List.mem_append_left _ hv)
    have hnone : ∀ pen : Pen, pen.first = false →
        (if pen.first = true then namespaceAttribute ns else []) = [] :=
      fun pen hfirst => if_neg (by simp [hfirst])
    refine Prints.append ⟨fun pen hfirst => ?_, fun pen hfirst => ?_⟩ hrest
    · rw [(hone pen).1, hnone pen hfirst]
      simp [occurrenceItems]
    · have hinside := itemsPen_inside (S := S) { pen with isOpen := false }
        (occurrenceItems S m [] (structItems S m order depth) j k x) hfirst rfl
      rw [(hone pen).2, hnone pen hfirst, Pen.eq_inside hinside]
      simp [occurrenceItems]

variable (ns) in
/-- The elements of structures, by the depth. -/
theorem printsStruct (horders : Orders S order) (depth : ℕ) : PrintsStruct S ns m order depth := by
  induction depth with
  | zero => exact fun i a hconforms => hconforms.elim
  | succ depth ih =>
    intro i a hconforms hspelled
    rw [orderedContents] at hspelled ⊢
    rw [List.flatMap_append]
    refine ⟨_, _, rfl, ?_, ?_⟩
    · refine prints_attributes _ fun j hj => ?_
      exact hspelled (.attribute j a (attributeAt S m a j))
        (List.mem_append_left _ (List.mem_map_of_mem hj))
    · have hentries : ∀ j ∈ order i a, S.ElementOf i j := fun j hj => (horders.mem i a j).1 hj
      have hvisits : ∀ v ∈ (order i a).flatMap fun j =>
          occurrencesVisits S m (orderedContents S m order depth) j 0
            (S.occurrences m a (S.element j)), v.Spelled S :=
        fun v hv => hspelled v (List.mem_append_right _ hv)
      rw [structItems]
      generalize order i a = js at hentries hvisits ⊢
      induction js with
      | nil => exact .nil
      | cons j js ihjs =>
        rw [List.flatMap_cons] at hvisits
        rw [List.flatMap_cons, List.flatMap_append, List.flatMap_cons]
        obtain ⟨hj, hjs⟩ := List.forall_mem_cons.1 hentries
        have hx := (hconforms j hj.1 hj.2.1).2 hj.2.2
        refine Prints.append (prints_occurrences ih (fun x hmem hcomplex =>
          (hx x hmem).2 hcomplex) fun v hv => hvisits v (List.mem_append_left _ hv)) ?_
        exact ihjs hjs fun v hv => hvisits v (List.mem_append_right _ hv)

variable (ns) in
/-- **The text of a document** is its tokens as they are printed. -/
theorem documentText_items {obj : Addr} {type : ℕ} (hS : S.Generated) (hread : S.Readable)
    (htype : type < S.length) (hconforms : ConformsTo S m obj type)
    (hspelled : ∀ v ∈ document S m obj type, v.Spelled S) : documentText S ns m obj type =
      printItems S {} (documentItems S m (tableOrder S) (namespaceAttribute ns) obj type) := by
  obtain ⟨hmin, hmax, hattribute, hunbounded⟩ := hS.root type htype
  obtain ⟨hcounted, hinner⟩ := hconforms
  have hone : (S.occurrences m obj (S.element type)).length = 1 := by
    have hleast := hcounted.least hattribute
    have hmost := hcounted.most hattribute hunbounded
    omega
  obtain ⟨x, hx⟩ := List.length_eq_one_iff.1 hone
  have hdocument : document S m obj type =
      occurrenceVisits S m (orderedContents S m (tableOrder S) maxStack) type 0 x := by
    rw [← orderedDocument_table hread, orderedDocument, entryVisits, hattribute,
      if_neg Bool.false_ne_true, hx, occurrencesVisits, occurrencesVisits, List.append_nil]
  rw [hx] at hinner
  rw [hdocument] at hspelled
  have hprints := (prints_occurrence (printsStruct ns (orders_elementsOf S) maxStack)
    (hinner x List.mem_cons_self) hspelled {}).1
  rw [documentText, documentPieces, documentCalls, hdocument, documentItems, hx, List.flatMap_cons,
    List.flatMap_nil, List.append_nil]
  exact hprints

end Objects
end SeClient
