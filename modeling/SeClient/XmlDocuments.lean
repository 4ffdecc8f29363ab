import SeClient.XmlRuns

/-!
# The document of an object

What the tags and texts of an object lead `parse_doc` through is the document of the object: its
structures, with their attributes and the occurrences of their elements.
-/

namespace SeClient
variable {ρ : Type} {S : Schema} {k : XmlSource ρ} {F : ℕ}

/-! ## Attributes -/

section Attributes
variable {m : Heap} {p : Parser (XmlInput ρ)} {type h j l se n : ℕ} {path : List (ℕ × ℕ)}
  {items : List XmlItem} {empty : Bool} {w : Stored} {a : Addr}
  {extra : List (CString × CString)}

theorem mem_attributesAt : l ∈ attributesAt S m (S.entries h).length h a ↔
    S.AttributeOf h l ∧ m.outputCount a (S.element l) ≠ 0 := by
  unfold attributesAt Schema.AttributeOf
  rw [List.mem_filter, List.mem_range'_1]
  simp [and_assoc]

/-- What the parser finds for an attribute among those of the structure. -/
theorem attrValue_written (hread : S.Readable) (hl : S.AttributeOf h l)
    (hextra : ∀ x ∈ extra, x.1 ≠ S.nameOf l) :
    attrValue (extra ++ writtenAttributes S m h a) (S.nameOf l) =
      if m.outputCount a (S.element l) ≠ 0 then some (attributeAt S m a l).spell else none := by
  have hnone : extra.find? (fun x => x.1 = S.nameOf l) = none := by
    rw [List.find?_eq_none]
    intro x hx
    simpa using hextra x hx
  unfold attrValue
  rw [List.find?_append, hnone, Option.none_or]
  have hsame : ∀ x ∈ writtenAttributes S m h a, x.1 = S.nameOf l →
      m.outputCount a (S.element l) ≠ 0 ∧ x.2 = (attributeAt S m a l).spell := by
    intro x hx hname
    obtain ⟨j, hj, rfl⟩ := List.mem_map.1 hx
    obtain ⟨hj, hcount⟩ := mem_attributesAt.1 hj
    obtain rfl := hread.attributes h j l hj hl hname
    exact ⟨hcount, rfl⟩
  cases hfind : (writtenAttributes S m h a).find? fun x => x.1 = S.nameOf l with
  | none =>
    rw [List.find?_eq_none] at hfind
    have hcount : m.outputCount a (S.element l) = 0 := by
      by_contra hcount
      have hmem := mem_attributesAt.2 ⟨hl, hcount⟩
      exact hfind _ (List.mem_map_of_mem hmem) (decide_eq_true rfl)
    rw [if_neg (not_not_intro hcount)]
    rfl
  | some x =>
    obtain ⟨hcount, hvalue⟩ := hsame x (List.mem_of_find?_eq_some hfind)
      (by simpa using List.find?_some hfind)
    rw [if_pos hcount, Option.map_some, hvalue]

/-- The parser waits for the attributes from the entry `j` on. -/
structure AtAttribute (S : Schema) (k : XmlSource ρ) (h j : ℕ) (p : Parser (XmlInput ρ)) :
    Prop where
  least : h ≤ p.se
  most : p.se ≤ j
  absent : ∀ l, p.se ≤ l → l < j → S.AttributeOf h l → k.attr p.input.source (S.nameOf l) = none

theorem AtAttribute.skip (hat : AtAttribute S k h j p)
    (habsent : S.AttributeOf h j → k.attr p.input.source (S.nameOf j) = none) :
    AtAttribute S k h (j + 1) p := by
  refine ⟨hat.least, Nat.le_succ_of_le hat.most, fun l hl hlj hattribute => ?_⟩
  rcases Nat.lt_succ_iff_lt_or_eq.1 hlj with hlj | rfl
  · exact hat.absent l hl hlj hattribute
  · exact habsent hattribute

/-- The value of an attribute that is there. -/
theorem pass_attribute (hread : S.Readable) (hj : S.AttributeOf h j)
    (hfuel : (S.entries h).length + 2 ≤ F) (hlegible : Legible S k j w)
    (hvalue : k.attr p.input.source (S.nameOf j) = some w.spell) (hat : AtAttribute S k h j p)
    (hp : Before S k type .parseNext se path empty items p) :
    ∃ q, Before S k type .parseNext (j + 1) path empty items q ∧
      q.input.source = p.input.source ∧
      p.Leads S (xmlParser S k F) [.attribute j ⟨0, 0⟩ w] q := by
  have hlt := hj.2.1
  have hleast := hat.least
  have hnext : xmlNext S k F p.stack p.toFront =
      (true, { p.toFront.withPtr w.spell with state := .parseElement, se := j }) :=
    xmlNextLoop_attribute hread p.stack hat.least hat.most hj (by omega) hp.state
      (fun l hl hlj => hat.absent l hl hlj (hread.before hj (by omega) hlj.le)) hvalue
  obtain ⟨q, hfront, hpath, hfinds⟩ := Parser.leads_next (S := S) (d := xmlParser S k F) hp.state
    hnext
  have hse : q.se = j := by rw [hfront]
  obtain ⟨q', hfront', hpath', henters⟩ := Parser.leads_attribute (S := S) (d := xmlParser S k F)
    (by rw [hfront]) (by rw [hse]; exact hj.2.2)
  rw [hfront] at hfront'
  have hparse : xmlParseValue S k q'.toFront = (true, w, q'.toFront) :=
    hlegible _ (by rw [hfront']) (by rw [hfront']; rfl)
  obtain ⟨r, hfront'', hpath'', hvalue⟩ := Parser.leads_attribute_value (S := S)
    (d := xmlParser S k F) (by rw [hfront']) hparse
  have hse' : q'.se = j := by rw [hfront']
  rw [hfront'] at hfront''
  rw [hse'] at hvalue
  refine ⟨r, before_of_front hfront'' (hpath''.trans (hpath'.trans (hpath.trans hp.path))) hp.type
    hp.empty (hp.sees.withPtr w.spell), by rw [hfront'']; rfl, ?_⟩
  exact (hfinds.trans henters).trans hvalue

/-- The attributes of a structure. -/
theorem pass_attributes (hread : S.Readable) (hfuel : (S.entries h).length + 2 ≤ F)
    (hj : j + n = h + (S.entries h).length) (hle : h ≤ j)
    (hlegible : ∀ l ∈ attributesAt S m n j a, Legible S k l (attributeAt S m a l))
    (hvalues : ∀ l, S.AttributeOf h l → k.attr p.input.source (S.nameOf l) =
      if m.outputCount a (S.element l) ≠ 0 then some (attributeAt S m a l).spell else none)
    (hat : AtAttribute S k h j p) (hp : Before S k type .parseNext se path empty items p) :
    ∃ q se', Before S k type .parseNext se' path empty items q ∧ InElements S k h q ∧
      p.Leads S (xmlParser S k F) ((attributesAt S m n j a).map fun l =>
        .attribute l ⟨0, 0⟩ (attributeAt S m a l)) q := by
  induction n generalizing j p se with
  | zero =>
    have hmost := hat.most
    refine ⟨p, se, hp, ⟨hat.least, by omega, fun l hl hattribute => ?_⟩, .refl⟩
    exact hat.absent l hl (by have := hattribute.2.1; omega) hattribute
  | succ n ih =>
    have hsplit : attributesAt S m (n + 1) j a =
        (if (S.element j).isAttribute = true ∧ m.outputCount a (S.element j) ≠ 0 then [j]
          else []) ++ attributesAt S m n (j + 1) a := by
      unfold attributesAt
      rw [List.range'_succ, List.filter_cons]
      by_cases hthere : (S.element j).isAttribute = true ∧ m.outputCount a (S.element j) ≠ 0
      · simp [hthere]
      · rw [if_neg hthere, if_neg (by simpa using hthere)]
        rfl
    rw [hsplit] at hlegible ⊢
    by_cases hthere : (S.element j).isAttribute = true ∧ m.outputCount a (S.element j) ≠ 0
    · rw [if_pos hthere] at hlegible ⊢
      have hattribute : S.AttributeOf h j := ⟨hle, by omega, hthere.1⟩
      have hvalue := hvalues j hattribute
      rw [if_pos hthere.2] at hvalue
      obtain ⟨q, hq, hsource, hpasses⟩ := pass_attribute hread hattribute hfuel
        (hlegible j (by simp)) hvalue hat hp
      obtain ⟨r, se', hr, hwithin, hrest⟩ := ih (p := q) (j := j + 1) (by omega) (by omega)
        (fun l hl => hlegible l (by simp [hl])) (by rw [hsource]; exact hvalues)
        ⟨by rw [hq.se]; omega, by rw [hq.se], fun l hl hlj => by rw [hq.se] at hl; omega⟩ hq
      exact ⟨r, se', hr, hwithin, hpasses.trans hrest⟩
    · rw [if_neg hthere] at hlegible ⊢
      rw [List.nil_append] at hlegible ⊢
      refine ih (by omega) (by omega) hlegible hvalues (hat.skip fun hattribute => ?_) hp
      have hcount : m.outputCount a (S.element j) = 0 := by
        by_contra hcount
        exact hthere ⟨hattribute.2.2, hcount⟩
      rw [hvalues j hattribute, if_neg (not_not_intro hcount)]

end Attributes

/-! ## Elements -/

section Elements
variable {m : Heap} {order : ℕ → Addr → List ℕ} {p : Parser (XmlInput ρ)} {x a : Addr}
  {xs : List Addr} {type h i j c se depth : ℕ} {path : List (ℕ × ℕ)} {rest : List XmlItem}
  {L : List ℕ}

/-- The occurrences of an element are different from any other tag. -/
theorem otherThan_elements (hread : S.Readable) (hi : S.ElementOf h i)
    (hL : ∀ e ∈ L, S.ElementOf h e) (hnot : i ∉ L) (f : ℕ → Addr → List XmlItem) :
    OtherThan S i (L.flatMap (fun e =>
      occurrencesItems S m f e 0 (S.occurrences m a (S.element e))) ++ .close j :: rest) := by
  induction L with
  | nil => exact Or.inl ⟨j, rest, rfl⟩
  | cons e L ih =>
    rw [List.flatMap_cons, List.append_assoc]
    cases hoccurs : S.occurrences m a (S.element e) with
    | nil =>
      exact ih (fun e he => hL e (List.mem_cons_of_mem _ he)) fun he =>
        hnot (List.mem_cons_of_mem _ he)
    | cons x xs =>
      refine Or.inr ⟨_, e, _, _, rfl, fun hname => hnot ?_⟩
      rw [hread.elements h i e hi (hL e List.mem_cons_self) hname]
      exact List.mem_cons_self

/-- The tokens of the structures that conform lead the parser through their contents, to where
their element ends. -/
def ReadsStruct (S : Schema) (k : XmlSource ρ) (m : Heap) (order : ℕ → Addr → List ℕ)
    (F type depth : ℕ) : Prop :=
  ∀ {h j c : ℕ} {a : Addr} {path : List (ℕ × ℕ)} {rest : List XmlItem} {p : Parser (XmlInput ρ)},
    h = (S.element j).index + 1 → Conforms S m depth h a → path.length + 1 + depth = maxStack + 1 →
    (∀ v ∈ orderedContents S m order depth h a, v.Legible S k) →
    (∀ l, S.AttributeOf h l → k.attr p.input.source (S.nameOf l) =
      if m.outputCount a (S.element l) ≠ 0 then some (attributeAt S m a l).spell else none) →
    Before S k type .parseNext h ((j, c) :: path) (structItems S m order depth h a).isEmpty
      (if (structItems S m order depth h a).isEmpty then rest
        else structItems S m order depth h a ++ .close j :: rest) p →
    ∃ q se, Before S k type .parseEnd se ((j, c) :: path)
        (structItems S m order depth h a).isEmpty
        (if (structItems S m order depth h a).isEmpty then rest else .close j :: rest) q ∧
      p.Leads S (xmlParser S k F) ((orderedContents S m order depth h a).map Visit.shape) q

/-- The attributes in a tag are those of the structure. -/
theorem shows_attributes (hread : S.Readable) (hcomplex : (S.element i).simple = false)
    {empty : Bool} {extra : List (CString × CString)} {r : ρ}
    (hextra : ∀ y ∈ extra, ∀ l, S.AttributeOf ((S.element i).index + 1) l → y.1 ≠ S.nameOf l)
    (hshows : (XmlItem.tag empty i (occurrenceAttributes S m extra i x)).Shows S k r) (l : ℕ)
    (hl : S.AttributeOf ((S.element i).index + 1) l) : k.attr r (S.nameOf l) =
      if m.outputCount x (S.element l) ≠ 0 then some (attributeAt S m x l).spell else none := by
  rw [hshows.2 hcomplex l hl, occurrenceAttributes, hcomplex, if_neg Bool.false_ne_true]
  exact attrValue_written hread hl fun y hy => hextra y hy l hl

theorem occurrenceEmpty_complex {f : ℕ → Addr → List XmlItem}
    (hempty : occurrenceEmpty S f i x = true) : (S.element i).simple = false := by
  unfold occurrenceEmpty at hempty
  cases hsimple : (S.element i).simple with
  | false => rfl
  | true => simp [hsimple] at hempty

theorem occurrenceTail_complex {f : ℕ → Addr → List XmlItem}
    (hcomplex : (S.element i).simple = false) : occurrenceTail S m f i c x ++ rest =
      if (f ((S.element i).index + 1) x).isEmpty then rest
      else f ((S.element i).index + 1) x ++ .close i :: rest := by
  rw [occurrenceTail, hcomplex, if_neg Bool.false_ne_true]
  dsimp only
  split
  · rfl
  · simp

/-- An occurrence behind its tag. -/
theorem pass_occurrence (hread : S.Readable) (hstructs : ReadsStruct S k m order F type depth)
    (hdepth : path.length + 1 + depth = maxStack + 1)
    (hinner : (S.element i).simple = false → Conforms S m depth ((S.element i).index + 1) x)
    (hlegible : ∀ v ∈ insideVisits S m (orderedContents S m order depth) i c x, v.Legible S k)
    (hse : (S.element i).simple = true → se = i) {extra : List (CString × CString)}
    (hextra : ∀ y ∈ extra, ∀ l, S.AttributeOf ((S.element i).index + 1) l → y.1 ≠ S.nameOf l)
    (hshows : (XmlItem.tag (occurrenceEmpty S (structItems S m order depth) i x) i
      (occurrenceAttributes S m extra i x)).Shows S k p.input.source)
    (hp : Before S k type (insideState S i) (insideEntry S i se) ((i, c) :: path)
      (occurrenceEmpty S (structItems S m order depth) i x)
      (occurrenceTail S m (structItems S m order depth) i c x ++ rest) p) :
    ∃ q se', Before S k type (afterState S i (c + 1)) se' ((i, c + 1) :: path) false rest q ∧
      ((S.element i).simple = true → se' = i) ∧
      p.Leads S (xmlParser S k F)
        ((insideVisits S m (orderedContents S m order depth) i c x).map Visit.shape ++
          [.leave i]) q := by
  cases hsimple : (S.element i).simple with
  | true =>
    rw [insideVisits, if_pos hsimple] at hlegible ⊢
    rw [insideState, if_pos hsimple, insideEntry, if_pos hsimple, hse hsimple, occurrenceEmpty,
      hsimple, occurrenceTail, if_pos hsimple, List.append_assoc] at hp
    obtain ⟨q, hq, hvalue⟩ := pass_value (F := F) (hlegible _ List.mem_cons_self) hp
    have hq : Before S k type .parseEnd i ((i, c) :: path) false
        (if false = true then rest else .close i :: rest) q := hq
    obtain ⟨r, hr, hends⟩ := pass_end (F := F) hq
    exact ⟨r, i, hr, fun _ => rfl, hvalue.trans hends⟩
  | false =>
    have hnot : ¬(S.element i).simple = true := Bool.eq_false_iff.1 hsimple
    rw [insideVisits, if_neg hnot] at hlegible ⊢
    rw [insideState, if_neg hnot, insideEntry, if_neg hnot, occurrenceEmpty, hsimple,
      Bool.not_false, Bool.true_and, occurrenceTail_complex hsimple] at hp
    obtain ⟨q, se', hq, hreads⟩ := hstructs rfl (hinner hsimple) hdepth hlegible
      (shows_attributes hread hsimple hextra hshows) hp
    obtain ⟨r, hr, hends⟩ := pass_end (F := F) hq
    exact ⟨r, se', hr, fun h => absurd h Bool.false_ne_true, hreads.trans hends⟩

/-- The occurrences of an element, the first of them behind its tag. -/
theorem pass_occurrences (hread : S.Readable) (hstructs : ReadsStruct S k m order F type depth)
    (hdepth : path.length + 1 + depth = maxStack + 1)
    (hinner : ∀ y ∈ x :: xs,
      (S.element i).simple = false → Conforms S m depth ((S.element i).index + 1) y)
    (hlegible : ∀ v ∈ occurrencesVisits S m (orderedContents S m order depth) i c (x :: xs),
      v.Legible S k)
    (hmin : (S.element i).min ≤ c + 1 + xs.length)
    (hmax : (S.element i).unbounded = false → c + 1 + xs.length ≤ (S.element i).max)
    (hother : OtherThan S i rest) (hse : (S.element i).simple = true → se = i)
    (hshows : (XmlItem.tag (occurrenceEmpty S (structItems S m order depth) i x) i
      (occurrenceAttributes S m [] i x)).Shows S k p.input.source)
    (hp : Before S k type (insideState S i) (insideEntry S i se) ((i, c) :: path)
      (occurrenceEmpty S (structItems S m order depth) i x)
      (occurrenceTail S m (structItems S m order depth) i c x ++
        (occurrencesItems S m (structItems S m order depth) i (c + 1) xs ++ rest)) p) :
    ∃ q, Before S k type .parseNext (i + 1) path false rest q ∧
      p.Leads S (xmlParser S k F)
        ((insideVisits S m (orderedContents S m order depth) i c x ++ .leave i ::
          occurrencesVisits S m (orderedContents S m order depth) i (c + 1) xs).map Visit.shape)
        q := by
  have hnoextra : ∀ y ∈ ([] : List (CString × CString)), ∀ l,
      S.AttributeOf ((S.element i).index + 1) l → y.1 ≠ S.nameOf l := by simp
  rw [occurrencesVisits_cons] at hlegible
  -- On the occurrences that follow: the tag of each is read where the one before ends.
  induction xs generalizing p c x se with
  | nil =>
    obtain ⟨q, se', hq, -, hinside⟩ := pass_occurrence (F := F) hread hstructs hdepth
      (hinner x List.mem_cons_self) (fun v hv => hlegible v (by simp [hv])) hse hnoextra hshows hp
    obtain ⟨r, hr, hlast⟩ := pass_last (F := F) hmin (fun _ => hother) hq
    refine ⟨r, hr, ?_⟩
    simpa [occurrencesVisits, Visit.shape] using hinside.trans hlast
  | cons y xs ih =>
    obtain ⟨q, se', hq, hsame, hinside⟩ := pass_occurrence (F := F) hread hstructs hdepth
      (hinner x List.mem_cons_self) (fun v hv => hlegible v (by simp [hv])) hse hnoextra hshows hp
    have hmore : (S.element i).unbounded = true ∨ c + 1 < (S.element i).max := by
      cases hunbounded : (S.element i).unbounded with
      | true => exact Or.inl rfl
      | false =>
        have hle := hmax hunbounded
        rw [List.length_cons] at hle
        exact Or.inr (by omega)
    rw [afterState, if_pos hmore, occurrencesItems, occurrenceItems, List.cons_append,
      List.cons_append, List.append_assoc] at hq
    obtain ⟨r, hr, hshows', hagain⟩ := pass_again (F := F) occurrenceEmpty_complex hmore hq
    have hlength : c + 1 + (y :: xs).length = c + 1 + 1 + xs.length := by
      rw [List.length_cons]
      omega
    rw [hlength] at hmin hmax
    obtain ⟨r', hr', hrest⟩ := ih (p := r) (c := c + 1) (x := y)
      (fun z hz => hinner z (List.mem_cons_of_mem x hz))
      (fun v hv => hlegible v (by rw [← occurrencesVisits_cons] at hv; simp [hv]))
      hmin hmax hsame hshows' hr
    refine ⟨r', hr', ?_⟩
    simpa [occurrencesVisits_cons, Visit.shape] using (hinside.trans hagain).trans hrest

/-- The elements of a structure, in any order, up to the end of the element. -/
theorem pass_elements (hread : S.Readable) (hstructs : ReadsStruct S k m order F type depth)
    (hh : h = (S.element j).index + 1) (hfuel : (S.entries h).length + 2 ≤ F)
    (hdepth : path.length + 1 + (depth + 1) = maxStack + 1)
    (hconforms : Conforms S m (depth + 1) h a)
    (hL : ∀ e ∈ L, S.ElementOf h e) (hnodup : L.Nodup)
    (hlegible : ∀ v ∈ L.flatMap fun e => occurrencesVisits S m (orderedContents S m order depth) e 0
      (S.occurrences m a (S.element e)), v.Legible S k) (hwithin : InElements S k h p)
    (hp : Before S k type .parseNext se ((j, c) :: path) false
      (L.flatMap (fun e => occurrencesItems S m (structItems S m order depth) e 0
        (S.occurrences m a (S.element e))) ++ .close j :: rest) p) :
    ∃ q se', Before S k type .parseEnd se' ((j, c) :: path) false (.close j :: rest) q ∧
      p.Leads S (xmlParser S k F) ((L.flatMap fun e => occurrencesVisits S m
        (orderedContents S m order depth) e 0 (S.occurrences m a (S.element e))).map Visit.shape)
        q := by
  induction L generalizing p se with
  | nil => exact next_close (F := F) hread hh hwithin hfuel hp
  | cons e L ih =>
    have he := hL e List.mem_cons_self
    have hlater : ∀ e' ∈ L, S.ElementOf h e' := fun e' he' => hL e' (List.mem_cons_of_mem e he')
    obtain ⟨hcounted, hoccurs⟩ := hconforms e he.1 he.2.1
    have hleast := hcounted.least he.2.2
    have hmost := hcounted.most he.2.2
    have hoccurs := hoccurs he.2.2
    rw [List.flatMap_cons] at hlegible ⊢
    rw [List.flatMap_cons, List.append_assoc] at hp
    cases hlist : S.occurrences m a (S.element e) with
    -- An element that does not occur has no tokens.
    | nil =>
      rw [hlist] at hp hlegible
      exact ih hlater hnodup.of_cons hlegible hwithin hp
    | cons x xs =>
      rw [hlist] at hleast hmost hoccurs hlegible hp
      have hother : OtherThan S e (L.flatMap (fun e => occurrencesItems S m
          (structItems S m order depth) e 0 (S.occurrences m a (S.element e))) ++
          .close j :: rest) :=
        otherThan_elements hread he hlater (List.nodup_cons.1 hnodup).1 _
      have hroom : ((j, c) :: path).length ≠ maxStack := by
        have hinner := (hoccurs x List.mem_cons_self).1
        rw [List.length_cons]
        omega
      have hlength : 0 + 1 + xs.length = (x :: xs).length := by
        rw [List.length_cons]
        omega
      rw [occurrencesItems, occurrenceItems, List.cons_append, List.cons_append,
        List.append_assoc] at hp
      obtain ⟨q, hq, hshows, htag⟩ := next_tag (F := F) hread he occurrenceEmpty_complex hh hwithin
        hfuel hp
      obtain ⟨q', hq', hinput, henter⟩ := enter_element (F := F) he.2.2 hroom hq
      obtain ⟨r, hr, hpasses⟩ := pass_occurrences (F := F) hread hstructs
        (by rw [List.length_cons]; omega) (fun y hy => (hoccurs y hy).2)
        (fun v hv => hlegible v (List.mem_append_left _ hv)) (by rw [hlength]; exact hleast)
        (by rw [hlength]; exact hmost) hother (fun _ => rfl) (by rw [hinput]; exact hshows) hq'
      -- Behind an element there are no attributes any more.
      have hbehind : InElements S k h r := by
        have hle := he.1
        have hlt := he.2.1
        refine ⟨by rw [hr.se]; omega, by rw [hr.se]; omega, fun l hl hattribute => ?_⟩
        rw [hr.se] at hl
        have helement := hread.behind he (by omega) hattribute.2.1
        have hnot := hattribute.2.2
        rw [helement.2.2] at hnot
        exact absurd hnot Bool.false_ne_true
      obtain ⟨r', se', hr', hrest⟩ := ih hlater hnodup.of_cons
        (fun v hv => hlegible v (List.mem_append_right _ hv)) hbehind hr
      refine ⟨r', se', hr', ?_⟩
      simpa [occurrencesVisits_cons, Visit.shape] using
        ((htag.trans henter).trans hpasses).trans hrest

/-- A structure without tokens has no elements. -/
theorem no_elements (horders : Orders S order)
    (hempty : (structItems S m order (depth + 1) h a).isEmpty = true) (e : ℕ)
    (he : S.ElementOf h e) : S.occurrences m a (S.element e) = [] := by
  rw [List.isEmpty_iff, structItems, List.flatMap_eq_nil_iff] at hempty
  have hnone := hempty e ((horders.mem h a e).2 he)
  cases hlist : S.occurrences m a (S.element e) with
  | nil => rfl
  | cons x xs => simp [hlist, occurrencesItems, occurrenceItems] at hnone

/-- `parse_doc` reads each structure that conforms. -/
theorem readsStruct (hread : S.Readable) (horders : Orders S order)
    (hfuel : ∀ h, (S.entries h).length + 2 ≤ F) (m : Heap) (type depth : ℕ) :
    ReadsStruct S k m order F type depth := by
  induction depth with
  | zero =>
    intro h j c a path rest p hh hconforms
    exact hconforms.elim
  | succ depth ih =>
    intro h j c a path rest p hh hconforms hdepth hlegible hvalues hp
    rw [orderedContents] at hlegible ⊢
    have hattributes : ∀ l ∈ attributesAt S m (S.entries h).length h a,
        Legible S k l (attributeAt S m a l) :=
      fun l hl => hlegible _ (List.mem_append_left _ (List.mem_map_of_mem hl))
    obtain ⟨q, se, hq, hwithin, hpasses⟩ := pass_attributes (F := F) (m := m) (j := h) hread
      (hfuel h) rfl le_rfl hattributes hvalues
      ⟨by rw [hp.se], by rw [hp.se], fun l hl hlj => by rw [hp.se] at hl; omega⟩ hp
    rw [List.map_append, List.map_map]
    cases hempty : (structItems S m order (depth + 1) h a).isEmpty with
    -- An empty tag: no element has to occur, and the parser leaves the type at its end.
    | true =>
      have hnone := no_elements horders hempty
      have hvisits : ((order h a).flatMap fun e => occurrencesVisits S m
          (orderedContents S m order depth) e 0 (S.occurrences m a (S.element e))) = [] := by
        rw [List.flatMap_eq_nil_iff]
        intro e he
        rw [hnone e ((horders.mem h a e).1 he), occurrencesVisits]
      have hmin : ∀ e, S.ElementOf h e → (S.element e).min = 0 := by
        intro e he
        have hleast := ((hconforms e he.1 he.2.1).1).least he.2.2
        rw [hnone e he] at hleast
        exact Nat.le_zero.1 hleast
      rw [hempty] at hq
      obtain ⟨r, se', hr, hends⟩ := next_empty (F := F) hwithin hmin (hfuel h) hq
      refine ⟨r, se', hr, ?_⟩
      rw [hvisits]
      exact hpasses.trans hends
    | false =>
      rw [hempty, if_neg Bool.false_ne_true] at hq
      obtain ⟨r, se', hr, hends⟩ := pass_elements (F := F) hread ih hh (hfuel h) hdepth hconforms
        (fun e he => (horders.mem h a e).1 he) (horders.nodup h a)
        (fun v hv => hlegible v (List.mem_append_right _ hv)) hwithin hq
      exact ⟨r, se', hr, hpasses.trans hends⟩

end Elements

/-! ## Documents -/

/-- `parse_doc` with the XML driver reads an object of the type `type`, and does `visits`. -/
def XmlDecodes (S : Schema) (k : XmlSource ρ) (F : ℕ) (m : Heap) (r : ρ) (type : ℕ)
    (visits : List Visit) : Prop :=
  ∃ p p' obj, Relation.ReflTransGen (ParserGoes S (xmlParser S k F))
      ({ input := { source := r }, heap := m }, []) (p, visits) ∧
    Parser.step S (xmlParser S k F) p = .done p' type obj

section Documents
variable {m heap : Heap} {order : ℕ → Addr → List ℕ} {obj : Addr} {type : ℕ} {r : ρ}
  {extra attrs : List (CString × CString)} {items : List XmlItem} {empty : Bool}

/-- `find_se_name` finds a global element by its name. -/
theorem findSeName_eq (hread : S.Readable) (htype : type < S.length) :
    findSeName S (S.nameOf type) = some type := by
  have hname : ∀ i < S.length, S.nameOf i = S.names.getD i [] := by
    intro i hi
    rw [Schema.nameOf, Schema.seName, if_pos hi]
  unfold findSeName
  rw [List.find?_range_eq_some]
  refine ⟨by simp [hname type htype], List.mem_range.2 htype, fun i hi => ?_⟩
  have hother : S.names.getD i [] ≠ S.nameOf type := by
    rw [← hname i (hi.trans htype)]
    intro hsame
    have := hread.globals i type (hi.trans htype) htype hsame
    omega
  simpa using hother

/-- The tag that starts a document. -/
theorem pass_start (heap : Heap) (hread : S.Readable) (htype : type < S.length) (hF : F ≠ 0)
    (hitems : empty = true → items = [])
    (h : Tokenizes S k r (.tag empty type attrs :: items)) :
    ∃ q, Before S k type .parseElement type [] empty items q ∧
      (XmlItem.tag empty type attrs).Shows S k q.input.source ∧
      Parser.Leads S (xmlParser S k F) { input := { source := r }, heap := heap } [] q := by
  obtain ⟨F, rfl⟩ := Nat.exists_eq_succ_of_ne_zero hF
  cases h with
  | @cons r r' item items htoken hshows hs =>
    have hfind : findSeName S (k.name r') = some type := by
      rw [hshows.1]
      exact findSeName_eq hread htype
    have hstart : xmlStart S k (F + 1) { input := { source := r } } =
        (true, ⟨.parseStart, type, type, (XmlItem.tag empty type attrs).token, !empty, empty, false,
          [], r'⟩) := by
      unfold xmlStart xmlStartLoop
      cases empty with
      | false => simp [parseToken, htoken, hfind]
      | true => simp [parseToken, htoken, hfind]
    let token := (XmlItem.tag empty type attrs).token
    refine ⟨⟨⟨.parseElement, type, type, ⟨token, !empty, empty, false, [], r'⟩⟩, [], heap.calloc.2,
      heap.calloc.2, 0, heap.calloc.1⟩, ⟨rfl, rfl, rfl, rfl, rfl, ?_⟩, hshows, .single ?_ rfl⟩
    · cases empty with
      | false => exact .fresh rfl hs
      | true =>
        rw [hitems rfl]
        exact .used rfl
    · simp only [Parser.step, xmlParser, hstart, if_true]
      rfl

/-- Behind the document. -/
theorem pass_done {p : Parser (XmlInput ρ)} (hS : S.Generated) (htype : type < S.length)
    (hF : 2 ≤ F) (hp : Before S k type .parseNext (type + 1) [] false [] p) :
    ∃ q, p.Leads S (xmlParser S k F) [] q ∧
      ∃ p' obj, Parser.step S (xmlParser S k F) q = .done p' type obj := by
  have hstack : p.stack = [] := List.map_eq_nil_iff.1 hp.path
  have hnext : xmlNext S k F p.stack p.toFront =
      (true, { p.toFront with state := .parseEnd, se := type + 1 }) := by
    obtain ⟨F, rfl⟩ := Nat.exists_eq_succ_of_ne_zero (show F ≠ 0 by omega)
    have hlast : (S.element p.se).n = 0 := by
      rw [hp.se]
      exact hS.globals (type + 1) htype
    unfold xmlNext
    conv_lhs => unfold xmlNextLoop
    rw [if_neg (not_not_intro hp.state), if_pos hlast, hstack, ← hp.se]
    exact xmlNextLoop_done _ _ _ ParserState.noConfusion
  obtain ⟨q, hfront, hpath, hleads⟩ := Parser.leads_next (S := S) (d := xmlParser S k F)
    hp.state hnext
  have hempty : q.stack = [] := List.map_eq_nil_iff.1 (hpath.trans hp.path)
  have hend : q.state = .parseEnd := by rw [hfront]
  have hsame : q.type = type := by rw [hfront]; exact hp.type
  refine ⟨q, hleads, { q.withFront ((xmlParser S k F).parseDone q.toFront) with
    state := .parseStart }, q.obj, ?_⟩
  simp [Parser.step, hend, hempty, Parser.withFront, xmlParser, hsame]

/-- **`parse_doc` reads the tags and texts of an object**, whatever the order of its elements. -/
theorem document_read (hS : S.Generated) (hread : S.Readable) (horders : Orders S order)
    (hfuel : ∀ h, (S.entries h).length + 2 ≤ F) (htype : type < S.length)
    (hconforms : ConformsTo S m obj type)
    (hlegible : ∀ v ∈ orderedDocument S m order obj type, v.Legible S k)
    (hextra : ∀ y ∈ extra, ∀ l, S.AttributeOf ((S.element type).index + 1) l → y.1 ≠ S.nameOf l)
    (h : Tokenizes S k r (documentItems S m order extra obj type)) (heap : Heap) :
    ∃ visits, XmlDecodes S k F heap r type visits ∧
      visits.map Visit.shape = (orderedDocument S m order obj type).map Visit.shape := by
  have hF : 2 ≤ F := (Nat.le_add_left 2 _).trans (hfuel 0)
  obtain ⟨hmin, hmax, hattribute, hunbounded⟩ := hS.root type htype
  obtain ⟨hcounted, hinner⟩ := hconforms
  have hone : (S.occurrences m obj (S.element type)).length = 1 := by
    have hleast := hcounted.least hattribute
    have hmost := hcounted.most hattribute hunbounded
    omega
  obtain ⟨x, hx⟩ := List.length_eq_one_iff.1 hone
  rw [hx] at hinner
  have hvisits : orderedDocument S m order obj type = .enter type x ::
      (insideVisits S m (orderedContents S m order maxStack) type 0 x ++ [.leave type]) := by
    rw [orderedDocument, entryVisits, hattribute, if_neg Bool.false_ne_true, hx,
      occurrencesVisits_cons, occurrencesVisits]
  rw [hvisits] at hlegible ⊢
  rw [documentItems, hx, List.flatMap_cons, List.flatMap_nil, List.append_nil, occurrenceItems] at h
  have hall : occurrenceEmpty S (structItems S m order maxStack) type x = true →
      occurrenceTail S m (structItems S m order maxStack) type 0 x = [] := by
    intro hempty
    have hsimple := occurrenceEmpty_complex hempty
    rw [occurrenceEmpty, hsimple, Bool.not_false, Bool.true_and] at hempty
    rw [occurrenceTail, hsimple, if_neg Bool.false_ne_true]
    exact if_pos hempty
  obtain ⟨p, hp, hshows, hstarts⟩ := pass_start (F := F) heap hread htype (by omega) hall h
  obtain ⟨q, hq, hinput, henter⟩ := enter_element (F := F) hattribute (by decide) hp
  rw [← hinput] at hshows
  rw [← List.append_nil (occurrenceTail S m _ type 0 x)] at hq
  obtain ⟨q', se, hq', -, hinside⟩ := pass_occurrence (F := F) hread
    (readsStruct hread horders hfuel m type maxStack) (by decide) (hinner x List.mem_cons_self)
    (fun v hv => hlegible v (by simp [hv])) (fun _ => rfl) hextra hshows hq
  have hfull : ¬((S.element type).unbounded = true ∨ 0 + 1 < (S.element type).max) := by
    simp [hmax, hunbounded]
  obtain ⟨r', hr', hlast⟩ := pass_last (F := F) (by omega) (fun hmore => absurd hmore hfull) hq'
  obtain ⟨r'', hdone, p', obj', hstep⟩ := pass_done (F := F) hS htype hF hr'
  obtain ⟨visits, hruns, hshapes⟩ :=
    ((((hstarts.trans henter).trans hinside).trans hlast).trans hdone) []
  refine ⟨visits, ⟨r'', p', obj', hruns, hstep⟩, ?_⟩
  rw [hshapes]
  simp [Visit.shape]

end Documents

/-! ## A notification -/

/-- The elements of a type in the order of the table. -/
def Schema.elementsOf (S : Schema) (i : ℕ) : List ℕ :=
  (List.range' i (S.entries i).length).filter fun j => !(S.element j).isAttribute

theorem Schema.mem_elementsOf {S : Schema} {i j : ℕ} :
    j ∈ S.elementsOf i ↔ S.ElementOf i j := by
  unfold Schema.elementsOf Schema.ElementOf
  rw [List.mem_filter, List.mem_range'_1]
  simp [and_assoc]

theorem orders_elementsOf (S : Schema) : Orders S fun i _ => S.elementsOf i where
  nodup := fun _ _ => List.Nodup.filter _ List.nodup_range'
  mem := fun _ _ _ => Schema.mem_elementsOf

theorem orders_reverse (S : Schema) : Orders S fun i _ => (S.elementsOf i).reverse where
  nodup := fun i a => List.nodup_reverse.2 ((orders_elementsOf S).nodup i a)
  mem := fun _ _ _ => List.mem_reverse.trans Schema.mem_elementsOf

/-- The names of the notification are `n`, `u` and `s`. -/
def namedNotification : Schema :=
  { notification with names := [chars ['n'], chars ['u'], chars ['s']], ids := [0, 1, 2] }

theorem namedNotification_generated : namedNotification.Generated :=
  { notification_generated with }

/-- A notification with the status 7 and the URI `x`. -/
def resourceHeap : Heap where
  flags := fun _ => 1
  value := fun a => if a.offset = 4 then some (.number 7)
    else if a.offset = 8 then some (.text (chars ['x'])) else none
  items := fun _ => []
  fresh := 1

theorem resourceHeap_conforms : ConformsTo namedNotification resourceHeap ⟨0, 0⟩ 0 := by
  have hcounted : ∀ j < 4, j ≠ 1 →
      namedNotification.Counted resourceHeap ⟨0, 0⟩ (namedNotification.element j) := by
    intro j hj hhead
    interval_cases j
    · exact ⟨by decide, by decide, by decide⟩
    · exact absurd rfl hhead
    · exact ⟨by decide, by decide, by decide⟩
    · exact ⟨by decide, by decide, by decide⟩
  have hroot : namedNotification.occurrences resourceHeap ⟨0, 0⟩ (namedNotification.element 0) =
      [⟨0, 0⟩] := rfl
  refine ⟨hcounted 0 (by decide) (by decide), fun x hx _ => ?_⟩
  rw [hroot, List.mem_singleton] at hx
  subst hx
  show Conforms namedNotification resourceHeap (31 + 1) 2 ⟨0, 0⟩
  intro j hj hlt
  have hlt : j < 4 := hlt
  refine ⟨hcounted j hlt (by omega), fun _ x _ => ⟨by decide, fun hcomplex => ?_⟩⟩
  interval_cases j
  · exact absurd hcomplex (by decide)
  · exact absurd hcomplex (by decide)

theorem namedNotification_entries {i j : ℕ} (hi : i ≤ j)
    (hj : j < i + (namedNotification.entries i).length) : j = 2 ∨ j = 3 := by
  have hn := namedNotification.n_ne_zero hi hj
  exact notification_cases (P := fun i se => se.n ≠ 0 → i = 2 ∨ i = 3) (fun h => absurd rfl h)
    (fun h => absurd rfl h) (fun _ => Or.inl rfl) (fun _ => Or.inr rfl)
    (fun _ _ h => absurd rfl h) j hn

theorem namedNotification_readable : namedNotification.Readable := by
  have hattribute : ∀ j, (namedNotification.element j).isAttribute = false :=
    notification_cases (P := fun _ se => se.isAttribute = false) rfl rfl rfl rfl fun _ _ => rfl
  refine ⟨fun i j _ _ => hattribute (j + 1), fun i j j' hj => ?_, fun i j j' hj hj' hname => ?_,
    fun i j hi hj _ => ?_⟩
  · exact absurd ((hattribute j).symm.trans hj.2.2) Bool.false_ne_true
  · rcases namedNotification_entries hj.1 hj.2.1 with rfl | rfl
    · rcases namedNotification_entries hj'.1 hj'.2.1 with rfl | rfl
      · rfl
      · exact absurd hname (by decide)
    · rcases namedNotification_entries hj'.1 hj'.2.1 with rfl | rfl
      · exact absurd hname (by decide)
      · rfl
  · have hi : i < 1 := hi
    have hj : j < 1 := hj
    omega

theorem namedNotification_fuel (h : ℕ) : (namedNotification.entries h).length + 2 ≤ 5 := by
  by_contra hlong
  have hfirst := namedNotification_entries (i := h) (j := h) le_rfl (by omega)
  have hlast := namedNotification_entries (i := h) (j := h + 2) (by omega) (by omega)
  omega

end SeClient
