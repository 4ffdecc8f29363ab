import SeClient.ParserSteps
import SeClient.XmlReading

/-!
# Reading the document of an object

The tags and texts of an object lead `parse_doc` through its contents, one occurrence of an element
after the other.
-/

namespace SeClient
variable {ρ : Type} {S : Schema} {k : XmlSource ρ} {F : ℕ}

/-! ## The other functions of the driver -/

section Front
variable {f : Front (XmlInput ρ)} {i j : ℕ} {w : Stored} {items : List XmlItem}

/-- `parse_text_value` reads the text of a value, up to the end tag. -/
theorem parseTextValue_reads (hse : f.se = i) (hlegible : Legible S k i w)
    (hsees : Sees S k f.input (textItems w.spell ++ .close j :: items)) :
    ∃ g, parseTextValue S k f = (true, w, g) ∧ g.type = f.type ∧ g.se = i ∧
      g.input.empty = f.input.empty ∧ Sees S k g.input (.close j :: items) := by
  by_cases hspell : w.spell = []
  · rw [textItems, if_pos hspell, List.nil_append] at hsees
    obtain ⟨r, hparse, hshows, hs⟩ := hsees.parseToken
    have htext : parseTextToken k f =
        (true, { f with input := { f.input.peek (.close j) r with ptr := [] } }) := by
      unfold parseTextToken
      rw [hparse]
      rfl
    have hvalue : parseTextValue S k f =
        (true, w, { f with input := { f.input.peek (.close j) r with ptr := [] } }) := by
      unfold parseTextValue
      rw [htext]
      exact hlegible _ hse hspell.symm
    exact ⟨_, hvalue, rfl, hse, rfl, .peeked rfl rfl hshows hs⟩
  · rw [textItems, if_neg hspell, List.singleton_append] at hsees
    obtain ⟨r, hparse, hshows, hs⟩ := hsees.parseToken
    have hcontent : k.content r = w.spell := hshows
    have htext : parseTextToken k f = (true, { f with input :=
        { f.input.peek (.text w.spell) r with ptr := w.spell, needToken := true } }) := by
      unfold parseTextToken
      rw [hparse, ← hcontent]
      rfl
    have hvalue : parseTextValue S k f = (true, w, { f with input :=
        { f.input.peek (.text w.spell) r with ptr := w.spell, needToken := true } }) := by
      unfold parseTextValue
      rw [htext]
      exact hlegible _ hse rfl
    exact ⟨_, hvalue, rfl, hse, rfl, .fresh rfl hs⟩

/-- `xml_end` takes the end tag. -/
theorem xmlEnd_close (hempty : f.input.empty = false)
    (hsees : Sees S k f.input (.close i :: items)) :
    ∃ g, xmlEnd S k i f = (true, g) ∧ g.type = f.type ∧ g.se = f.se ∧ g.input.empty = false ∧
      Sees S k g.input items := by
  obtain ⟨r, hparse, hshows, hs⟩ := hsees.parseToken
  have hend : endTag S k i f =
      (true, { f with input := { f.input.peek (.close i) r with needToken := true } }) := by
    unfold endTag
    rw [hparse]
    exact if_pos ⟨rfl, hshows.symm⟩
  have htaken : xmlEnd S k i f = (true, { f with input :=
      { f.input.peek (.close i) r with needToken := true, empty := false } }) := by
    unfold xmlEnd
    rw [hempty, if_neg Bool.false_ne_true, hend]
    rfl
  exact ⟨_, htaken, rfl, rfl, rfl, .fresh rfl hs⟩

/-- Behind an empty tag `xml_end` takes nothing. -/
theorem xmlEnd_empty (hempty : f.input.empty = true) (hsees : Sees S k f.input items) :
    ∃ g, xmlEnd S k i f = (true, g) ∧ g.type = f.type ∧ g.se = f.se ∧ g.input.empty = false ∧
      Sees S k g.input items := by
  refine ⟨_, if_pos hempty, rfl, rfl, rfl, ?_⟩
  cases hsees with
  | fresh hneed h => exact .fresh hneed h
  | peeked hneed htoken hshows h => exact .peeked hneed htoken hshows h
  | used hneed => exact .used hneed

end Front

/-! ## Passes of parse_doc -/

/-- A parser of an object of the type `type`: its state, its entry, the entries and counts on the
stack, whether the element it is in is all in its tag, and the rest of the row. -/
structure Before (S : Schema) (k : XmlSource ρ) (type : ℕ) (state : ParserState) (se : ℕ)
    (path : List (ℕ × ℕ)) (empty : Bool) (items : List XmlItem) (p : Parser (XmlInput ρ)) :
    Prop where
  type : p.type = type
  state : p.state = state
  se : p.se = se
  path : p.path = path
  empty : p.input.empty = empty
  sees : Sees S k p.input items

theorem before_of_front {q : Parser (XmlInput ρ)} {f : Front (XmlInput ρ)} {type : ℕ}
    {path : List (ℕ × ℕ)} {empty : Bool} {items : List XmlItem} (hfront : q.toFront = f)
    (hpath : q.path = path) (htype : f.type = type) (hempty : f.input.empty = empty)
    (hsees : Sees S k f.input items) : Before S k type f.state f.se path empty items q := by
  subst hfront
  exact ⟨htype, rfl, rfl, hpath, hempty, hsees⟩

/-- The parser is in the sequence from the entry `h` on, and the attributes behind its entry are
not there. -/
structure InElements (S : Schema) (k : XmlSource ρ) (h : ℕ) (p : Parser (XmlInput ρ)) : Prop where
  least : h ≤ p.se
  most : p.se ≤ h + (S.entries h).length
  absent : Absent S k h p.se p.input.source

section Passes
variable {p : Parser (XmlInput ρ)} {type h i j e se count : ℕ} {path : List (ℕ × ℕ)}
  {items rest : List XmlItem} {attrs : List (CString × CString)} {empty : Bool} {w : Stored}

/-- `xml_next` takes the tag of an element. -/
theorem next_tag (hread : S.Readable) (he : S.ElementOf h e)
    (hsimple : empty = true → (S.element e).simple = false)
    (hh : h = (S.element j).index + 1) (hwithin : InElements S k h p)
    (hfuel : (S.entries h).length + 2 ≤ F)
    (hp : Before S k type .parseNext se ((j, count) :: path) false
      (.tag empty e attrs :: items) p) :
    ∃ q, Before S k type .parseElement e ((j, count) :: path) empty items q ∧
      (XmlItem.tag empty e attrs).Shows S k q.input.source ∧
      p.Leads S (xmlParser S k F) [] q := by
  obtain ⟨t, s, hstack, rfl, rfl, hs⟩ := Parser.path_cons hp.path
  obtain ⟨g, hnext, hstate, htype, hse, hempty, hneed, hshows, hitems⟩ :=
    xmlNext_tag (F := F) hread he hsimple hh s hwithin.least hwithin.most hwithin.absent hfuel
      hp.state hp.empty hp.sees
  obtain ⟨q, rfl, hpath, hleads⟩ := Parser.leads_next (S := S) (d := xmlParser S k F) hp.state
    (by rw [hstack]; exact hnext)
  exact ⟨q, ⟨htype.trans hp.type, hstate, hse, hpath.trans hp.path, hempty, .fresh hneed hitems⟩,
    hshows, hleads⟩

/-- `xml_next` finds the end of an element. -/
theorem next_close (hread : S.Readable) (hh : h = (S.element j).index + 1)
    (hwithin : InElements S k h p) (hfuel : (S.entries h).length + 2 ≤ F)
    (hp : Before S k type .parseNext se ((j, count) :: path) false (.close j :: items) p) :
    ∃ q se', Before S k type .parseEnd se' ((j, count) :: path) false (.close j :: items) q ∧
      p.Leads S (xmlParser S k F) [] q := by
  obtain ⟨t, s, hstack, rfl, rfl, hs⟩ := Parser.path_cons hp.path
  obtain ⟨g, hnext, hstate, htype, hempty, hsees⟩ :=
    xmlNext_close (F := F) hread hh s hwithin.least hwithin.most hwithin.absent hfuel
      hp.state hp.empty hp.sees
  obtain ⟨q, rfl, hpath, hleads⟩ := Parser.leads_next (S := S) (d := xmlParser S k F) hp.state
    (by rw [hstack]; exact hnext)
  exact ⟨q, q.se, ⟨htype.trans hp.type, hstate, rfl, hpath.trans hp.path, hempty, hsees⟩, hleads⟩

/-- `xml_next` is at the end of an element that is all in its tag. -/
theorem next_empty (hwithin : InElements S k h p) (hmin : ∀ l, S.ElementOf h l → (S.element l).min = 0)
    (hfuel : (S.entries h).length + 2 ≤ F)
    (hp : Before S k type .parseNext se ((j, count) :: path) true items p) :
    ∃ q se', Before S k type .parseEnd se' ((j, count) :: path) true items q ∧
      p.Leads S (xmlParser S k F) [] q := by
  obtain ⟨t, s, hstack, rfl, rfl, hs⟩ := Parser.path_cons hp.path
  obtain ⟨g, hnext, hstate, htype, hempty, hsees⟩ :=
    xmlNext_empty (F := F) (t := t) s hwithin.least hwithin.most hwithin.absent hmin hfuel
      hp.state hp.empty hp.sees
  obtain ⟨q, rfl, hpath, hleads⟩ := Parser.leads_next (S := S) (d := xmlParser S k F) hp.state
    (by rw [hstack]; exact hnext)
  exact ⟨q, q.se, ⟨htype.trans hp.type, hstate, rfl, hpath.trans hp.path, hempty, hsees⟩, hleads⟩

/-- The first occurrence of an element. -/
theorem enter_element (hattribute : (S.element i).isAttribute = false)
    (hroom : path.length ≠ maxStack) (hp : Before S k type .parseElement i path empty items p) :
    ∃ q, Before S k type (insideState S i) (insideEntry S i i) ((i, 0) :: path) empty items q ∧
      q.input = p.input ∧ p.Leads S (xmlParser S k F) [.enter i ⟨0, 0⟩] q := by
  obtain rfl := hp.se
  obtain ⟨q, hfront, hpath, hleads⟩ := Parser.leads_element (d := xmlParser S k F) hp.state
    hattribute (by rw [hp.path]; exact hroom)
  rw [hp.path] at hpath
  exact ⟨q, before_of_front hfront hpath hp.type hp.empty hp.sees, by rw [hfront], hleads⟩

/-- A value of simple type. -/
theorem pass_value (hlegible : Legible S k i w)
    (hp : Before S k type .parseValue i path false (textItems w.spell ++ .close j :: items) p) :
    ∃ q, Before S k type .parseEnd i path false (.close j :: items) q ∧
      p.Leads S (xmlParser S k F) [.text i ⟨0, 0⟩ w] q := by
  obtain ⟨g, hvalue, htype, hse, hempty, hsees⟩ := parseTextValue_reads hp.se hlegible hp.sees
  obtain ⟨q, hfront, hpath, hleads⟩ := Parser.leads_value (S := S) (d := xmlParser S k F)
    hp.state hvalue
  rw [hp.se] at hleads
  subst hse
  exact ⟨q, before_of_front hfront (hpath.trans hp.path) (htype.trans hp.type)
    (hempty.trans hp.empty) hsees, hleads⟩

/-- The end of an occurrence. -/
theorem pass_end (hp : Before S k type .parseEnd se ((i, count) :: path) empty
      (if empty then items else .close i :: items) p) :
    ∃ q, Before S k type (afterState S i (count + 1)) se ((i, count + 1) :: path) false items q ∧
      p.Leads S (xmlParser S k F) [.leave i] q := by
  obtain ⟨g, hend, htype, hse, hempty, hsees⟩ : ∃ g, xmlEnd S k i p.toFront = (true, g) ∧
      g.type = p.type ∧ g.se = p.se ∧ g.input.empty = false ∧ Sees S k g.input items := by
    cases empty with
    | true => exact xmlEnd_empty hp.empty hp.sees
    | false => exact xmlEnd_close hp.empty hp.sees
  obtain ⟨q, hfront, hpath, hleads⟩ := Parser.leads_end (S := S) (d := xmlParser S k F) hp.state
    hp.path hend
  rw [← hse.trans hp.se]
  exact ⟨q, before_of_front hfront hpath (htype.trans hp.type) hempty hsees, hleads⟩

/-- A further occurrence of an element. -/
theorem pass_again (hsimple : empty = true → (S.element i).simple = false)
    (hmore : (S.element i).unbounded ∨ count < (S.element i).max)
    (hp : Before S k type .parseSequence se ((i, count) :: path) false
      (.tag empty i attrs :: items) p) :
    ∃ q, Before S k type (insideState S i) (insideEntry S i se) ((i, count) :: path) empty
        items q ∧ (XmlItem.tag empty i attrs).Shows S k q.input.source ∧
      p.Leads S (xmlParser S k F) [.enter i ⟨0, 0⟩] q := by
  have hagain : ∃ g, (∀ t : StackItem, t.se = i → t.count = count →
      xmlSequence S k t p.toFront = (true, g)) ∧ g.type = p.type ∧ g.se = p.se ∧
      g.input.empty = empty ∧ g.input.needToken = true ∧
      (XmlItem.tag empty i attrs).Shows S k g.input.source ∧
      Tokenizes S k g.input.source items := by
    obtain ⟨r, hstart, hshows, hs⟩ := startTag_tag hp.sees hp.empty hsimple
    refine ⟨(startTag S k i p.toFront).2, ?_, ?_⟩
    · rintro t rfl -
      unfold xmlSequence
      rw [hstart]
      rfl
    · rw [hstart]
      exact ⟨rfl, rfl, rfl, rfl, hshows, hs⟩
  obtain ⟨g, hagain, htype, hse, hempty, hneed, hshows, hs⟩ := hagain
  obtain ⟨q, hfront, hpath, hleads⟩ := Parser.leads_again (S := S) (d := xmlParser S k F)
    hp.state hp.path hagain hmore
  rw [← hse.trans hp.se]
  exact ⟨q, before_of_front hfront hpath (htype.trans hp.type) hempty (.fresh hneed hs),
    by rw [hfront]; exact hshows, hleads⟩

/-- Behind the last occurrence of an element. -/
theorem pass_last (hmin : (S.element i).min ≤ count)
    (hother : (S.element i).unbounded ∨ count < (S.element i).max → OtherThan S i items)
    (hp : Before S k type (afterState S i count) se ((i, count) :: path) false items p) :
    ∃ q, Before S k type .parseNext (i + 1) path false items q ∧
      p.Leads S (xmlParser S k F) [] q := by
  have hends : ∃ q, Before S k type .sequenceEnd q.se ((i, count) :: path) false items q ∧
      p.Leads S (xmlParser S k F) [] q := by
    unfold afterState at hp
    by_cases hmore : (S.element i).unbounded ∨ count < (S.element i).max
    · rw [if_pos hmore] at hp
      have hsequence : ∃ g, (∀ t : StackItem, t.se = i → t.count = count →
          xmlSequence S k t p.toFront = (false, g)) ∧ g.state = .sequenceEnd ∧
          g.type = p.type ∧ g.input.empty = false ∧ Sees S k g.input items := by
        obtain ⟨t, s, hstack, ht, hcount, hs⟩ := Parser.path_cons hp.path
        obtain ⟨r, item, rest, rfl, hstart, htoken, hshows, hs⟩ :=
          startTag_other (hother hmore) hp.sees hp.empty
        refine ⟨{ p.toFront with state := .sequenceEnd, input := p.input.peek item r }, ?_, rfl,
          rfl, hp.empty, .peeked rfl rfl hshows hs⟩
        rintro t rfl rfl
        have hless : ¬t.count < (S.element t.se).min := Nat.not_lt.2 hmin
        unfold xmlSequence
        rw [hstart]
        rcases htoken with htoken | htoken | htoken
        · simp [htoken, hless, hp.state]
        · simp [htoken, hless, hp.state]
        · simp [htoken, hless, hp.state]
      obtain ⟨g, hsequence, hstate, htype, hempty, hsees⟩ := hsequence
      obtain ⟨q, rfl, hpath, hleads⟩ := Parser.leads_sequence_end (S := S) (d := xmlParser S k F)
        hp.state hp.path hsequence hstate
      exact ⟨q, ⟨htype.trans hp.type, hstate, rfl, hpath, hempty, hsees⟩, hleads⟩
    · rw [if_neg hmore] at hp
      exact ⟨p, ⟨hp.type, hp.state, rfl, hp.path, hp.empty, hp.sees⟩, .refl⟩
  obtain ⟨q, hq, hends⟩ := hends
  obtain ⟨r, hfront, hpath, hleads⟩ := Parser.leads_behind (S := S) (d := xmlParser S k F)
    hq.state hq.path
  exact ⟨r, before_of_front hfront hpath hq.type hq.empty hq.sees, hends.trans hleads⟩

end Passes
end SeClient
