import SeClient.UnknownElements
import SeClient.XmlItems

/-!
# Reading a row of tags and texts

`parse_doc` with the XML driver reads the document of an object, whatever the order of its elements:
the parser looks for each tag in the whole sequence, so that it is the same for it at which entry it
stands.
-/

namespace SeClient
open Relation
variable {ρ : Type} {S : Schema} {k : XmlSource ρ} {F : ℕ}

/-! ## What is ahead -/

/-- The rest of the row, of which the parser may have peeked at the first token. -/
inductive Sees (S : Schema) (k : XmlSource ρ) (input : XmlInput ρ) : List XmlItem → Prop
  | fresh {items : List XmlItem} (hneed : input.needToken = true)
      (h : Tokenizes S k input.source items) : Sees S k input items
  | peeked {item : XmlItem} {items : List XmlItem} (hneed : input.needToken = false)
      (htoken : input.token = item.token) (hshows : item.Shows S k input.source)
      (h : Tokenizes S k input.source items) : Sees S k input (item :: items)
  | used (hneed : input.needToken = false) : Sees S k input []

/-- The input with the token `item` peeked at. -/
def XmlInput.peek (input : XmlInput ρ) (item : XmlItem) (r : ρ) : XmlInput ρ :=
  { input with token := item.token, needToken := false, source := r }

@[simp] theorem XmlInput.peek_token {input : XmlInput ρ} {item : XmlItem} {r : ρ} :
    (input.peek item r).token = item.token := rfl

@[simp] theorem XmlInput.peek_source {input : XmlInput ρ} {item : XmlItem} {r : ρ} :
    (input.peek item r).source = r := rfl

@[simp] theorem XmlItem.token_tag {empty : Bool} {i : ℕ} {attrs : List (CString × CString)} :
    (XmlItem.tag empty i attrs).token = if empty then .emptyTag else .startTag := rfl

@[simp] theorem XmlItem.token_close {i : ℕ} : (XmlItem.close i).token = .endTag := rfl

theorem Sees.parseToken {f : Front (XmlInput ρ)} {item : XmlItem} {items : List XmlItem}
    (h : Sees S k f.input (item :: items)) :
    ∃ r, parseToken k f = { f with input := f.input.peek item r } ∧ item.Shows S k r ∧
      Tokenizes S k r items := by
  cases h with
  | fresh hneed h =>
    cases h with
    | @cons r r' item items h hshows hs =>
      refine ⟨r', ?_, hshows, hs⟩
      unfold SeClient.parseToken
      rw [if_pos hneed, h]
      cases item with
      | tag empty i attrs => cases empty <;> rfl
      | close i => rfl
      | text content => rfl
  | peeked hneed htoken hshows h =>
    refine ⟨f.input.source, ?_, hshows, h⟩
    rw [parseToken_eq hneed, XmlInput.peek, ← htoken, ← hneed]

/-- The tag of the element is taken. -/
theorem startTag_tag {f : Front (XmlInput ρ)} {i : ℕ} {empty : Bool}
    {attrs : List (CString × CString)} {items : List XmlItem}
    (h : Sees S k f.input (.tag empty i attrs :: items)) (hempty : f.input.empty = false)
    (hsimple : empty = true → (S.element i).simple = false) :
    ∃ r, startTag S k i f = (true, { f with input := { f.input.peek (.tag empty i attrs) r with
        empty := empty, needToken := true } }) ∧
      (XmlItem.tag empty i attrs).Shows S k r ∧ Tokenizes S k r items := by
  obtain ⟨r, hparse, hshows, hs⟩ := h.parseToken
  refine ⟨r, ?_, hshows, hs⟩
  unfold startTag
  rw [hparse]
  cases empty with
  | true => simp [XmlInput.peek, XmlItem.token, hempty, hshows.1, hsimple rfl]
  | false => simp [XmlInput.peek, XmlItem.token, hempty, hshows.1]

/-- Something else than a tag of the element `i` is ahead. -/
def OtherThan (S : Schema) (i : ℕ) (items : List XmlItem) : Prop :=
  (∃ j rest, items = .close j :: rest) ∨
    ∃ empty j attrs rest, items = .tag empty j attrs :: rest ∧ S.nameOf i ≠ S.nameOf j

/-- Another tag is left. -/
theorem startTag_other {f : Front (XmlInput ρ)} {i : ℕ} {items : List XmlItem}
    (hother : OtherThan S i items) (h : Sees S k f.input items) (hempty : f.input.empty = false) :
    ∃ r item rest, items = item :: rest ∧
      startTag S k i f = (false, { f with input := f.input.peek item r }) ∧
      (item.token = .startTag ∨ item.token = .emptyTag ∨ item.token = .endTag) ∧
      item.Shows S k r ∧ Tokenizes S k r rest := by
  rcases hother with ⟨j, rest, rfl⟩ | ⟨empty, j, attrs, rest, rfl, hname⟩
  · obtain ⟨r, hparse, hshows, hs⟩ := h.parseToken
    refine ⟨r, _, rest, rfl, ?_, Or.inr (Or.inr rfl), hshows, hs⟩
    unfold startTag
    rw [hparse]
    rfl
  · obtain ⟨r, hparse, hshows, hs⟩ := h.parseToken
    have hname : S.nameOf i ≠ k.name r := by rw [hshows.1]; exact hname
    refine ⟨r, _, rest, rfl, ?_, ?_, hshows, hs⟩
    · unfold startTag
      rw [hparse]
      cases empty <;> simp [XmlInput.peek, XmlItem.token, hempty, hname]
    · cases empty
      · exact Or.inl rfl
      · exact Or.inr (Or.inl rfl)

/-! ## The sequence of a type -/

section Sequence
variable {h i j e n l : ℕ} {f : Front (XmlInput ρ)} {items : List XmlItem}
  {attrs : List (CString × CString)} {empty : Bool} {t : StackItem} {v : CString}

/-- The front with another value. -/
def Front.withPtr (f : Front (XmlInput ρ)) (ptr : CString) : Front (XmlInput ρ) :=
  { f with input := { f.input with ptr := ptr } }

theorem Sees.withPtr (ptr : CString) (h : Sees S k f.input items) :
    Sees S k (f.withPtr ptr).input items := by
  cases h with
  | fresh hneed h => exact .fresh hneed h
  | peeked hneed htoken hshows h => exact .peeked hneed htoken hshows h
  | used hneed => exact .used hneed

/-- Behind an element there are no attributes. -/
theorem Schema.Readable.behind (hread : S.Readable) (he : S.ElementOf h e) (hej : e ≤ j)
    (hj : j < h + (S.entries h).length) : S.ElementOf h j := by
  induction j, hej using Nat.le_induction with
  | base => exact he
  | succ j hej ih =>
    have hj' := ih (by omega)
    exact ⟨by have := hj'.1; omega, hj, hread.attributesFirst h j hj' hj⟩

/-- Before an attribute there are only attributes. -/
theorem Schema.Readable.before (hread : S.Readable) (hl : S.AttributeOf h l) (hj : h ≤ j)
    (hjl : j ≤ l) : S.AttributeOf h j := by
  obtain ⟨hl, hl', hattribute⟩ := hl
  refine ⟨hj, by omega, ?_⟩
  by_contra hnot
  have helement := hread.behind ⟨hj, by omega, Bool.eq_false_iff.2 hnot⟩ hjl hl'
  rw [helement.2.2] at hattribute
  exact Bool.false_ne_true hattribute

theorem Schema.Readable.distinct (hread : S.Readable) (h : ℕ) : Distinct S h :=
  fun i j hi hi' hj hj' ha ha' => hread.elements h i j ⟨hi, hi', ha⟩ ⟨hj, hj', ha'⟩

/-- Behind the attributes from an entry on. -/
theorem Schema.Readable.firstElement (hread : S.Readable) (hj : h ≤ j)
    (hj' : j ≤ h + (S.entries h).length) :
    ∃ e, j ≤ e ∧ InSequence S h e ∧ ∀ l, j ≤ l → l < e → S.AttributeOf h l := by
  induction hd : h + (S.entries h).length - j generalizing j with
  | zero => exact ⟨j, le_rfl, ⟨hj, hj', fun l hl hl' => by omega⟩, fun l hl hl' => by omega⟩
  | succ d ih =>
    cases hattribute : (S.element j).isAttribute with
    | false =>
      have helement : S.ElementOf h j := ⟨hj, by omega, hattribute⟩
      exact ⟨j, le_rfl, ⟨hj, hj', fun l hl hl' => (hread.behind helement hl hl').2.2⟩,
        fun l hl hl' => by omega⟩
    | true =>
      obtain ⟨e, hle, hseq, hattributes⟩ := ih (j := j + 1) (by omega) (by omega) (by omega)
      refine ⟨e, by omega, hseq, fun l hl hl' => ?_⟩
      rcases Nat.eq_or_lt_of_le hl with rfl | hl
      · exact ⟨hj, by omega, hattribute⟩
      · exact hattributes l hl hl'

/-- `find_element` finds an element by its name. -/
theorem Schema.Readable.findElement (hread : S.Readable) (he : S.ElementOf h e) :
    findElement S h (S.nameOf e) = some e := by
  rw [SeClient.findElement, List.find?_range'_eq_some]
  refine ⟨by simp [he.2.2], by rw [List.mem_range'_1]; exact ⟨he.1, he.2.1⟩, fun l hl hle => ?_⟩
  cases hattribute : (S.element l).isAttribute with
  | true => rfl
  | false =>
    have hother : S.nameOf l ≠ S.nameOf e := by
      intro hname
      have hsame := hread.elements h l e ⟨hl, by have := he.2.1; omega, hattribute⟩ he hname
      omega
    simp [hother]

/-! ## xml_next -/

theorem xmlNextLoop_done (stack : List StackItem) (fuel se : ℕ) (hstate : f.state ≠ .parseNext) :
    xmlNextLoop S k F stack fuel se f = (true, { f with se := se - 1 }) := by
  unfold xmlNextLoop
  cases fuel <;> simp [hstate]

/-- `xml_next` passes over attributes that are not there. -/
theorem xmlNextLoop_absent (stack : List StackItem) (hj : h ≤ j) (hje : j ≤ e)
    (hstate : f.state = .parseNext) (habsent : ∀ l, j ≤ l → l < e → S.AttributeOf h l ∧
      k.attr f.input.source (S.nameOf l) = none) :
    ∃ ptr, ∀ n, xmlNextLoop S k F stack (n + (e - j)) j f =
      xmlNextLoop S k F stack n e (f.withPtr ptr) := by
  induction hd : e - j generalizing j f with
  | zero =>
    obtain rfl : j = e := by omega
    exact ⟨f.input.ptr, fun n => rfl⟩
  | succ d ih =>
    obtain ⟨⟨-, hlt, hattribute⟩, hnone⟩ := habsent j le_rfl (by omega)
    have hn : (S.element j).n ≠ 0 := S.n_ne_zero hj hlt
    obtain ⟨ptr, hloop⟩ := ih (j := j + 1) (f := f.withPtr []) (by omega) (by omega) hstate
      (fun l hl => habsent l (by omega)) (by omega)
    refine ⟨ptr, fun n => ?_⟩
    rw [← Nat.add_assoc]
    conv_lhs => unfold xmlNextLoop
    rw [if_neg (not_not_intro hstate), if_neg hn, if_pos hattribute, hnone]
    exact hloop n

/-- `xml_next` takes the first attribute that is there. -/
theorem xmlNextLoop_attribute (hread : S.Readable) (stack : List StackItem) (hse : h ≤ f.se)
    (hsel : f.se ≤ l) (hl : S.AttributeOf h l) {fuel : ℕ} (hfuel : l - f.se < fuel)
    (hstate : f.state = .parseNext) (habsent : ∀ j, f.se ≤ j → j < l →
      k.attr f.input.source (S.nameOf j) = none)
    (hvalue : k.attr f.input.source (S.nameOf l) = some v) :
    xmlNextLoop S k F stack fuel f.se f =
      (true, { f.withPtr v with state := .parseElement, se := l }) := by
  have hn : (S.element l).n ≠ 0 := S.n_ne_zero hl.1 hl.2.1
  have hlt := hl.2.1
  obtain ⟨ptr, hloop⟩ := xmlNextLoop_absent (F := F) stack hse hsel hstate
    fun j hj hjl => ⟨hread.before hl (by omega) hjl.le, habsent j hj hjl⟩
  obtain ⟨n, rfl⟩ : ∃ n, fuel = n + 1 + (l - f.se) := ⟨fuel - 1 - (l - f.se), by omega⟩
  rw [hloop]
  have hstate' : (f.withPtr ptr).state = .parseNext := hstate
  have hvalue' : k.attr (f.withPtr ptr).input.source (S.nameOf l) = some v := hvalue
  conv_lhs => unfold xmlNextLoop
  rw [if_neg (not_not_intro hstate'), if_neg hn, if_pos hl.2.2, hvalue']
  exact xmlNextLoop_done stack _ _ ParserState.noConfusion

/-- The attributes from the entry `j` on are not there. -/
def Absent (S : Schema) (k : XmlSource ρ) (h j : ℕ) (r : ρ) : Prop :=
  ∀ l, j ≤ l → S.AttributeOf h l → k.attr r (S.nameOf l) = none

/-- A tag that was peeked at, or can be. -/
def Tagged (S : Schema) (k : XmlSource ρ) (h : ℕ) (f : Front (XmlInput ρ)) : Prop :=
  Peeked k f ∧ TagAhead S k h (parseToken k f)

theorem Sees.tagged (hread : S.Readable) (he : S.ElementOf h e)
    (hsimple : empty = true → (S.element e).simple = false)
    (hsees : Sees S k f.input (.tag empty e attrs :: items)) : Tagged S k h f := by
  obtain ⟨r, hparse, hshows, -⟩ := hsees.parseToken
  unfold Tagged Peeked
  rw [hparse]
  cases empty with
  | false => exact ⟨⟨by simp, by simp⟩, Or.inr (Or.inl rfl), fun h => by simp at h⟩
  | true =>
    refine ⟨⟨by simp, by simp⟩, Or.inr (Or.inr rfl), fun _ j hj hlt hattribute hname => ?_⟩
    obtain rfl := hread.elements h j e ⟨hj, hlt, hattribute⟩ he (hname.trans hshows.1)
    exact hsimple rfl

theorem Sees.closed (h : ℕ) (hsees : Sees S k f.input (.close j :: items)) : Tagged S k h f := by
  obtain ⟨r, hparse, -, -⟩ := hsees.parseToken
  unfold Tagged Peeked
  rw [hparse]
  exact ⟨⟨by simp, by simp⟩, Or.inl rfl, fun h => by simp at h⟩

/-- Behind the attributes the loop may be at the end of the sequence as well. -/
theorem xmlNextLoop_end (hread : S.Readable) (hh : h = (S.element t.se).index + 1)
    (stack : List StackItem) (hse : h ≤ f.se) (hse' : f.se ≤ h + (S.entries h).length)
    (habsent : Absent S k h f.se f.input.source) {fuel : ℕ}
    (hfuel : (S.entries h).length + 2 ≤ fuel) (hstate : f.state = .parseNext)
    (hempty : f.input.empty = false) (htagged : ∀ ptr, Tagged S k h (f.withPtr ptr)) :
    ∃ n ptr, xmlNextLoop S k F (t :: stack) fuel f.se f =
      xmlNextLoop S k F (t :: stack) (n + 2) (h + (S.entries h).length) (f.withPtr ptr) := by
  obtain ⟨e, hle, hseq, hattributes⟩ := hread.firstElement hse hse'
  obtain ⟨ptr, hloop⟩ := xmlNextLoop_absent (F := F) (t :: stack) hse hle hstate
    fun l hl hle => ⟨hattributes l hl hle, habsent l hl (hattributes l hl hle)⟩
  obtain ⟨hpeeked, hahead⟩ := htagged ptr
  have hmost := hseq.most
  obtain ⟨n, rfl⟩ : ∃ n, fuel = n + 2 + (h + (S.entries h).length - e) + (e - f.se) :=
    ⟨fuel - 2 - (h + (S.entries h).length - f.se), by omega⟩
  exact ⟨n, ptr, (hloop _).trans (xmlNextLoop_anywhere stack n hh (hread.distinct h) hseq hstate
    hempty hpeeked hahead)⟩

/-- What `xml_next` makes of the front at a tag. -/
theorem xmlNext_tag (hread : S.Readable) (he : S.ElementOf h e)
    (hsimple : empty = true → (S.element e).simple = false)
    (hh : h = (S.element t.se).index + 1) (stack : List StackItem) (hse : h ≤ f.se)
    (hse' : f.se ≤ h + (S.entries h).length) (habsent : Absent S k h f.se f.input.source)
    (hfuel : (S.entries h).length + 2 ≤ F) (hstate : f.state = .parseNext)
    (hempty : f.input.empty = false) (hsees : Sees S k f.input (.tag empty e attrs :: items)) :
    ∃ g, xmlNext S k F (t :: stack) f = (true, g) ∧ g.state = .parseElement ∧ g.type = f.type ∧
      g.se = e ∧ g.input.empty = empty ∧ g.input.needToken = true ∧
      (XmlItem.tag empty e attrs).Shows S k g.input.source ∧
      Tokenizes S k g.input.source items := by
  obtain ⟨n, ptr, hloop⟩ := xmlNextLoop_end (F := F) hread hh stack hse hse' habsent hfuel hstate
    hempty fun ptr => (hsees.withPtr ptr).tagged hread he hsimple
  obtain ⟨r, hparse, hshows, hs⟩ := (hsees.withPtr ptr).parseToken
  have hstate' : (f.withPtr ptr).state = .parseNext := hstate
  have hempty' : ¬(f.withPtr ptr).input.empty = true := by
    rw [show (f.withPtr ptr).input.empty = false from hempty]
    exact Bool.false_ne_true
  have hstart := startTag_accepts (S := S) (k := k) (i := e) (f := parseToken k (f.withPtr ptr))
    (by rw [hparse]; exact hempty) (by rw [hparse]; rfl)
    (by rw [hparse]; cases empty <;> simp [XmlInput.peek, XmlItem.token])
    (by rw [hparse]; exact hshows.1.symm)
    (by rw [hparse]; cases empty <;> simp [XmlInput.peek, XmlItem.token, hsimple])
  have hfind : findElement S ((S.element t.se).index + 1)
      (k.name (parseToken k (f.withPtr ptr)).input.source) = some e := by
    rw [hparse, ← hh]
    exact (congrArg _ hshows.1).trans (hread.findElement he)
  refine ⟨{ (startTag S k e (parseToken k (f.withPtr ptr))).2 with
    state := .parseElement
    se := e }, ?_, rfl, ?_⟩
  · unfold xmlNext
    rw [hloop]
    conv_lhs => unfold xmlNextLoop
    rw [if_neg (not_not_intro hstate'), if_pos (S.n_entries_end h)]
    dsimp only
    rw [if_neg hempty']
    cases empty with
    | false =>
      have htoken : (parseToken k (f.withPtr ptr)).input.token = .startTag := by rw [hparse]; rfl
      rw [htoken, hfind]
      exact xmlNextLoop_done _ _ _ ParserState.noConfusion
    | true =>
      have htoken : (parseToken k (f.withPtr ptr)).input.token = .emptyTag := by rw [hparse]; rfl
      rw [htoken, hfind]
      exact xmlNextLoop_done _ _ _ ParserState.noConfusion
  · rw [hstart, hparse]
    refine ⟨rfl, rfl, ?_, rfl, hshows, hs⟩
    cases empty <;> rfl

/-- What `xml_next` makes of the front at the end of the element. -/
theorem xmlNext_close (hread : S.Readable) (hh : h = (S.element t.se).index + 1)
    (stack : List StackItem) (hse : h ≤ f.se) (hse' : f.se ≤ h + (S.entries h).length)
    (habsent : Absent S k h f.se f.input.source)
    (hfuel : (S.entries h).length + 2 ≤ F) (hstate : f.state = .parseNext)
    (hempty : f.input.empty = false) (hsees : Sees S k f.input (.close j :: items)) :
    ∃ g, xmlNext S k F (t :: stack) f = (true, g) ∧ g.state = .parseEnd ∧ g.type = f.type ∧
      g.input.empty = false ∧ Sees S k g.input (.close j :: items) := by
  obtain ⟨n, ptr, hloop⟩ := xmlNextLoop_end (F := F) hread hh stack hse hse' habsent hfuel hstate
    hempty fun ptr => (hsees.withPtr ptr).closed h
  obtain ⟨r, hparse, hshows, hs⟩ := (hsees.withPtr ptr).parseToken
  have hstate' : (f.withPtr ptr).state = .parseNext := hstate
  have hempty' : ¬(f.withPtr ptr).input.empty = true := by
    rw [show (f.withPtr ptr).input.empty = false from hempty]
    exact Bool.false_ne_true
  have htoken : (parseToken k (f.withPtr ptr)).input.token = .endTag := by rw [hparse]; rfl
  refine ⟨{ parseToken k (f.withPtr ptr) with
    state := .parseEnd
    se := h + (S.entries h).length }, ?_, rfl, ?_⟩
  · unfold xmlNext
    rw [hloop]
    conv_lhs => unfold xmlNextLoop
    rw [if_neg (not_not_intro hstate'), if_pos (S.n_entries_end h)]
    dsimp only
    rw [if_neg hempty', htoken]
    exact xmlNextLoop_done _ _ _ ParserState.noConfusion
  · rw [hparse]
    exact ⟨rfl, hempty, .peeked rfl rfl hshows hs⟩

/-- In an empty element `xml_next` passes over all that need not be there. -/
theorem xmlNextLoop_empty (stack : List StackItem) (hj : h ≤ j)
    (hj' : j ≤ h + (S.entries h).length) (hstate : f.state = .parseNext)
    (hempty : f.input.empty = true) (habsent : Absent S k h j f.input.source)
    (hmin : ∀ l, S.ElementOf h l → (S.element l).min = 0) :
    ∃ ptr, ∀ n, xmlNextLoop S k F stack (n + (h + (S.entries h).length - j)) j f =
      xmlNextLoop S k F stack n (h + (S.entries h).length) (f.withPtr ptr) := by
  induction hd : h + (S.entries h).length - j generalizing j f with
  | zero =>
    obtain rfl : j = h + (S.entries h).length := by omega
    exact ⟨f.input.ptr, fun n => rfl⟩
  | succ d ih =>
    have hlt : j < h + (S.entries h).length := by omega
    have hn : (S.element j).n ≠ 0 := S.n_ne_zero hj hlt
    have hlater : ∀ f' : Front (XmlInput ρ), f'.state = .parseNext → f'.input.empty = true →
        f'.input.source = f.input.source → ∃ ptr, ∀ n, xmlNextLoop S k F stack (n + d) (j + 1) f' =
          xmlNextLoop S k F stack n (h + (S.entries h).length) (f'.withPtr ptr) :=
      fun f' hstate hempty hsource => ih (by omega) (by omega) hstate hempty
        (by rw [hsource]; exact fun l hl => habsent l (by omega)) (by omega)
    cases hattribute : (S.element j).isAttribute with
    | true =>
      have hnone := habsent j le_rfl ⟨hj, hlt, hattribute⟩
      obtain ⟨ptr, hloop⟩ := hlater (f.withPtr []) hstate hempty rfl
      refine ⟨ptr, fun n => ?_⟩
      rw [← Nat.add_assoc]
      conv_lhs => unfold xmlNextLoop
      rw [if_neg (not_not_intro hstate), if_neg hn, if_pos hattribute, hnone]
      exact hloop n
    | false =>
      have hoptional := hmin j ⟨hj, hlt, hattribute⟩
      obtain ⟨ptr, hloop⟩ := hlater f hstate hempty rfl
      refine ⟨ptr, fun n => ?_⟩
      rw [← Nat.add_assoc]
      conv_lhs => unfold xmlNextLoop
      rw [if_neg (not_not_intro hstate), if_neg hn, hattribute, if_neg Bool.false_ne_true,
        if_pos hempty, if_neg (not_not_intro hoptional)]
      exact hloop n

/-- What `xml_next` makes of the front in an empty element. -/
theorem xmlNext_empty (stack : List StackItem) (hse : h ≤ f.se)
    (hse' : f.se ≤ h + (S.entries h).length) (habsent : Absent S k h f.se f.input.source)
    (hmin : ∀ l, S.ElementOf h l → (S.element l).min = 0)
    (hfuel : (S.entries h).length + 2 ≤ F) (hstate : f.state = .parseNext)
    (hempty : f.input.empty = true) (hsees : Sees S k f.input items) :
    ∃ g, xmlNext S k F (t :: stack) f = (true, g) ∧ g.state = .parseEnd ∧ g.type = f.type ∧
      g.input.empty = true ∧ Sees S k g.input items := by
  have hloop : ∀ {fuel}, (S.entries h).length + 2 ≤ fuel → ∃ n ptr,
      xmlNextLoop S k F (t :: stack) fuel f.se f =
        xmlNextLoop S k F (t :: stack) (n + 1) (h + (S.entries h).length) (f.withPtr ptr) := by
    intro fuel hfuel
    obtain ⟨ptr, hloop⟩ :=
      xmlNextLoop_empty (F := F) (t :: stack) hse hse' hstate hempty habsent hmin
    obtain ⟨n, rfl⟩ : ∃ n, fuel = n + 1 + (h + (S.entries h).length - f.se) :=
      ⟨fuel - 1 - (h + (S.entries h).length - f.se), by omega⟩
    exact ⟨n, ptr, hloop _⟩
  obtain ⟨n, ptr, hloop⟩ := hloop hfuel
  have hstate' : (f.withPtr ptr).state = .parseNext := hstate
  have hempty' : (f.withPtr ptr).input.empty = true := hempty
  refine ⟨{ f.withPtr ptr with state := .parseEnd, se := h + (S.entries h).length }, ?_, rfl, rfl,
    hempty, hsees.withPtr ptr⟩
  unfold xmlNext
  rw [hloop]
  conv_lhs => unfold xmlNextLoop
  rw [if_neg (not_not_intro hstate'), if_pos (S.n_entries_end h)]
  dsimp only
  rw [if_pos hempty']
  exact xmlNextLoop_done _ _ _ ParserState.noConfusion

end Sequence
end SeClient
