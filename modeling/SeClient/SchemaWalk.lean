import SeClient.Encoding
import SeClient.ParseDoc

/-!
# The way of a parser through its schema

A parser is always at an entry of the type that the top of its stack has opened, whatever its
driver reads.  What is needed of a driver for it is stated once and holds of both.
-/

namespace SeClient

/-! ## Runs -/

section Runs
variable {ρ : Type}

/-- The parser after a step. -/
def ParseStep.parser : ParseStep ρ → Parser ρ
  | .go p => p
  | .stop p => p
  | .done p _ _ => p

/-- A step goes on, or `parse_doc` has returned and is called again, with another buffer. -/
inductive Parser.Next (S : Schema) (d : ParserDriver ρ) (rebuffer : ρ → ρ → Prop) (p : Parser ρ) :
    Parser ρ → Prop
  | go {q : Parser ρ} (h : Parser.step S d p = .go q) : Next S d rebuffer p q
  | again {q : Parser ρ} {r : ρ} (h : Parser.step S d p = .stop q ∨
      ∃ type obj, Parser.step S d p = .done q type obj) (hr : rebuffer q.input r) :
      Next S d rebuffer p { q with input := r }

variable {S : Schema} {d : ParserDriver ρ} {rebuffer : ρ → ρ → Prop} {p p' : Parser ρ}

/-- But for its input a parser is what the step has made it. -/
theorem Parser.Next.parser (h : Parser.Next S d rebuffer p p') :
    ∃ r, (r = (Parser.step S d p).parser.input ∨ rebuffer (Parser.step S d p).parser.input r) ∧
      p' = { (Parser.step S d p).parser with input := r } := by
  cases h with
  | @go q h =>
    rw [h]
    exact ⟨_, Or.inl rfl, rfl⟩
  | @again q r h hr =>
    rcases h with h | ⟨type, obj, h⟩
    · rw [h]
      exact ⟨r, Or.inr hr, rfl⟩
    · rw [h]
      exact ⟨r, Or.inr hr, rfl⟩

end Runs

/-! ## Places in the table -/

namespace Schema
variable (S : Schema)

/-- A place in the type with the head `h`: at an entry, or behind the last. -/
def Place (h j : ℕ) : Prop := h < j ∧ ∀ k, h < k → k < j → (S.element k).n ≠ 0

/-- An entry of the type with the head `h`. -/
def Entry (h j : ℕ) : Prop := S.Place h j ∧ (S.element j).n ≠ 0

variable {S} {h j : ℕ}

theorem place_first (h : ℕ) : S.Place h (h + 1) :=
  ⟨Nat.lt_succ_self h, fun k hk hk' => absurd hk' (by omega)⟩

theorem Entry.next (he : S.Entry h j) : S.Place h (j + 1) := by
  refine ⟨Nat.lt_succ_of_lt he.1.1, fun k hk hk' => ?_⟩
  rcases Nat.eq_or_lt_of_le (Nat.le_of_lt_succ hk') with rfl | hlt
  · exact he.2
  · exact he.1.2 k hk hlt

theorem Place.add (hp : S.Place h j) {t : ℕ} (ht : ∀ k < t, (S.element (j + k)).n ≠ 0) :
    S.Place h (j + t) := by
  refine ⟨Nat.lt_of_lt_of_le hp.1 (Nat.le_add_right j t), fun k hk hk' => ?_⟩
  by_cases hkj : k < j
  · exact hp.2 k hk hkj
  · have := ht (k - j) (by omega)
    rwa [Nat.add_sub_cancel' (Nat.le_of_not_lt hkj)] at this

end Schema

/-! ## The parser -/

section Shape
variable {ρ : Type} (S : Schema)

/-- An item of the stack is what PARSE_ELEMENT has made it, but for its count. -/
structure StackItem.Good (t : StackItem) : Prop where
  size : t.size = S.objectElementSize (S.element t.se)
  all : t.all =
    if (S.element t.se).unbounded then 0 else (S.element t.se).max - (S.element t.se).min
  element : (S.element t.se).isAttribute = false

/-- There can be another occurrence. -/
def StackItem.Live (t : StackItem) : Prop :=
  (S.element t.se).unbounded = true ∨ t.count < (S.element t.se).max

/-- The entry `i` can stand under the items of a stack. -/
def Chained : ℕ → List StackItem → Prop
  | i, [] => i < S.length
  | i, t :: stack => t.Good S ∧ t.Live S ∧ (S.element t.se).simple = false ∧
      S.Entry (S.element t.se).index i ∧ Chained t.se stack

/-- The flag of an attribute, behind the one for its presence. -/
def SchemaElement.attrFlag (se : SchemaElement) : ℕ :=
  if se.min = 0 ∧ se.isPointer = false then se.bit + 1 else se.bit

/-- The flag of the `k`-th occurrence of the element `i`. -/
def Schema.flagAt (i k : ℕ) : ℕ :=
  let se := S.element i
  let diff := if se.unbounded then 0 else se.max - se.min
  se.bit + (if diff ≠ 0 ∧ ¬(se.simple ∧ se.isPointer) then bitCount diff else 0) + k

/-- **Where a parser is**, in each of its states. -/
def Parser.Shape (p : Parser ρ) : Prop :=
  match p.state, p.stack with
  | .parseElement, stack => Chained S p.se stack
  | .parseAttribute, stack => Chained S p.se stack ∧ (S.element p.se).isAttribute = true ∧
      p.flag = (S.element p.se).attrFlag
  | .parseNext, [] => (S.element p.se).n = 0
  | .parseNext, t :: stack => t.Good S ∧ t.Live S ∧ (S.element t.se).simple = false ∧
      S.Place (S.element t.se).index p.se ∧ Chained S t.se stack
  | .parseValue, t :: stack => t.Good S ∧ t.Live S ∧ Chained S t.se stack ∧
      (S.element t.se).simple = true ∧ p.se = t.se ∧ p.flag = S.flagAt t.se t.count
  | .parseEnd, [] => True
  | .parseEnd, t :: stack => t.Good S ∧ t.Live S ∧ Chained S t.se stack ∧
      ((S.element t.se).simple = true → p.se = t.se ∧ p.flag = S.flagAt t.se t.count)
  | .parseSequence, t :: stack => t.Good S ∧ t.Live S ∧ Chained S t.se stack ∧ 0 < t.count ∧
      ((S.element t.se).simple = true → p.se = t.se ∧ p.flag = S.flagAt t.se (t.count - 1))
  | .sequenceEnd, t :: stack => t.Good S ∧ Chained S t.se stack ∧
      (S.element t.se).min ≤ t.count ∧
      ((S.element t.se).unbounded = true ∨ t.count ≤ (S.element t.se).max)
  | .parseStart, _ => True
  | .parseInvalid, _ => True
  | .beyond, _ => True
  | _, [] => False

/-- The bytes of the field of an entry, of which each value takes one at least. -/
def Schema.fieldWidth (se : SchemaElement) : ℕ :=
  if se.unbounded then 8
  else if se.isAttribute ∨ se.simple then
    se.max * Nat.max 1 (S.objectElementSize { se with simple := true })
  else se.max * S.objectElementSize se

/-- What the walk needs of a driver: it stays in the type, it gives a sequence up only when there
were enough, and it stores a bit for a boolean only.  `Ready` is what the driver keeps of itself. -/
structure ParserDriver.Walks (d : ParserDriver ρ) (rebuffer : ρ → ρ → Prop)
    (Ready : Parser ρ → Prop) : Prop where
  start : ∀ f, if (d.parseStart f).1 then (d.parseStart f).2.se < S.length
    else (d.parseStart f).2.state = f.state ∨ (d.parseStart f).2.state = .parseInvalid
  next : ∀ p : Parser ρ, p.state = .parseNext → p.Shape S → Ready p →
    match (d.parseNext p.stack p.toFront).2.state with
    | .parseElement => ∃ t stack, p.stack = t :: stack ∧
        S.Entry (S.element t.se).index (d.parseNext p.stack p.toFront).2.se
    | .parseNext => (d.parseNext p.stack p.toFront).2.se = p.se
    | .parseEnd => True
    | .parseInvalid => True
    | _ => False
  attrValue : ∀ f, (d.parseAttrValue f).2.2.se = f.se ∧
    ((d.parseAttrValue f).1 = false → (d.parseAttrValue f).2.2.state = f.state ∨
      (d.parseAttrValue f).2.2.state = .parseInvalid) ∧
    ((d.parseAttrValue f).2.1 = .flag → (S.element f.se).xsType = .boolean)
  value : ∀ f, (d.parseValue f).2.2.se = f.se ∧
    ((d.parseValue f).1 = false → (d.parseValue f).2.2.state = f.state ∨
      (d.parseValue f).2.2.state = .parseInvalid) ∧
    ((d.parseValue f).2.1 = .flag → (S.element f.se).xsType = .boolean)
  end_ : ∀ i f, (d.parseEnd i f).2.se = f.se ∧
    ((d.parseEnd i f).1 = false → (d.parseEnd i f).2.state = f.state ∨
      (d.parseEnd i f).2.state = .parseInvalid)
  sequence : ∀ t f, (d.parseSequence t f).2.se = f.se ∧
    ((d.parseSequence t f).1 = false → (d.parseSequence t f).2.state = f.state ∨
      (d.parseSequence t f).2.state = .parseInvalid ∨ (d.parseSequence t f).2.state = .beyond ∨
      (d.parseSequence t f).2.state = .sequenceEnd ∧ (S.element t.se).min ≤ t.count)
  ready : ∀ p q : Parser ρ, p.Shape S → Ready p → Parser.Next S d rebuffer p q → Ready q

/-- **The layout of the structures**, as `offsetof` and `sizeof` give it: every field lies in its
structure, and a boolean has no field, so that there is no list of them. -/
structure Schema.Laid : Prop where
  occurs : ∀ j, (S.element j).n ≠ 0 → (S.element j).unbounded = false → 0 < (S.element j).max
  boolean : ∀ j, j < S.length ∨ (S.element j).n ≠ 0 → (S.element j).xsType = .boolean →
    (S.element j).isAttribute = true ∨ (S.element j).simple = true →
    (S.element j).offset = 0 ∧ (S.element j).unbounded = false
  head : ∀ j, j < S.length ∨ (S.element j).n ≠ 0 → (S.element j).isAttribute = false →
    (S.element j).simple = false → (S.element (S.element j).index).n = 0
  word : ∀ h j, (S.element h).n = 0 → S.Entry h j → 0 < (S.element h).offset
  fits : ∀ h j, (S.element h).n = 0 → S.Entry h j →
    (S.element j).offset + S.fieldWidth (S.element j) ≤ (S.element h).offset

end Shape

/-! ## Steps -/

namespace Parser
variable {ρ : Type} {S : Schema} {d : ParserDriver ρ} {rebuffer : ρ → ρ → Prop}
  {Ready : Parser ρ → Prop} {p p' : Parser ρ}

theorem SchemaElement.attrFlag_of_flag {se : SchemaElement}
    (h : se.min = 0 ∧ se.isPointer = false) : se.attrFlag = se.bit + 1 := if_pos h

theorem SchemaElement.attrFlag_of_not {se : SchemaElement}
    (h : ¬(se.min = 0 ∧ se.isPointer = false)) : se.attrFlag = se.bit := if_neg h

theorem Schema.flagAt_succ (i k : ℕ) : S.flagAt i (k + 1) = S.flagAt i k + 1 := rfl

theorem Schema.flagAt_unbounded {i k : ℕ} (h : (S.element i).unbounded = true) :
    S.flagAt i k = (S.element i).bit + k := by
  unfold Schema.flagAt
  dsimp only
  rw [if_pos h, if_neg fun h => h.1 rfl]
  rfl

theorem Schema.flagAt_bounded {i k : ℕ} (h : (S.element i).unbounded = false) :
    S.flagAt i k = (S.element i).bit + (if (S.element i).max - (S.element i).min ≠ 0 ∧
      ¬((S.element i).simple = true ∧ (S.element i).isPointer = true) then
      bitCount ((S.element i).max - (S.element i).min) else 0) + k := by
  unfold Schema.flagAt
  dsimp only
  rw [h, if_neg Bool.false_ne_true]

/-- The occurrence of an element that is entered. -/
theorem parseElement_shape {q : Parser ρ} {t : StackItem} {stack : List StackItem}
    (hstack : q.stack = t :: stack) (hgood : t.Good S) (hlive : t.Live S)
    (hchain : Chained S t.se stack)
    (hflag : (S.element t.se).simple = true → q.se = t.se ∧ q.flag = S.flagAt t.se t.count) :
    (parseElement S q t.se).Shape S := by
  unfold parseElement
  cases hsimple : (S.element t.se).simple with
  | true =>
    obtain ⟨hse, hq⟩ := hflag hsimple
    unfold Shape
    rw [if_pos rfl]
    dsimp only
    rw [hstack]
    exact ⟨hgood, hlive, hchain, hsimple, hse, hq⟩
  | false =>
    unfold Shape
    rw [if_neg Bool.false_ne_true]
    dsimp only
    rw [hstack]
    exact ⟨hgood, hlive, hsimple, Schema.place_first _, hchain⟩

theorem Shape.chained_n {i : ℕ} {stack : List StackItem} (h : Chained S i stack) :
    i < S.length ∨ (S.element i).n ≠ 0 := by
  cases stack with
  | nil => exact Or.inl h
  | cons t stack => exact Or.inr h.2.2.2.1.2

/-- PARSE_ELEMENT, at an element. -/
theorem stepElement_shape (hS : S.Generated) (hL : S.Laid) (hs : Chained S p.se p.stack)
    (helement : (S.element p.se).isAttribute = false) : (stepElement S p).parser.Shape S := by
  unfold stepElement
  dsimp only
  rw [helement, if_neg Bool.false_ne_true]
  by_cases hfull : p.stack.length = maxStack
  · rw [if_pos hfull]
    exact trivial
  · rw [if_neg hfull]
    have hoccurs : (S.element p.se).unbounded = false → 0 < (S.element p.se).max := by
      intro hbounded
      rcases Shape.chained_n hs with hroot | hentry
      · rw [(hS.root p.se hroot).2.1]
        exact Nat.one_pos
      · exact hL.occurs p.se hentry hbounded
    cases hunbounded : (S.element p.se).unbounded with
    | true =>
      rw [if_pos rfl]
      refine parseElement_shape
        (t := ⟨p.se, p.base, S.objectElementSize (S.element p.se), 0, 0, []⟩) rfl ⟨rfl, ?_, helement⟩ (Or.inl hunbounded) hs fun _ => ⟨rfl, ?_⟩
      · exact (if_pos hunbounded).symm
      · show (S.element p.se).bit + 0 = S.flagAt p.se 0
        exact (Schema.flagAt_unbounded hunbounded).symm
    | false =>
      rw [if_neg Bool.false_ne_true]
      refine parseElement_shape (t := ⟨p.se, p.base, S.objectElementSize (S.element p.se), 0,
        (S.element p.se).max - (S.element p.se).min, []⟩)
        rfl ⟨rfl, ?_, helement⟩ (Or.inr (hoccurs hunbounded)) hs fun _ => ⟨rfl, ?_⟩
      · exact (if_neg (by rw [hunbounded]; exact Bool.false_ne_true)).symm
      · rw [Schema.flagAt_bounded hunbounded]
        dsimp only
        split <;> rfl

/-- PARSE_ELEMENT, at an attribute. -/
theorem stepElement_attribute (hs : Chained S p.se p.stack)
    (hattribute : (S.element p.se).isAttribute = true) : (stepElement S p).parser.Shape S := by
  unfold stepElement
  dsimp only
  rw [hattribute, if_pos rfl]
  split
  · rename_i hflag
    exact ⟨hs, hattribute, (SchemaElement.attrFlag_of_flag hflag).symm⟩
  · rename_i hflag
    exact ⟨hs, hattribute, (SchemaElement.attrFlag_of_not hflag).symm⟩

/-- PARSE_SEQUENCE, at another occurrence. -/
theorem stepSequence_shape {t : StackItem} {stack : List StackItem} (hstack : p.stack = t :: stack)
    (hgood : t.Good S) (hlive : t.Live S) (hchain : Chained S t.se stack) (hcount : 0 < t.count)
    (hflag : (S.element t.se).simple = true →
      p.se = t.se ∧ p.flag = S.flagAt t.se (t.count - 1)) :
    (stepSequence S p t).parser.Shape S := by
  have hnext : (S.element t.se).simple = true → p.se = t.se ∧
      p.flag + 1 = S.flagAt t.se t.count := by
    intro hsimple
    obtain ⟨hse, hp⟩ := hflag hsimple
    refine ⟨hse, ?_⟩
    rw [hp, ← Schema.flagAt_succ, Nat.sub_add_cancel hcount]
  unfold stepSequence
  dsimp only
  cases hunbounded : (S.element t.se).unbounded with
  | true =>
    rw [if_pos rfl]
    exact parseElement_shape hstack hgood hlive hchain hnext
  | false =>
    rw [if_neg Bool.false_ne_true]
    split
    · exact parseElement_shape hstack hgood hlive hchain hnext
    · exact trivial

/-- **A step of `parse_doc` keeps its place in the schema.** -/
theorem Shape.next (hS : S.Generated) (hL : S.Laid) (hw : d.Walks S rebuffer Ready)
    (hs : p.Shape S) (hr : Ready p) (h : Next S d rebuffer p p') : p'.Shape S := by
  obtain ⟨r, -, rfl⟩ := h.parser
  show (step S d p).parser.Shape S
  have hshape := hs
  unfold Shape at hs
  unfold step
  cases hstate : p.state with
  | parseStart =>
    dsimp only
    have hstart := hw.start p.toFront
    split
    · rename_i hok
      rw [if_pos hok] at hstart
      exact hstart
    · rename_i hok
      rw [if_neg hok, hstate] at hstart
      show Shape S (p.withFront _)
      unfold Shape withFront
      dsimp only
      rcases hstart with hsame | hinvalid
      · rw [hsame]; exact trivial
      · rw [hinvalid]; exact trivial
  | parseElement =>
    rw [hstate] at hs
    cases hattribute : (S.element p.se).isAttribute with
    | true => exact stepElement_attribute hs hattribute
    | false => exact stepElement_shape hS hL hs hattribute
  | parseNext =>
    have hnext := hw.next p hstate hshape hr
    have hresult : Shape S (p.withFront (d.parseNext p.stack p.toFront).2) := by
      rw [hstate] at hs
      unfold Shape withFront
      dsimp only
      generalize (d.parseNext p.stack p.toFront).2 = f at hnext ⊢
      cases hf : f.state with
      | parseElement =>
        rw [hf] at hnext
        obtain ⟨t, stack, hstack, hentry⟩ := hnext
        rw [hstack] at hs ⊢
        obtain ⟨hgood, hlive, hsimple, -, hchain⟩ := hs
        exact ⟨hgood, hlive, hsimple, hentry, hchain⟩
      | parseNext =>
        rw [hf] at hnext
        have hse : f.se = p.se := hnext
        rw [hse]
        exact hs
      | parseEnd =>
        cases hstack : p.stack with
        | nil => exact trivial
        | cons t stack =>
          rw [hstack] at hs
          obtain ⟨hgood, hlive, hsimple, -, hchain⟩ := hs
          refine ⟨hgood, hlive, hchain, fun h => absurd (hsimple.symm.trans h) Bool.false_ne_true⟩
      | parseInvalid => exact trivial
      | _ =>
        rw [hf] at hnext
        exact hnext.elim
    dsimp only
    split <;> exact hresult
  | parseAttribute =>
    rw [hstate] at hs
    obtain ⟨hchain, hattribute, hflag⟩ := hs
    obtain ⟨hse, hfail, -⟩ := hw.attrValue p.toFront
    dsimp only
    split
    · rw [← hse] at hchain hattribute
      cases hstack : p.stack with
      | nil =>
        rw [hstack] at hchain
        refine absurd hattribute ?_
        rw [(hS.root _ hchain).2.2.1]
        exact Bool.false_ne_true
      | cons t stack =>
        rw [hstack] at hchain
        obtain ⟨hgood, hlive, hsimple, hentry, hchain⟩ := hchain
        unfold Shape ParseStep.parser withFront
        dsimp only
        rw [hstack]
        exact ⟨hgood, hlive, hsimple, hentry.next, hchain⟩
    · rename_i hok
      unfold Shape ParseStep.parser withFront
      dsimp only
      rcases hfail (Bool.eq_false_iff.mpr hok) with hsame | hinvalid
      · rw [hsame, hse, show p.toFront.state = .parseAttribute from hstate]
        exact ⟨hchain, hattribute, hflag⟩
      · rw [hinvalid]; exact trivial
  | parseValue =>
    rw [hstate] at hs
    obtain ⟨hse, hfail, -⟩ := hw.value p.toFront
    dsimp only
    cases hstack : p.stack with
    | nil =>
      rw [hstack] at hs
      exact hs.elim
    | cons t stack =>
      rw [hstack] at hs
      obtain ⟨hgood, hlive, hchain, hsimple, hpse, hflag⟩ := hs
      split
      · unfold Shape ParseStep.parser withFront
        dsimp only
        rw [hstack]
        exact ⟨hgood, hlive, hchain, fun _ => ⟨hse.trans hpse, hflag⟩⟩
      · rename_i hok
        unfold Shape ParseStep.parser withFront
        dsimp only
        rcases hfail (Bool.eq_false_iff.mpr hok) with hsame | hinvalid
        · rw [hsame, show p.toFront.state = .parseValue from hstate, hstack]
          exact ⟨hgood, hlive, hchain, hsimple, hse.trans hpse, hflag⟩
        · rw [hinvalid]; exact trivial
  | parseEnd =>
    rw [hstate] at hs
    cases hstack : p.stack with
    | nil => exact trivial
    | cons t stack =>
      rw [hstack] at hs
      obtain ⟨hgood, hlive, hchain, hsimple⟩ := hs
      obtain ⟨hse, hfail⟩ := hw.end_ t.se p.toFront
      dsimp only
      split
      · have hgood' : StackItem.Good S { t with count := t.count + 1 } :=
          ⟨hgood.size, hgood.all, hgood.element⟩
        unfold Shape ParseStep.parser withFront
        dsimp only
        split_ifs with hmore
        · exact ⟨hgood', hmore, hchain, Nat.succ_pos _, fun h =>
            ⟨hse.trans (hsimple h).1, (hsimple h).2⟩⟩
        · rw [not_or, Bool.not_eq_true, Nat.not_lt] at hmore
          refine ⟨hgood', hchain, ?_, Or.inr ?_⟩
          · exact Nat.le_trans (hS.bounds t.se hmore.1) hmore.2
          · rcases hlive with hunbounded | hcount
            · rw [hmore.1] at hunbounded
              exact absurd hunbounded Bool.false_ne_true
            · exact hcount
      · rename_i hok
        unfold Shape ParseStep.parser withFront
        dsimp only
        rcases hfail (Bool.eq_false_iff.mpr hok) with hsame | hinvalid
        · rw [hsame, show p.toFront.state = .parseEnd from hstate, hstack]
          exact ⟨hgood, hlive, hchain, fun h => ⟨hse.trans (hsimple h).1, (hsimple h).2⟩⟩
        · rw [hinvalid]; exact trivial
  | parseSequence =>
    rw [hstate] at hs
    cases hstack : p.stack with
    | nil =>
      rw [hstack] at hs
      exact hs.elim
    | cons t stack =>
      rw [hstack] at hs
      obtain ⟨hgood, hlive, hchain, hcount, hsimple⟩ := hs
      obtain ⟨hse, hfail⟩ := hw.sequence t p.toFront
      dsimp only
      split
      · exact stepSequence_shape hstack hgood hlive hchain hcount fun h =>
          ⟨hse.trans (hsimple h).1, (hsimple h).2⟩
      · rename_i hok
        have hresult : Shape S (p.withFront (d.parseSequence t p.toFront).2) := by
          unfold Shape withFront
          dsimp only
          rcases hfail (Bool.eq_false_iff.mpr hok) with hsame | hinvalid | hbeyond | ⟨hend, hmin⟩
          · rw [hsame, show p.toFront.state = .parseSequence from hstate, hstack]
            exact ⟨hgood, hlive, hchain, hcount, fun h =>
              ⟨hse.trans (hsimple h).1, (hsimple h).2⟩⟩
          · rw [hinvalid]; exact trivial
          · rw [hbeyond]; exact trivial
          · rw [hend, hstack]
            exact ⟨hgood, hchain, hmin, hlive.imp_right Nat.le_of_lt⟩
        split <;> exact hresult
  | sequenceEnd =>
    rw [hstate] at hs
    cases hstack : p.stack with
    | nil =>
      rw [hstack] at hs
      exact hs.elim
    | cons t stack =>
      rw [hstack] at hs
      obtain ⟨hgood, hchain, -, -⟩ := hs
      dsimp only
      unfold Shape ParseStep.parser
      dsimp only
      cases stack with
      | nil => exact hS.globals _ hchain
      | cons u stack =>
        obtain ⟨hgood, hlive, hsimple, hentry, hchain⟩ := hchain
        exact ⟨hgood, hlive, hsimple, hentry.next, hchain⟩
  | parseInvalid =>
    unfold Shape ParseStep.parser
    dsimp only
    rw [hstate]
    exact trivial
  | beyond =>
    unfold Shape ParseStep.parser
    dsimp only
    rw [hstate]
    exact trivial

end Parser

end SeClient
