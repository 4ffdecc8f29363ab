import SeClient.Items

/-!
# The steps of parse_doc

What one pass of `parse_doc` does where the driver finds what it looks for, whatever the driver: the
entries and counts on the stack, what is left of the front, and the visit.
-/

namespace SeClient
open Relation

/-- The parser gets from `p` to `q` by visits of the shapes `shapes`. -/
def Parser.Leads {ρ : Type} (S : Schema) (d : ParserDriver ρ) (p : Parser ρ) (shapes : List Visit)
    (q : Parser ρ) : Prop :=
  ∀ visits, ∃ visits', ReflTransGen (ParserGoes S d) (p, visits) (q, visits ++ visits') ∧
    visits'.map Visit.shape = shapes

/-- The entries and counts on the stack. -/
def Parser.path {ρ : Type} (p : Parser ρ) : List (ℕ × ℕ) := p.stack.map fun t => (t.se, t.count)

/-- The state inside an occurrence of an element. -/
def insideState (S : Schema) (i : ℕ) : ParserState :=
  if (S.element i).simple then .parseValue else .parseNext

def insideEntry (S : Schema) (i se : ℕ) : ℕ :=
  if (S.element i).simple then se else (S.element i).index + 1

/-- The state behind the end of an element. -/
def afterState (S : Schema) (j count : ℕ) : ParserState :=
  if (S.element j).unbounded ∨ count < (S.element j).max then .parseSequence else .sequenceEnd

theorem insideState_ne_sequenceEnd {S : Schema} {i : ℕ} : insideState S i ≠ .sequenceEnd := by
  unfold insideState
  split <;> exact ParserState.noConfusion

namespace Parser
variable {ρ : Type} {S : Schema} {d : ParserDriver ρ} {p q r : Parser ρ} {f : Front ρ}
  {shapes shapes' : List Visit} {t : StackItem} {stack : List (ℕ × ℕ)} {j count : ℕ} {w : Stored}

theorem Leads.refl : Leads S d p [] p := by
  intro visits
  exact ⟨[], by rw [List.append_nil], rfl⟩

theorem Leads.trans (h : Leads S d p shapes q) (h' : Leads S d q shapes' r) :
    Leads S d p (shapes ++ shapes') r := by
  intro visits
  obtain ⟨visits₁, hruns, rfl⟩ := h visits
  obtain ⟨visits₂, hruns', rfl⟩ := h' (visits ++ visits₁)
  refine ⟨visits₁ ++ visits₂, ?_, List.map_append⟩
  rw [← List.append_assoc]
  exact hruns.trans hruns'

theorem Leads.single (h : step S d p = .go q) (hvisit : (visit S d p q).map Visit.shape = shapes) :
    Leads S d p shapes q := by
  intro visits
  exact ⟨_, .single ⟨h, rfl⟩, hvisit⟩

theorem path_cons (h : p.path = (j, count) :: stack) :
    ∃ t s, p.stack = t :: s ∧ t.se = j ∧ t.count = count ∧
      s.map (fun t => (t.se, t.count)) = stack := by
  obtain ⟨t, s, hp, ht, hs⟩ := List.map_eq_cons_iff.1 h
  obtain ⟨hse, hcount⟩ := Prod.mk.inj ht
  exact ⟨t, s, hp, hse, hcount, hs⟩

theorem parseElement_eq (q : Parser ρ) (i : ℕ) :
    parseElement S q i = { q with state := insideState S i, se := insideEntry S i q.se } := by
  unfold parseElement insideState insideEntry
  split <;> rfl

/-- An event at an entry. -/
theorem leads_next (hstate : p.state = .parseNext)
    (hnext : d.parseNext p.stack p.toFront = (true, f)) :
    ∃ q, q.toFront = f ∧ q.path = p.path ∧ Leads S d p [] q := by
  refine ⟨p.withFront f, rfl, rfl, .single ?_ ?_⟩
  · simp [step, hstate, hnext]
  · simp [visit, hstate]

theorem leads_attribute (hstate : p.state = .parseElement)
    (hattribute : (S.element p.se).isAttribute = true) :
    ∃ q, q.toFront = { p.toFront with state := .parseAttribute } ∧ q.path = p.path ∧
      Leads S d p [] q := by
  have hstep : ∃ q, step S d p = .go q ∧
      q.toFront = { p.toFront with state := .parseAttribute } ∧ q.path = p.path := by
    simp only [step, hstate, stepElement, hattribute, if_true]
    split
    · exact ⟨_, rfl, rfl, rfl⟩
    · exact ⟨_, rfl, rfl, rfl⟩
  obtain ⟨q, hgoes, hfront, hpath⟩ := hstep
  exact ⟨q, hfront, hpath, .single hgoes (by simp [visit, hstate, hattribute])⟩

theorem leads_attribute_value (hstate : p.state = .parseAttribute)
    (hvalue : d.parseAttrValue p.toFront = (true, w, f)) :
    ∃ q, q.toFront = { f with state := .parseNext, se := f.se + 1 } ∧ q.path = p.path ∧
      Leads S d p [.attribute p.se ⟨0, 0⟩ w] q := by
  have hstep : ∃ q, step S d p = .go q ∧
      q.toFront = { f with state := .parseNext, se := f.se + 1 } ∧ q.path = p.path := by
    simp only [step, hstate, hvalue, if_true]
    exact ⟨_, rfl, rfl, rfl⟩
  obtain ⟨q, hgoes, hfront, hpath⟩ := hstep
  exact ⟨q, hfront, hpath, .single hgoes (by simp [visit, hstate, hvalue, Visit.shape])⟩

/-- The first occurrence of an element. -/
theorem leads_element (hstate : p.state = .parseElement)
    (hattribute : (S.element p.se).isAttribute = false) (hroom : p.path.length ≠ maxStack) :
    ∃ q, q.toFront = { p.toFront with state := insideState S p.se, se := insideEntry S p.se p.se } ∧
      q.path = (p.se, 0) :: p.path ∧ Leads S d p [.enter p.se ⟨0, 0⟩] q := by
  have hlength : p.stack.length ≠ maxStack := by rwa [path, List.length_map] at hroom
  have hstep : ∃ q, step S d p = .go q ∧
      q.toFront = { p.toFront with state := insideState S p.se, se := insideEntry S p.se p.se } ∧
      q.path = (p.se, 0) :: p.path := by
    simp only [step, hstate, stepElement, hattribute, Bool.false_eq_true, if_false,
      if_neg hlength, parseElement_eq]
    split
    · exact ⟨_, rfl, rfl, rfl⟩
    · exact ⟨_, rfl, rfl, rfl⟩
  obtain ⟨q, hgoes, hfront, hpath⟩ := hstep
  exact ⟨q, hfront, hpath, .single hgoes (by simp [visit, hstate, hattribute, Visit.shape])⟩

/-- A value of simple type. -/
theorem leads_value (hstate : p.state = .parseValue)
    (hvalue : d.parseValue p.toFront = (true, w, f)) :
    ∃ q, q.toFront = { f with state := .parseEnd } ∧ q.path = p.path ∧
      Leads S d p [.text p.se ⟨0, 0⟩ w] q := by
  have hstep : ∃ q, step S d p = .go q ∧ q.toFront = { f with state := .parseEnd } ∧
      q.path = p.path := by
    simp only [step, hstate, hvalue, if_true]
    exact ⟨_, rfl, rfl, rfl⟩
  obtain ⟨q, hgoes, hfront, hpath⟩ := hstep
  exact ⟨q, hfront, hpath, .single hgoes (by simp [visit, hstate, hvalue, Visit.shape])⟩

theorem leads_end (hstate : p.state = .parseEnd) (hpath : p.path = (j, count) :: stack)
    (hend : d.parseEnd j p.toFront = (true, f)) :
    ∃ q, q.toFront = { f with state := afterState S j (count + 1) } ∧
      q.path = (j, count + 1) :: stack ∧ Leads S d p [.leave j] q := by
  obtain ⟨t, s, hstack, rfl, rfl, hs⟩ := path_cons hpath
  have hstep : ∃ q, step S d p = .go q ∧
      q.toFront = { f with state := afterState S t.se (t.count + 1) } ∧
      q.path = (t.se, t.count + 1) :: stack := by
    simp only [step, hstate, hstack, hend, if_true]
    exact ⟨_, rfl, rfl, congrArg ((t.se, t.count + 1) :: ·) hs⟩
  obtain ⟨q, hgoes, hfront, hpath⟩ := hstep
  exact ⟨q, hfront, hpath, .single hgoes (by simp [visit, hstate, hstack, Visit.shape])⟩

/-- A further occurrence of an element. -/
theorem leads_again (hstate : p.state = .parseSequence) (hpath : p.path = (j, count) :: stack)
    (hagain : ∀ t, t.se = j → t.count = count → d.parseSequence t p.toFront = (true, f))
    (hmore : (S.element j).unbounded ∨ count < (S.element j).max) :
    ∃ q, q.toFront = { f with state := insideState S j, se := insideEntry S j f.se } ∧
      q.path = (j, count) :: stack ∧ Leads S d p [.enter j ⟨0, 0⟩] q := by
  obtain ⟨t, s, hstack, rfl, rfl, hs⟩ := path_cons hpath
  have hstep : ∃ q, step S d p = .go q ∧
      q.toFront = { f with state := insideState S t.se, se := insideEntry S t.se f.se } ∧
      q.path = (t.se, t.count) :: stack := by
    cases hunbounded : (S.element t.se).unbounded with
    | true =>
      simp only [step, hstate, hstack, hagain t rfl rfl, if_true, stepSequence, hunbounded,
        parseElement_eq]
      exact ⟨_, rfl, rfl, hpath⟩
    | false =>
      have hmore : t.count < (S.element t.se).max := by simpa [hunbounded] using hmore
      simp only [step, hstate, hstack, hagain t rfl rfl, if_true, stepSequence, hunbounded,
        Bool.false_eq_true, if_false, if_pos hmore, parseElement_eq]
      exact ⟨_, rfl, rfl, hpath⟩
  obtain ⟨q, hgoes, hfront, hpath⟩ := hstep
  have hinside : q.state = insideState S t.se := congrArg Front.state hfront
  have hne : q.state ≠ .sequenceEnd := by
    rw [hinside]
    exact insideState_ne_sequenceEnd
  exact ⟨q, hfront, hpath, .single hgoes (by simp [visit, hstate, hstack, hne, Visit.shape])⟩

/-- The driver finds that a sequence ends. -/
theorem leads_sequence_end (hstate : p.state = .parseSequence)
    (hpath : p.path = (j, count) :: stack)
    (hends : ∀ t, t.se = j → t.count = count → d.parseSequence t p.toFront = (false, f))
    (hfront : f.state = .sequenceEnd) :
    ∃ q, q.toFront = f ∧ q.path = (j, count) :: stack ∧ Leads S d p [] q := by
  obtain ⟨t, s, hstack, rfl, rfl, hs⟩ := path_cons hpath
  refine ⟨p.withFront f, rfl, hpath, .single ?_ ?_⟩
  · simp [step, hstate, hstack, hends t rfl rfl, withFront, hfront]
  · simp [visit, hstate, withFront, hfront]

/-- Behind a sequence. -/
theorem leads_behind (hstate : p.state = .sequenceEnd) (hpath : p.path = (j, count) :: stack) :
    ∃ q, q.toFront = { p.toFront with state := .parseNext, se := j + 1 } ∧ q.path = stack ∧
      Leads S d p [] q := by
  obtain ⟨t, s, hstack, rfl, rfl, hs⟩ := path_cons hpath
  have hstep : ∃ q, step S d p = .go q ∧
      q.toFront = { p.toFront with state := .parseNext, se := t.se + 1 } ∧ q.path = stack := by
    simp only [step, hstate, hstack]
    exact ⟨_, rfl, rfl, hs⟩
  obtain ⟨q, hgoes, hfront, hpath⟩ := hstep
  exact ⟨q, hfront, hpath, .single hgoes (by simp [visit, hstate])⟩

end Parser
end SeClient
