import SeClient.EventReading

/-!
# The calls of output_doc

What `output_doc` hands to its driver does not depend on the driver: the object is passed through in
the order of its document, and a call that fails is made again.
-/

namespace SeClient

/-- A call of the driver: an event of an entry, the value of an attribute, or the value of an
element of simple type. -/
inductive DriverCall
  | event (e : OutputEvent) (i : ℕ)
  | attrValue (i : ℕ) (w : Stored)
  | value (i : ℕ) (w : Stored)
deriving DecidableEq, Repr

/-- The calls for a visit. -/
def Visit.calls (S : Schema) : Visit → List DriverCall
  | .attribute i _ w => [.event .atEvent i, .attrValue i w]
  | .enter i _ => [.event (if (S.element i).simple then .seSimple else .seComplex) i]
  | .text i _ w => [.value i w]
  | .leave i => [.event .eeEvent i]

/-- The calls for the document of an object. -/
def documentCalls (S : Schema) (m : Heap) (obj : Addr) (type : ℕ) : List DriverCall :=
  (document S m obj type).flatMap (Visit.calls S)

namespace Output
variable {σ τ : Type} (S : Schema) (m : Heap)

/-- The call that comes next. -/
def call (o : Output σ) : Option DriverCall :=
  match o.state with
  | .outputAttribute => some (.event .atEvent o.se)
  | .outputAttrValue => some (.attrValue o.se
      (m.load (S.element o.se).xsType (o.base.plus (S.element o.se).offset) o.flag))
  | .outputSimple => some (.event .seSimple o.se)
  | .outputValue => some (.value o.se (m.load (S.element o.se).xsType o.base o.flag))
  | .outputEnd => o.stack.head?.map fun t => .event .eeEvent t.se
  | .outputComplex => o.stack.head?.map fun t => .event .seComplex t.se
  | _ => none

/-- What the driver makes of the next call. -/
def attempt (d : OutputDriver σ) (o : Output σ) : Option (Output σ) :=
  match o.state with
  | .outputAttribute => d.outputEvent o (S.element o.se) .atEvent
  | .outputAttrValue => d.outputAttrValue o (o.base.plus (S.element o.se).offset)
  | .outputSimple => d.outputEvent o (S.element o.se) .seSimple
  | .outputValue => d.outputValue o o.base
  | .outputEnd => o.stack.head?.bind fun t => d.outputEvent o (S.element t.se) .eeEvent
  | .outputComplex => o.stack.head?.bind fun t => d.outputEvent o (S.element t.se) .seComplex
  | _ => none

/-- Two outputs are at the same place of the object. -/
structure SamePlace (o : Output σ) (o' : Output τ) : Prop where
  state : o.state = o'.state
  se : o.se = o'.se
  stack : o.stack = o'.stack
  base : o.base = o'.base
  flag : o.flag = o'.flag

/-- A driver that takes all there is. -/
def takesAll : OutputDriver Unit where
  outputEvent := fun o _ _ => some o
  outputAttrValue := fun o _ => some o
  outputValue := fun o _ => some o
  outputDone := id

/-- The calls that `output_doc` has still to make. -/
inductive Remains (obj : Addr) (type : ℕ) : Output Unit → List DriverCall → Prop
  | done {o : Output Unit} (hstate : o.state = .outputEnd) (hstack : o.stack = []) :
      Remains obj type o []
  | element {o o' : Output Unit} {cs : List DriverCall} (hstate : o.state = .outputElement)
      (h : stepElement S m o = .go o') (hs : Remains obj type o' cs) : Remains obj type o cs
  | call {o o' : Output Unit} {c : DriverCall} {cs : List DriverCall}
      (hcall : o.call S m = some c) (h : step S m takesAll obj type o = .go o')
      (hs : Remains obj type o' cs) : Remains obj type o (c :: cs)

end Output

/-! ## The same steps with any driver -/

section Same
open Output
variable {σ τ : Type} {S : Schema} {m : Heap} {d : OutputDriver σ} {obj : Addr} {type : ℕ}
  {p q : Output σ} {o o' : Output τ} {t : StackItem} {stack : List StackItem}

theorem Output.SamePlace.call (h : p.SamePlace o) : p.call S m = o.call S m := by
  obtain ⟨hstate, hse, hstack, hbase, hflag⟩ := h
  unfold Output.call
  rw [hstate, hse, hstack, hbase, hflag]

theorem outputNext_same (h : p.SamePlace o) : (outputNext S p).SamePlace (outputNext S o) := by
  obtain ⟨hstate, hse, hstack, hbase, hflag⟩ := h
  exact ⟨by simp [outputNext, hse], by simp [outputNext, hse], hstack, hbase, hflag⟩

theorem elementNext_same (h : p.SamePlace o) :
    (elementNext S p t).SamePlace (elementNext S o t) := by
  obtain ⟨hstate, hse, hstack, hbase, hflag⟩ := h
  exact outputNext_same ⟨hstate, rfl, congrArg List.tail hstack, rfl, hflag⟩

theorem elementSkip_same (h : p.SamePlace o) :
    (elementSkip S p t).SamePlace (elementSkip S o t) := by
  obtain ⟨hstate, hse, hstack, hbase, hflag⟩ := h
  unfold elementSkip
  split
  · exact ⟨rfl, hse, hstack, hbase, hflag⟩
  · exact elementNext_same ⟨hstate, hse, hstack, hbase, hflag⟩

theorem outputElement_same (h : p.SamePlace o) :
    (outputElement S p t).SamePlace (outputElement S o t) := by
  obtain ⟨hstate, hse, hstack, hbase, hflag⟩ := h
  exact ⟨rfl, hse, hstack, hbase, hflag⟩

theorem stepEnd_same (h : p.SamePlace o) :
    (stepEnd S p t stack).SamePlace (stepEnd S o t stack) := by
  obtain ⟨hstate, hse, hstack, hbase, hflag⟩ := h
  unfold stepEnd
  dsimp only
  split
  · split
    · exact elementSkip_same ⟨hstate, hse, rfl, hbase, hflag⟩
    · exact outputElement_same ⟨hstate, hse, rfl, rfl, congrArg (· + 1) hflag⟩
  · split
    · exact outputElement_same ⟨hstate, hse, rfl, by rw [hbase], congrArg (· + 1) hflag⟩
    · split
      · exact elementNext_same ⟨hstate, hse, rfl, hbase, hflag⟩
      · exact elementSkip_same ⟨hstate, hse, rfl, hbase, hflag⟩

@[simp] theorem elementSkip_out : (elementSkip S p t).out = p.out := by
  unfold elementSkip
  split <;> rfl

@[simp] theorem elementSkip_first : (elementSkip S p t).first = p.first := by
  unfold elementSkip
  split <;> rfl

@[simp] theorem stepEnd_out : (stepEnd S p t stack).out = p.out := by
  simp only [stepEnd, outputElement, elementNext, outputSkip, outputNext]
  split
  · split
    · exact elementSkip_out
    · rfl
  · split
    · rfl
    · split
      · rfl
      · exact elementSkip_out

@[simp] theorem stepEnd_first : (stepEnd S p t stack).first = p.first := by
  simp only [stepEnd, outputElement, elementNext, outputSkip, outputNext]
  split
  · split
    · exact elementSkip_first
    · rfl
  · split
    · rfl
    · split
      · rfl
      · exact elementSkip_first

/-- Where the driver is not called, it does not matter. -/
theorem stepElement_same (h : p.SamePlace o) (hstep : stepElement S m o = .go o') :
    ∃ p', stepElement S m p = .go p' ∧ p'.SamePlace o' ∧ p'.out = p.out ∧ p'.first = p.first := by
  obtain ⟨state, se, s, a, n, c, f, b, out⟩ := p
  obtain ⟨state', se', s', a', n', c', f', b', out'⟩ := o
  obtain ⟨rfl, rfl, rfl, rfl, rfl⟩ := h
  unfold stepElement at hstep ⊢
  dsimp only at hstep ⊢
  by_cases hattribute : (S.element se).isAttribute = true
  · rw [if_pos hattribute] at hstep ⊢
    by_cases hcount : m.outputCount a (S.element se) ≠ 0
    · rw [if_pos hcount] at hstep ⊢
      cases hstep
      exact ⟨_, rfl, ⟨rfl, rfl, rfl, rfl, rfl⟩, rfl, rfl⟩
    · rw [if_neg hcount] at hstep ⊢
      by_cases hmin : (S.element se).min ≠ 0
      · rw [if_pos hmin] at hstep ⊢
        cases hstep
        exact ⟨_, rfl, ⟨rfl, rfl, rfl, rfl, rfl⟩, rfl, rfl⟩
      · rw [if_neg hmin] at hstep ⊢
        cases hstep
        exact ⟨_, rfl, outputNext_same ⟨rfl, rfl, rfl, rfl, rfl⟩, rfl, rfl⟩
  · rw [if_neg hattribute] at hstep ⊢
    by_cases hroom : s.length = maxStack
    · rw [if_pos hroom] at hstep
      simp at hstep
    · rw [if_neg hroom] at hstep ⊢
      by_cases hunbounded : (S.element se).unbounded = true
      · rw [if_pos hunbounded] at hstep ⊢
        cases hitems : m.items (a.plus (S.element se).offset) with
        | nil =>
          rw [hitems] at hstep
          cases hstep
          exact ⟨_, rfl, elementSkip_same ⟨rfl, rfl, rfl, rfl, rfl⟩, elementSkip_out,
            elementSkip_first⟩
        | cons x xs =>
          rw [hitems] at hstep
          cases hstep
          exact ⟨_, rfl, outputElement_same ⟨rfl, rfl, rfl, rfl, rfl⟩, rfl, rfl⟩
      · rw [if_neg hunbounded] at hstep ⊢
        by_cases hcount : m.outputCount a (S.element se) ≠ 0
        · rw [if_pos hcount] at hstep ⊢
          cases hstep
          exact ⟨_, rfl, outputElement_same ⟨rfl, rfl, rfl, rfl, rfl⟩, rfl, rfl⟩
        · rw [if_neg hcount] at hstep ⊢
          cases hstep
          exact ⟨_, rfl, elementSkip_same ⟨rfl, rfl, rfl, rfl, rfl⟩, elementSkip_out,
            elementSkip_first⟩

/-- A call that the driver takes. -/
theorem step_call {o o' : Output Unit} {c : DriverCall} (h : p.SamePlace o)
    (hcall : o.call S m = some c) (hstep : step S m takesAll obj type o = .go o')
    (hattempt : p.attempt S d = some q) (hq : q.SamePlace p) :
    ∃ p', step S m d obj type p = .go p' ∧ p'.SamePlace o' ∧ p'.out = q.out ∧
      p'.first = q.first := by
  have hqo : q.SamePlace o := ⟨hq.state.trans h.state, hq.se.trans h.se, hq.stack.trans h.stack,
    hq.base.trans h.base, hq.flag.trans h.flag⟩
  have hstate := h.state
  unfold step at hstep ⊢
  unfold attempt at hattempt
  unfold Output.call at hcall
  cases hs : o.state with
  | outputAttribute =>
    rw [hstate, hs] at hattempt
    rw [hs] at hstep
    rw [hstate, hs]
    dsimp only at hattempt hstep ⊢
    rw [hattempt]
    cases hstep
    exact ⟨_, rfl, ⟨rfl, hqo.se, hqo.stack, hqo.base, hqo.flag⟩, rfl, rfl⟩
  | outputAttrValue =>
    rw [hstate, hs] at hattempt
    rw [hs] at hstep
    rw [hstate, hs]
    dsimp only at hattempt hstep ⊢
    rw [hattempt]
    cases hstep
    exact ⟨_, rfl, outputNext_same hqo, rfl, rfl⟩
  | outputSimple =>
    rw [hstate, hs] at hattempt
    rw [hs] at hstep
    rw [hstate, hs]
    dsimp only at hattempt hstep ⊢
    rw [hattempt]
    cases hstep
    exact ⟨_, rfl, ⟨rfl, hqo.se, hqo.stack, hqo.base, hqo.flag⟩, rfl, rfl⟩
  | outputValue =>
    rw [hstate, hs] at hattempt
    rw [hs] at hstep
    rw [hstate, hs]
    dsimp only at hattempt hstep ⊢
    rw [hattempt]
    cases hstep
    exact ⟨_, rfl, ⟨rfl, hqo.se, hqo.stack, hqo.base, hqo.flag⟩, rfl, rfl⟩
  | outputEnd =>
    cases hstack : o.stack with
    | nil =>
      rw [hs] at hcall
      simp [hstack] at hcall
    | cons t s =>
      rw [hstate, hs, h.stack, hstack] at hattempt
      rw [hs, hstack] at hstep
      rw [hstate, hs, h.stack, hstack]
      dsimp only [List.head?_cons, Option.bind_some] at hattempt hstep ⊢
      rw [hattempt]
      cases hstep
      exact ⟨_, rfl, stepEnd_same hqo, stepEnd_out, stepEnd_first⟩
  | outputComplex =>
    cases hstack : o.stack with
    | nil =>
      rw [hs] at hcall
      simp [hstack] at hcall
    | cons t s =>
      rw [hstate, hs, h.stack, hstack] at hattempt
      rw [hs, hstack] at hstep
      rw [hstate, hs, h.stack, hstack]
      dsimp only [List.head?_cons, Option.bind_some] at hattempt hstep ⊢
      rw [hattempt]
      cases hstep
      exact ⟨_, rfl, ⟨rfl, rfl, hqo.stack, hqo.base, hqo.flag⟩, rfl, rfl⟩
  | _ =>
    rw [hs] at hcall
    simp at hcall

/-- A call that the driver has no room for. -/
theorem step_full {o : Output Unit} {c : DriverCall} (h : p.SamePlace o)
    (hcall : o.call S m = some c) (hattempt : p.attempt S d = none) :
    step S m d obj type p = .full p := by
  rw [← h.call] at hcall
  unfold step
  unfold attempt at hattempt
  unfold Output.call at hcall
  cases hs : p.state with
  | outputEnd =>
    cases hstack : p.stack with
    | nil =>
      rw [hs] at hcall
      simp [hstack] at hcall
    | cons t s =>
      rw [hs, hstack] at hattempt
      dsimp only [List.head?_cons, Option.bind_some] at hattempt ⊢
      rw [hattempt]
  | outputComplex =>
    cases hstack : p.stack with
    | nil =>
      rw [hs] at hcall
      simp [hstack] at hcall
    | cons t s =>
      rw [hs, hstack] at hattempt
      dsimp only [List.head?_cons, Option.bind_some] at hattempt ⊢
      rw [hattempt]
  | outputAttribute =>
    rw [hs] at hattempt
    dsimp only at hattempt ⊢
    rw [hattempt]
  | outputAttrValue =>
    rw [hs] at hattempt
    dsimp only at hattempt ⊢
    rw [hattempt]
  | outputSimple =>
    rw [hs] at hattempt
    dsimp only at hattempt ⊢
    rw [hattempt]
  | outputValue =>
    rw [hs] at hattempt
    dsimp only at hattempt ⊢
    rw [hattempt]
  | _ =>
    rw [hs] at hcall
    simp at hcall

end Same
/-! ## The calls for an object -/

section Calls
open Output
variable {S : Schema} {m : Heap} {obj : Addr} {type : ℕ} {i k depth : ℕ} {a x : Addr}
  {xs : List Addr} {s : List StackItem} {t : StackItem} {cs : List DriverCall}

/-- From the entry `i` of the structure at `a` on the calls `cs` remain. -/
def RemainsAt (S : Schema) (m : Heap) (obj : Addr) (type i : ℕ) (s : List StackItem) (a : Addr)
    (cs : List DriverCall) : Prop :=
  ∀ (n : ℕ) (c : ℤ) (f : ℕ), Remains S m obj type ⟨outputAt S i, i, s, a, n, c, f, true, ()⟩ cs

/-- In the state `state` with the flag `f` the calls `cs` remain. -/
def RemainsIn (S : Schema) (m : Heap) (obj : Addr) (type : ℕ) (state : OutputState) (se : ℕ)
    (s : List StackItem) (a : Addr) (f : ℕ) (cs : List DriverCall) : Prop :=
  ∀ (n : ℕ) (c : ℤ), Remains S m obj type ⟨state, se, s, a, n, c, f, true, ()⟩ cs

theorem calls_attribute (ha : (S.element i).isAttribute)
    (hc : m.outputCount a (S.element i) ≠ 0) (h : RemainsAt S m obj type (i + 1) s a cs) (f : ℕ) :
    RemainsIn S m obj type .outputElement i s a f (.event .atEvent i :: .attrValue i
      (m.load (S.element i).xsType (a.plus (S.element i).offset) (S.element i).bit) :: cs) := by
  intro n c
  have hvalue : Remains S m obj type ⟨.outputAttrValue, i, s, a, orProductions S n i, c,
      (S.element i).bit, true, ()⟩ (.attrValue i
        (m.load (S.element i).xsType (a.plus (S.element i).offset) (S.element i).bit) :: cs) :=
    .call rfl rfl (h _ _ _)
  have hevent : Remains S m obj type ⟨.outputAttribute, i, s, a, orProductions S n i, c,
      (S.element i).bit, true, ()⟩ (.event .atEvent i :: .attrValue i
        (m.load (S.element i).xsType (a.plus (S.element i).offset) (S.element i).bit) :: cs) :=
    .call rfl rfl hvalue
  refine .element rfl ?_ hevent
  simp [Output.stepElement, ha, hc, orProductions]

theorem calls_attribute_skip (ha : (S.element i).isAttribute)
    (hc : m.outputCount a (S.element i) = 0) (hm : (S.element i).min = 0)
    (h : RemainsAt S m obj type (i + 1) s a cs) (f : ℕ) :
    RemainsIn S m obj type .outputElement i s a f cs := by
  intro n c
  refine .element rfl ?_ (h (orProductions S n i) (c + 1) (S.element i).bit)
  simp [Output.stepElement, ha, hc, hm, Output.outputSkip, Output.outputNext, orProductions,
    outputAt]

theorem calls_element_skip (ha : (S.element i).isAttribute = false) (hs : s.length ≠ maxStack)
    (hc : S.occurrences m a (S.element i) = []) (hm : (S.element i).min = 0)
    (h : RemainsAt S m obj type (i + 1) s a cs) (f : ℕ) :
    RemainsIn S m obj type .outputElement i s a f cs := by
  intro n c
  refine .element rfl ?_ (h (orProductions S n i) (c + 1) (S.element i).bit)
  unfold Schema.occurrences at hc
  cases hu : (S.element i).unbounded with
  | true =>
    simp only [hu, if_true] at hc
    simp [Output.stepElement, ha, hs, hu, hc, Output.elementSkip, hm, Output.elementNext,
      Output.outputSkip, Output.outputNext, orProductions, outputAt]
  | false =>
    simp only [hu, Bool.false_eq_true, if_false, List.map_eq_nil_iff, List.range_eq_nil] at hc
    simp [Output.stepElement, ha, hs, hu, hc, Output.elementSkip, hm, Output.elementNext,
      Output.outputSkip, Output.outputNext, orProductions, outputAt]

/-- The first occurrence of an element. -/
theorem calls_element (obj : Addr) (type : ℕ) (ha : (S.element i).isAttribute = false)
    (hs : s.length ≠ maxStack)
    (hc : S.occurrences m a (S.element i) = x :: xs) :
    ∃ t, AtOccurrence S i a t x xs ∧ t.count = 0 ∧ ∀ {cs}, RemainsIn S m obj type
      (occurrenceState S i) i (t :: s) x (S.element i).bit cs → ∀ f,
        RemainsIn S m obj type .outputElement i s a f cs := by
  unfold Schema.occurrences at hc
  cases hu : (S.element i).unbounded with
  | true =>
    simp only [hu, if_true] at hc
    refine ⟨{ se := i, base := a, size := S.objectElementSize (S.element i), queue := x :: xs },
      ⟨rfl, rfl, rfl, fun _ => rfl, by simp [hu], by simp [hu]⟩, rfl, fun h f n c =>
        .element rfl ?_ (h (orOccurs S n i 0) c)⟩
    simp [Output.stepElement, ha, hs, hu, hc, Output.outputElement, orOccurs, occurrenceState]
  | false =>
    simp only [hu, Bool.false_eq_true, if_false] at hc
    have hall : m.outputCount a (S.element i) = 1 + xs.length := by
      simpa [Nat.add_comm] using congrArg List.length hc
    have hx : x = a.plus (S.element i).offset := by
      rw [hall, Nat.add_comm, List.range_succ_eq_map] at hc
      simpa [Addr.plus] using (List.cons.inj hc).1.symm
    refine ⟨{ se := i, base := a, size := S.objectElementSize (S.element i)
              all := m.outputCount a (S.element i) },
      ⟨rfl, rfl, rfl, by simp [hu], fun _ => by simpa using hall, fun _ => ?_⟩, rfl,
      fun h f n c => .element rfl ?_ (h (orOccurs S n i 0) c)⟩
    · rw [← hc]
      exact isChain_fields _ _ _
    · simp [Output.stepElement, ha, hs, hu, hall, Output.outputElement, orOccurs, occurrenceState,
        hx]

theorem calls_simple {f : ℕ} (h : RemainsIn S m obj type .outputEnd i s x f cs) :
    RemainsIn S m obj type .outputSimple i s x f
      (.event .seSimple i :: .value i (m.load (S.element i).xsType x f) :: cs) := by
  intro n c
  have hvalue : Remains S m obj type ⟨.outputValue, i, s, x, n, c, f, true, ()⟩
      (.value i (m.load (S.element i).xsType x f) :: cs) := .call rfl rfl (h n c)
  exact .call rfl rfl hvalue

theorem calls_complex (ht : t.se = i) (se : ℕ) {f : ℕ}
    (h : RemainsIn S m obj type .outputElement ((S.element i).index + 1) (t :: s) x f cs) :
    RemainsIn S m obj type .outputComplex se (t :: s) x f (.event .seComplex i :: cs) := by
  subst ht
  intro n c
  exact .call rfl rfl (h n c)

/-- The last occurrence of an element. -/
theorem calls_last (ht : AtOccurrence S i a t x []) (hmin : (S.element i).min ≤ t.count + 1)
    (hmax : (S.element i).unbounded = false → t.count + 1 ≤ (S.element i).max)
    (h : RemainsAt S m obj type (i + 1) s a cs) (se f : ℕ) :
    RemainsIn S m obj type .outputEnd se (t :: s) x f (.event .eeEvent i :: cs) := by
  obtain ⟨rfl, rfl, -, hq, hall, -⟩ := ht
  intro n c
  cases hu : (S.element t.se).unbounded with
  | true =>
    refine .call rfl ?_ (h (if n = 0 then (S.element t.se).n else n) (c + 1) f)
    simp [Output.step, takesAll, Output.stepEnd, hu, hq hu, Output.elementSkip,
      Output.elementNext, Output.outputSkip, Output.outputNext, outputAt, Nat.not_lt.2 hmin]
  | false =>
    have hall := hall hu
    simp only [List.length_nil, Nat.add_zero] at hall
    rcases Nat.eq_or_lt_of_le (hmax hu) with hm | hm
    · refine .call rfl ?_ (h n c f)
      simp [Output.step, takesAll, Output.stepEnd, hu, hall, hm, Output.elementNext,
        Output.outputSkip, Output.outputNext, outputAt]
    · refine .call rfl ?_ (h (if n = 0 then (S.element t.se).n else n) (c + 1) f)
      simp [Output.step, takesAll, Output.stepEnd, hu, hall, hm.ne, Output.elementSkip,
        Nat.not_lt.2 hmin, Output.elementNext, Output.outputSkip, Output.outputNext, outputAt]

/-- A further occurrence of an element. -/
theorem calls_again {y : Addr} (m : Heap) (obj : Addr) (type : ℕ) (s : List StackItem)
    (ht : AtOccurrence S i a t x (y :: xs)) :
    ∃ t', AtOccurrence S i a t' y xs ∧ t'.count = t.count + 1 ∧ ∀ {cs se f}, RemainsIn S m obj type
      (occurrenceState S i) se (t' :: s) y (f + 1) cs →
        RemainsIn S m obj type .outputEnd se (t :: s) x f (.event .eeEvent i :: cs) := by
  obtain ⟨rfl, rfl, hsize, hq, hall, hnext⟩ := ht
  cases hu : (S.element t.se).unbounded with
  | true =>
    have hq := hq hu
    refine ⟨{ t with count := t.count + 1, queue := y :: xs },
      ⟨rfl, rfl, hsize, fun _ => rfl, by simp [hu], by simp [hu]⟩, rfl, fun h n c =>
        .call rfl ?_ (h (orOccurs S n t.se (t.count + 1)) c)⟩
    simp [Output.step, takesAll, Output.stepEnd, hu, hq, Output.outputElement, orOccurs,
      occurrenceState]
  | false =>
    have hall := hall hu
    obtain ⟨hy, hnext⟩ := List.isChain_cons_cons.1 (hnext hu)
    refine ⟨{ t with count := t.count + 1 },
      ⟨rfl, rfl, hsize, by simp [hu], fun _ => by simp [hall]; omega, fun _ => hnext⟩, rfl,
      fun h n c => .call rfl ?_ (h (orOccurs S n t.se (t.count + 1)) c)⟩
    have hlt : t.count + 1 < t.all := by simp [hall]
    simp [Output.step, takesAll, Output.stepEnd, hu, hlt, Output.outputElement, orOccurs,
      occurrenceState, hy]

/-- The calls for the contents of each structure that conforms come first. -/
def CallsStruct (S : Schema) (m : Heap) (obj : Addr) (type depth : ℕ) : Prop :=
  ∀ {i : ℕ} {a : Addr} {s : List StackItem} {cs : List DriverCall}, Conforms S m depth i a →
    Roomy S m depth i a → s.length + depth = maxStack + 1 →
    (∀ f, RemainsIn S m obj type .outputEnd (i + (S.entries i).length) s a f cs) → ∀ f,
      RemainsIn S m obj type (outputAt S i) i s a f
        ((contents S m depth i a).flatMap (Visit.calls S) ++ cs)

/-- An occurrence up to the end of the element. -/
theorem calls_inside (k : ℕ) (cs : List DriverCall)
    (hcalls : CallsStruct S m obj type depth) (ht : t.se = i)
    (hx : (S.element i).simple = false → Conforms S m depth ((S.element i).index + 1) x ∧
      (S.element ((S.element i).index + 1)).n ≠ 0 ∧ Roomy S m depth ((S.element i).index + 1) x)
    (hdepth : (t :: s).length + depth = maxStack + 1) {se f : ℕ}
    (hse : (S.element i).simple = true → se = i)
    (hflag : (S.element i).simple = true → f = (S.element i).bit + k)
    (h : ∀ se' f', ((S.element i).simple = true → se' = i ∧ f' = f) →
      RemainsIn S m obj type .outputEnd se' (t :: s) x f' cs) :
    RemainsIn S m obj type (occurrenceState S i) se (t :: s) x f
      ((Visit.enter i x).calls S ++
        (insideVisits S m (contents S m depth) i k x).flatMap (Visit.calls S) ++ cs) := by
  unfold occurrenceState insideVisits
  cases hsimple : (S.element i).simple with
  | true =>
    obtain rfl := hse hsimple
    obtain rfl := hflag hsimple
    have hsimply : RemainsIn S m obj type .outputSimple se (t :: s) x ((S.element se).bit + k) _ :=
      calls_simple (h se _ fun _ => ⟨rfl, rfl⟩)
    simpa [Visit.calls, hsimple] using hsimply
  | false =>
    obtain ⟨hconforms, hn, hroomy⟩ := hx hsimple
    have hinner := hcalls hconforms hroomy hdepth
      (fun f' => h _ f' fun hsimple' => by simp [hsimple] at hsimple') f
    rw [show outputAt S ((S.element i).index + 1) = .outputElement from if_pos hn] at hinner
    simpa [Visit.calls, hsimple] using calls_complex ht se hinner

/-- The occurrences of an element from the one on that the stack is at. -/
theorem calls_occurrences (se f : ℕ) (hcalls : CallsStruct S m obj type depth)
    (hdepth : s.length + 1 + depth = maxStack + 1) (ht : AtOccurrence S i a t x xs)
    (hx : ∀ y ∈ x :: xs, (S.element i).simple = false →
      Conforms S m depth ((S.element i).index + 1) y ∧
      (S.element ((S.element i).index + 1)).n ≠ 0 ∧ Roomy S m depth ((S.element i).index + 1) y)
    (hmin : (S.element i).min ≤ t.count + 1 + xs.length)
    (hmax : (S.element i).unbounded = false → t.count + 1 + xs.length ≤ (S.element i).max)
    (hse : (S.element i).simple = true → se = i)
    (hflag : (S.element i).simple = true → f = (S.element i).bit + t.count)
    (h : RemainsAt S m obj type (i + 1) s a cs) :
    RemainsIn S m obj type (occurrenceState S i) se (t :: s) x f
      ((occurrencesVisits S m (contents S m depth) i t.count (x :: xs)).flatMap (Visit.calls S) ++
        cs) := by
  rw [occurrencesVisits_cons]
  induction xs generalizing t x se f with
  | nil =>
    have hinside := calls_inside t.count (.event .eeEvent i :: cs) hcalls ht.se
      (hx x List.mem_cons_self) hdepth hse hflag
      (fun se' f' _ => calls_last ht hmin hmax h se' f')
    simpa [occurrencesVisits, Visit.calls] using hinside
  | cons y xs ih =>
    obtain ⟨t', ht', hcount, hagain⟩ := calls_again m obj type s ht
    have hlength : t.count + 1 + (y :: xs).length = t'.count + 1 + xs.length := by
      rw [hcount, List.length_cons]
      omega
    rw [hlength] at hmin hmax
    have hinside := calls_inside t.count _ hcalls ht.se (hx x List.mem_cons_self) hdepth hse
      hflag (fun se' f' hsame => hagain (ih se' (f' + 1) ht'
        (fun z hz => hx z (List.mem_cons_of_mem x hz)) hmin hmax (fun hsimple => (hsame hsimple).1)
        (fun hsimple => by rw [(hsame hsimple).2, hflag hsimple, hcount, Nat.add_assoc])))
    simpa [occurrencesVisits_cons, hcount, Visit.calls] using hinside

/-- What the structure at `a` has of an entry. -/
theorem calls_entry (hcalls : CallsStruct S m obj type depth)
    (hcounted : S.Counted m a (S.element i))
    (hdepth : (S.element i).isAttribute = false →
      s.length ≠ maxStack ∧ s.length + 1 + depth = maxStack + 1)
    (hx : (S.element i).isAttribute = false → ∀ x ∈ S.occurrences m a (S.element i),
      (S.element i).simple = false → Conforms S m depth ((S.element i).index + 1) x ∧
      (S.element ((S.element i).index + 1)).n ≠ 0 ∧ Roomy S m depth ((S.element i).index + 1) x)
    (h : RemainsAt S m obj type (i + 1) s a cs) (f : ℕ) :
    RemainsIn S m obj type .outputElement i s a f
      ((entryVisits S m (contents S m depth) a i).flatMap (Visit.calls S) ++ cs) := by
  cases hattribute : (S.element i).isAttribute with
  | true =>
    by_cases hcount : m.outputCount a (S.element i) = 0
    · have hskip := calls_attribute_skip hattribute hcount (hcounted.min_zero hattribute hcount) h f
      simpa [entryVisits, hattribute, hcount] using hskip
    · have hvalue := calls_attribute hattribute hcount h f
      simpa [entryVisits, hattribute, hcount, Visit.calls] using hvalue
  | false =>
    obtain ⟨hroom, hdepth⟩ := hdepth hattribute
    have hx := hx hattribute
    have hleast := hcounted.least hattribute
    have hmost := hcounted.most hattribute
    cases hoccurs : S.occurrences m a (S.element i) with
    | nil =>
      rw [hoccurs, List.length_nil, Nat.le_zero] at hleast
      have hskip := calls_element_skip hattribute hroom hoccurs hleast h f
      simpa [entryVisits, hattribute, hoccurs, occurrencesVisits] using hskip
    | cons x xs =>
      rw [hoccurs] at hleast hmost hx
      obtain ⟨t, ht, hcount, hfirst⟩ := calls_element obj type hattribute hroom hoccurs
      have hlength : t.count + 1 + xs.length = (x :: xs).length := by
        rw [hcount, List.length_cons]
        omega
      have hall := hfirst (calls_occurrences i (S.element i).bit hcalls hdepth ht hx
        (by rw [hlength]; exact hleast) (by rw [hlength]; exact hmost) (fun _ => rfl)
        (fun _ => by rw [hcount]; rfl) h) f
      simpa [entryVisits, hattribute, hoccurs, hcount] using hall

/-- The entries from `i` on, up to the end of the structure. -/
theorem calls_entries (hcalls : CallsStruct S m obj type depth) (hk : (S.entries i).length = k)
    (hdepth : s.length + (depth + 1) = maxStack + 1)
    (hconforms : Conforms S m (depth + 1) i a) (hroomy : Roomy S m (depth + 1) i a)
    (h : ∀ f, RemainsIn S m obj type .outputEnd (i + k) s a f cs) (f : ℕ) :
    RemainsIn S m obj type (outputAt S i) i s a f
      ((entriesVisits S m (contents S m depth) a k i).flatMap (Visit.calls S) ++ cs) := by
  induction k generalizing i f with
  | zero =>
    have hn : (S.element i).n = 0 := S.entries_eq_nil.1 (List.length_eq_zero_iff.1 hk)
    rw [outputAt, if_neg (not_not_intro hn)]
    simpa [entriesVisits] using h f
  | succ k ih =>
    have hn : (S.element i).n ≠ 0 := fun h => by simp [S.entries_nil h] at hk
    have hlater : (S.entries (i + 1)).length = k := by
      rw [S.entries_cons hn, List.length_cons] at hk
      exact Nat.succ_inj.1 hk
    have hrange : i < i + (S.entries i).length := by omega
    obtain ⟨hcounted, hoccurs⟩ := hconforms i le_rfl hrange
    have hlevel : (S.element i).isAttribute = false →
        s.length ≠ maxStack ∧ s.length + 1 + depth = maxStack + 1 := by
      intro hattribute
      have hinner := (hroomy i le_rfl hrange hattribute).1
      omega
    have hrest : RemainsAt S m obj type (i + 1) s a _ := fun n c f => ih hlater
      (fun j hj hjk => hconforms j (by omega) (by omega))
      (fun j hj hjk => hroomy j (by omega) (by omega))
      (fun f => by rw [Nat.add_assoc, Nat.add_comm 1]; exact h f) f n c
    have hentry := calls_entry hcalls hcounted hlevel
      (fun hattribute x hx hcomplex => ⟨(hoccurs hattribute x hx).2 hcomplex,
        (hroomy i le_rfl hrange hattribute).2 x hx hcomplex⟩) hrest f
    rw [outputAt, if_pos hn]
    simpa [entriesVisits] using hentry

/-- The calls for each structure. -/
theorem callsStruct (S : Schema) (m : Heap) (obj : Addr) (type depth : ℕ) :
    CallsStruct S m obj type depth := by
  induction depth with
  | zero => exact fun hconforms => hconforms.elim
  | succ depth ih =>
    intro i a s cs hconforms hroomy hdepth h f
    exact calls_entries ih rfl hdepth hconforms hroomy h f

/-- **`output_doc` hands over the document of the object.** -/
theorem output_calls (hS : S.Generated) (htype : type < S.length)
    (hconforms : ConformsTo S m obj type) (hroomy : RoomyTo S m obj type) (n : ℕ) (c : ℤ) (f : ℕ) :
    Remains S m obj type ⟨.outputElement, type, [], obj, n, c, f, true, ()⟩
      (documentCalls S m obj type) := by
  obtain ⟨hcounted, hinner⟩ := hconforms
  have hend : RemainsAt S m obj type (type + 1) [] obj [] := by
    intro n c f
    have hlast : outputAt S (type + 1) = .outputEnd := by
      rw [outputAt, if_neg (not_not_intro (hS.globals (type + 1) htype))]
    exact .done hlast rfl
  have hentry := calls_entry (callsStruct S m obj type maxStack) hcounted
    (fun _ => ⟨by decide, by simp [Nat.add_comm]⟩)
    (fun _ x hx hcomplex => ⟨hinner x hx hcomplex, hroomy x hx hcomplex⟩) hend f n c
  rw [List.append_nil] at hentry
  exact hentry

end Calls
end SeClient
