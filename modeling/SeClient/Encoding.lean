import SeClient.Items
import Mathlib.Data.List.Range

/-!
# What the EXI output does for an entry

Each lemma is a piece of a run of `output_doc`: an attribute or element that is there or is
skipped, an occurrence that is entered or left.
-/

namespace SeClient
open Relation

/-! ## Entries and productions -/

section Entries
variable {S : Schema} {i c : ℕ}

theorem Schema.entries_nil (h : (S.element i).n = 0) : S.entries i = [] := by
  unfold Schema.entries
  cases hd : S.elements.drop i with
  | nil => rfl
  | cons se rest =>
    have he : S.element i = se := by
      have h0 : (S.elements.drop i)[0]? = S.elements[i + 0]? := List.getElem?_drop
      rw [hd] at h0
      simp only [List.getElem?_cons_zero, Nat.add_zero] at h0
      simp [Schema.element, List.getD_eq_getElem?_getD, ← h0]
    rw [List.takeWhile_cons_of_neg]
    simpa [← he] using h

theorem Schema.entries_cons (h : (S.element i).n ≠ 0) :
    S.entries i = S.element i :: S.entries (i + 1) := by
  unfold Schema.entries
  have hi : i < S.elements.length := by
    by_contra hi
    exact h (by simp [Schema.element, List.getD_eq_getElem?_getD,
      List.getElem?_eq_none (Nat.le_of_not_lt hi)])
  have he : S.element i = S.elements[i] := by simp [Schema.element, hi]
  rw [List.drop_eq_getElem_cons hi, ← he, List.takeWhile_cons_of_pos (by simpa using h)]

theorem Schema.entries_eq_nil : S.entries i = [] ↔ (S.element i).n = 0 := by
  constructor
  · intro h
    by_contra hn
    rw [S.entries_cons hn] at h
    exact List.cons_ne_nil _ _ h
  · exact S.entries_nil

/-- The entries of a type are those up to the next head. -/
theorem Schema.n_ne_zero {j : ℕ} (hi : i ≤ j) (hj : j < i + (S.entries i).length) :
    (S.element j).n ≠ 0 := by
  induction hk : (S.entries i).length generalizing i with
  | zero => omega
  | succ k ih =>
    have hn : (S.element i).n ≠ 0 := fun h => by simp [S.entries_nil h] at hk
    rcases Nat.eq_or_lt_of_le hi with rfl | hi
    · exact hn
    · have hi : i + 1 ≤ j := hi
      rw [S.entries_cons hn, List.length_cons] at hk hj
      exact ih hi (by omega) (by omega)

theorem productionsLoop_pos (first : Bool) (l : List SchemaElement) :
    0 < productionsLoop first l := by
  cases l with
  | nil => exact Nat.one_pos
  | cons se l =>
    unfold productionsLoop
    split <;> (try split) <;> omega

/-- There is a production for every entry that can be skipped. -/
theorem lt_productionsLoop {first : Bool} (hn : ∀ k < c, (S.element (i + k)).n ≠ 0)
    (h0 : c ≠ 0 → (first ∧ (S.element i).varies) ∨ (S.element i).min = 0)
    (hk : ∀ k < c, 0 < k → (S.element (i + k)).min = 0) :
    c < productionsLoop first (S.entries i) := by
  induction c generalizing i first with
  | zero => exact productionsLoop_pos _ _
  | succ c ih =>
    have hi := hn 0 (Nat.succ_pos c)
    rw [Nat.add_zero] at hi
    have hn' : ∀ k < c, (S.element (i + 1 + k)).n ≠ 0 := fun k hkc => by
      rw [Nat.add_assoc, Nat.add_comm 1]
      exact hn (k + 1) (by omega)
    have hk' : ∀ k < c, (S.element (i + 1 + k)).min = 0 := fun k hkc => by
      rw [Nat.add_assoc, Nat.add_comm 1]
      exact hk (k + 1) (by omega) (Nat.succ_pos k)
    have hrest : ∀ first, c < productionsLoop first (S.entries (i + 1)) := fun first =>
      ih hn' (fun hc => Or.inr (by simpa using hk' 0 (by omega))) fun k hkc _ => hk' k hkc
    rw [S.entries_cons hi, productionsLoop]
    split
    · exact Nat.succ_lt_succ (hrest false)
    · rename_i hv
      have hmin : (S.element i).min = 0 := by
        rcases h0 (Nat.succ_ne_zero c) with h | h
        · exact absurd (by simpa using h) hv
        · exact h
      rw [if_neg (by simp [hmin])]
      exact Nat.succ_lt_succ (hrest first)

/-- A sequence of entries that can be skipped, of which the first may also have occurred often
enough, has a production for each and one for what comes next. -/
theorem Schema.Generated.skipped_lt (hS : S.Generated) (hn : ∀ k < c, (S.element (i + k)).n ≠ 0)
    (h0 : (S.element i).varies ∨ (S.element i).min = 0)
    (hk : ∀ k < c, 0 < k → (S.element (i + k)).min = 0) (hc : c ≠ 0) : c < (S.element i).n := by
  have hi : (S.element i).n ≠ 0 := by simpa using hn 0 (by omega)
  rw [hS.productions i hi]
  exact lt_productionsLoop hn (fun _ => by simpa using h0) hk

/-- An attribute that must occur is the only production. -/
theorem Schema.Generated.attribute_n (hS : S.Generated) (hi : (S.element i).n ≠ 0)
    (ha : (S.element i).isAttribute) (hm : (S.element i).min ≠ 0) : (S.element i).n = 1 := by
  obtain ⟨h1, h2, h3⟩ := hS.attributes i ha
  have hv : (S.element i).varies = false := by simp [SchemaElement.varies, h2, h3]; omega
  rw [hS.productions i hi, SeClient.productions, S.entries_cons hi, productionsLoop]
  simp [hv, hm]

end Entries

/-! ## Pieces of a run -/

section Encode
variable {S : Schema} {m : Heap} {obj : Addr} {type : ℕ}
variable {i c f n : ℕ} {a x : Addr} {s : List StackItem} {t : StackItem} {b : Bool}
  {out : List Item}

/-- The state at the entry `i`. -/
def outputAt (S : Schema) (i : ℕ) : OutputState :=
  if (S.element i).n ≠ 0 then .outputElement else .outputEnd

/-- The number of event codes where those of the entry `i` come into question. -/
def orProductions (S : Schema) (n i : ℕ) : ℕ := if n = 0 then (S.element i).n else n

/-- The number of event codes where an element occurs. -/
def orOccurs (S : Schema) (n i count : ℕ) : ℕ :=
  if n = 0 then (if count ≥ (S.element i).min then (S.element i).n else 1) else n

/-- The width of the code that ends an element. -/
def endWidth (n : ℕ) : ℕ := if n = 0 then 1 else bitCount n

theorem Schema.Counted.min_zero (h : S.Counted m a (S.element i)) (ha : (S.element i).isAttribute)
    (hc : m.outputCount a (S.element i) = 0) : (S.element i).min = 0 := by
  by_contra hm
  exact h.required ha hm hc

theorem encode_attribute (ha : (S.element i).isAttribute)
    (hc : m.outputCount a (S.element i) ≠ 0) :
    ReflTransGen (OutputGoes S m obj type) ⟨.outputElement, i, s, a, n, c, f, b, out⟩
      ⟨outputAt S (i + 1), i + 1, s, a, 0, 0, (S.element i).bit, b,
        out ++ [.event c (bitCount (orProductions S n i)), .value i
          (m.load (S.element i).xsType (a.plus (S.element i).offset) (S.element i).bit)]⟩ := by
  refine .head (b := ⟨.outputAttribute, i, s, a, orProductions S n i, c, (S.element i).bit, b, out⟩)
    ?_ (.head (b := ⟨.outputAttrValue, i, s, a, 0, 0, (S.element i).bit, b,
      out ++ [.event c (bitCount (orProductions S n i))]⟩) ?_ (.single ?_))
  · simp [OutputGoes, Output.step, Output.stepElement, ha, hc, orProductions]
  · simp [OutputGoes, Output.step, exiOutput, exiOutputEvent, itemSink]
  · simp [OutputGoes, Output.step, exiOutput, exiOutputValue, itemSink, Output.outputNext, outputAt]

/-- An attribute or element that does not occur adds one to the event code. -/
theorem encode_attribute_skip (ha : (S.element i).isAttribute)
    (hc : m.outputCount a (S.element i) = 0) (hm : (S.element i).min = 0) :
    ReflTransGen (OutputGoes S m obj type) ⟨.outputElement, i, s, a, n, c, f, b, out⟩
      ⟨outputAt S (i + 1), i + 1, s, a, orProductions S n i, (c + 1 : ℕ), (S.element i).bit, b,
        out⟩ := by
  refine .single ?_
  simp [OutputGoes, Output.step, Output.stepElement, ha, hc, hm, Output.outputSkip,
    Output.outputNext, orProductions, outputAt]

theorem encode_element_skip (ha : (S.element i).isAttribute = false) (hs : s.length ≠ maxStack)
    (hc : S.occurrences m a (S.element i) = []) (hm : (S.element i).min = 0) :
    ReflTransGen (OutputGoes S m obj type) ⟨.outputElement, i, s, a, n, c, f, b, out⟩
      ⟨outputAt S (i + 1), i + 1, s, a, orProductions S n i, (c + 1 : ℕ), (S.element i).bit, b,
        out⟩ := by
  refine .single ?_
  unfold Schema.occurrences at hc
  cases hu : (S.element i).unbounded with
  | true =>
    simp only [hu, if_true] at hc
    simp [OutputGoes, Output.step, Output.stepElement, ha, hs, hu, hc, Output.elementSkip, hm,
      Output.elementNext, Output.outputSkip, Output.outputNext, orProductions, outputAt]
  | false =>
    simp only [hu, Bool.false_eq_true, if_false, List.map_eq_nil_iff, List.range_eq_nil] at hc
    simp [OutputGoes, Output.step, Output.stepElement, ha, hs, hu, hc, Output.elementSkip, hm,
      Output.elementNext, Output.outputSkip, Output.outputNext, orProductions, outputAt]

/-- The entry `t` on the stack is at the occurrence `x` of the element `i` of the structure at
`a`, with `xs` to come. -/
structure AtOccurrence (S : Schema) (i : ℕ) (a : Addr) (t : StackItem) (x : Addr)
    (xs : List Addr) : Prop where
  se : t.se = i
  base : t.base = a
  size : t.size = S.objectElementSize (S.element i)
  queue : (S.element i).unbounded = true → t.queue = x :: xs
  all : (S.element i).unbounded = false → t.all = t.count + 1 + xs.length
  next : (S.element i).unbounded = false → List.IsChain (fun x y => y = x.plus t.size) (x :: xs)

def occurrenceState (S : Schema) (i : ℕ) : OutputState :=
  if (S.element i).simple then .outputSimple else .outputComplex

theorem isChain_fields (x : Addr) (size k : ℕ) :
    List.IsChain (fun x y : Addr => y = x.plus size)
      ((List.range k).map fun j => x.plus (j * size)) := by
  rw [List.isChain_map, List.isChain_range]
  intro j _
  simp [Addr.plus, Nat.succ_mul, Nat.add_assoc]

theorem encode_element {xs : List Addr} (ha : (S.element i).isAttribute = false)
    (hs : s.length ≠ maxStack) (hc : S.occurrences m a (S.element i) = x :: xs) :
    ∃ t, AtOccurrence S i a t x xs ∧ t.count = 0 ∧
      ReflTransGen (OutputGoes S m obj type) ⟨.outputElement, i, s, a, n, c, f, b, out⟩
        ⟨occurrenceState S i, i, t :: s, x, orOccurs S n i 0, c, (S.element i).bit, b, out⟩ := by
  unfold Schema.occurrences at hc
  cases hu : (S.element i).unbounded with
  | true =>
    simp only [hu, if_true] at hc
    refine ⟨{ se := i, base := a, size := S.objectElementSize (S.element i), queue := x :: xs },
      ⟨rfl, rfl, rfl, fun _ => rfl, by simp [hu], by simp [hu]⟩, rfl, .single ?_⟩
    simp [OutputGoes, Output.step, Output.stepElement, ha, hs, hu, hc, Output.outputElement,
      orOccurs, occurrenceState]
  | false =>
    simp only [hu, Bool.false_eq_true, if_false] at hc
    have hall : m.outputCount a (S.element i) = 1 + xs.length := by
      simpa [Nat.add_comm] using congrArg List.length hc
    have hx : x = a.plus (S.element i).offset := by
      rw [hall, Nat.add_comm, List.range_succ_eq_map] at hc
      simpa [Addr.plus] using (List.cons.inj hc).1.symm
    refine ⟨{ se := i, base := a, size := S.objectElementSize (S.element i)
              all := m.outputCount a (S.element i) },
      ⟨rfl, rfl, rfl, by simp [hu], fun _ => by simpa using hall, fun _ => ?_⟩, rfl, .single ?_⟩
    · rw [← hc]
      exact isChain_fields _ _ _
    · simp [OutputGoes, Output.step, Output.stepElement, ha, hs, hu, hall, Output.outputElement,
        orOccurs, occurrenceState, hx]

theorem encode_simple (hp : (S.element i).simple) (hx : m.Spelled (S.element i) x) :
    ReflTransGen (OutputGoes S m obj type) ⟨.outputSimple, i, s, x, n, c, f, b, out⟩
      ⟨.outputEnd, i, s, x, 0, 0, f, b, out ++ [.event c (bitCount n), .event 0 1,
        .value i (m.load (S.element i).xsType x f)]⟩ := by
  have hx : ¬(((S.element i).xsType = .string ∨ (S.element i).xsType = .anyURI) ∧
      m.emptyString x = true) := fun h => by simpa [hx hp h.1] using h.2
  refine .head (b := ⟨.outputValue, i, s, x, 0, 0, f, b, out ++ [.event c (bitCount n)]⟩)
    ?_ (.single ?_)
  · simp [OutputGoes, Output.step, exiOutput, exiOutputEvent, itemSink]
  · simp only [OutputGoes, Output.step, exiOutput, exiOutputSimple, if_neg hx, exiOutputValue,
      itemSink, Option.map_some, List.append_assoc, List.cons_append, List.nil_append,
      Bool.toNat_false]

theorem encode_complex (ht : t.se = i) {se : ℕ} :
    ReflTransGen (OutputGoes S m obj type) ⟨.outputComplex, se, t :: s, x, n, c, f, b, out⟩
      ⟨.outputElement, (S.element i).index + 1, t :: s, x, 0, 0, f, b,
        out ++ [.event c (bitCount n)]⟩ := by
  refine .single ?_
  simp [OutputGoes, Output.step, exiOutput, exiOutputEvent, itemSink, ht]

/-- The number of event codes and the code after the last of `count` occurrences. -/
def afterSequence (S : Schema) (i count : ℕ) : ℕ × ℕ :=
  if (S.element i).unbounded ∨ count < (S.element i).max then ((S.element i).n, 1) else (0, 0)

theorem encode_last (ht : AtOccurrence S i a t x [])
    (hmin : (S.element i).min ≤ t.count + 1)
    (hmax : (S.element i).unbounded = false → t.count + 1 ≤ (S.element i).max) {se : ℕ} :
    ReflTransGen (OutputGoes S m obj type) ⟨.outputEnd, se, t :: s, x, n, c, f, b, out⟩
      ⟨outputAt S (i + 1), i + 1, s, a, (afterSequence S i (t.count + 1)).1,
        (afterSequence S i (t.count + 1)).2, f, b, out ++ [.event c (endWidth n)]⟩ := by
  obtain ⟨rfl, rfl, -, hq, hall, -⟩ := ht
  refine .single ?_
  cases hu : (S.element t.se).unbounded with
  | true =>
    simp [OutputGoes, Output.step, exiOutput, exiOutputEvent, itemSink, Output.stepEnd, hu, hq hu,
      Output.elementSkip, Output.elementNext, Output.outputSkip, Output.outputNext,
      afterSequence, outputAt, endWidth, Nat.not_lt.2 hmin]
  | false =>
    have hall := hall hu
    simp only [List.length_nil, Nat.add_zero] at hall
    rcases Nat.eq_or_lt_of_le (hmax hu) with hm | hm
    · simp [OutputGoes, Output.step, exiOutput, exiOutputEvent, itemSink, Output.stepEnd, hu, hall,
        hm, Output.elementNext, Output.outputSkip, Output.outputNext, afterSequence, outputAt,
        endWidth]
    · simp [OutputGoes, Output.step, exiOutput, exiOutputEvent, itemSink, Output.stepEnd, hu, hall,
        hm, hm.ne, Output.elementSkip, Nat.not_lt.2 hmin, Output.elementNext, Output.outputSkip,
        Output.outputNext, afterSequence, outputAt, endWidth]

theorem encode_again {y : Addr} {xs : List Addr} (ht : AtOccurrence S i a t x (y :: xs)) {se : ℕ} :
    ∃ t', AtOccurrence S i a t' y xs ∧ t'.count = t.count + 1 ∧
      ReflTransGen (OutputGoes S m obj type) ⟨.outputEnd, se, t :: s, x, n, c, f, b, out⟩
        ⟨occurrenceState S i, se, t' :: s, y, orOccurs S 0 i (t.count + 1), 0, f + 1, b,
          out ++ [.event c (endWidth n)]⟩ := by
  obtain ⟨rfl, rfl, hsize, hq, hall, hnext⟩ := ht
  cases hu : (S.element t.se).unbounded with
  | true =>
    have hq := hq hu
    refine ⟨{ t with count := t.count + 1, queue := y :: xs },
      ⟨rfl, rfl, hsize, fun _ => rfl, by simp [hu], by simp [hu]⟩, rfl, .single ?_⟩
    simp [OutputGoes, Output.step, exiOutput, exiOutputEvent, itemSink, Output.stepEnd, hu, hq,
      Output.outputElement, orOccurs, occurrenceState, endWidth]
  | false =>
    have hall := hall hu
    obtain ⟨hy, hnext⟩ := List.isChain_cons_cons.1 (hnext hu)
    refine ⟨{ t with count := t.count + 1 },
      ⟨rfl, rfl, hsize, by simp [hu], fun _ => by simp [hall]; omega, fun _ => hnext⟩, rfl,
      .single ?_⟩
    have hlt : t.count + 1 < t.all := by simp [hall]
    simp [OutputGoes, Output.step, exiOutput, exiOutputEvent, itemSink, Output.stepEnd, hu, hlt,
      Output.outputElement, orOccurs, occurrenceState, endWidth, hy]

end Encode
end SeClient
