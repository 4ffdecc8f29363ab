import SeClient.EventCodes
import SeClient.FlagIsolation
import SeClient.ParserSteps

/-!
# Reading a row of event codes

`parse_doc` reads a code when it needs one, and a code that passes over entries is used up before
the next one is read.  A parser that waits for the next event at some entry may so have stopped at
an earlier one.
-/

namespace SeClient
open Relation

/-- The parser of a row of event codes. -/
abbrev RowParser := Parser (ExiParser ItemReader)

/-- A parser of an object of the type `type`: its state, its entry, the entries and counts on the
stack, whether it needs a token, and the rest of the row. -/
structure Parser.At (p : RowParser) (type : ℕ) (state : ParserState) (se : ℕ)
    (stack : List (ℕ × ℕ)) (need : Bool) (items : List Item) : Prop where
  type : p.type = type
  state : p.state = state
  se : p.se = se
  stack : p.stack.map (fun t => (t.se, t.count)) = stack
  need : p.input.needToken = need
  items : p.input.source = ⟨items, false⟩

theorem Parser.At.eq {p : RowParser} {type : ℕ} {state : ParserState} {se : ℕ}
    {stack : List (ℕ × ℕ)} {need : Bool} {items : List Item}
    (h : p.At type state se stack need items) :
    ∃ s obj base flag heap, s.map (fun t => (t.se, t.count)) = stack ∧
      p = ⟨⟨state, type, se, p.input.token, need, ⟨items, false⟩⟩, s, obj, base, flag, heap⟩ := by
  obtain ⟨⟨state, type, se, token, need, source⟩, s, obj, base, flag, heap⟩ := p
  obtain ⟨rfl, rfl, rfl, rfl, rfl, rfl⟩ := h
  exact ⟨s, obj, base, flag, heap, rfl, rfl⟩

/-- What the driver has of the parser. -/
theorem Parser.At.front {p : RowParser} {type : ℕ} {state : ParserState} {se : ℕ}
    {stack : List (ℕ × ℕ)} {need : Bool} {items : List Item}
    (h : p.At type state se stack need items) :
    p.toFront = ⟨state, type, se, p.input.token, need, ⟨items, false⟩⟩ := by
  obtain ⟨s, obj, base, flag, heap, -, hp⟩ := h.eq
  rw [hp]

theorem Parser.at_of_front {q : RowParser} {type token : ℕ} {state : ParserState} {se : ℕ}
    {stack : List (ℕ × ℕ)} {need : Bool} {items : List Item}
    (hfront : q.toFront = ⟨state, type, se, token, need, ⟨items, false⟩⟩) (hpath : q.path = stack) :
    q.At type state se stack need items := by
  constructor
  · rw [hfront]
  · rw [hfront]
  · rw [hfront]
  · exact hpath
  · rw [hfront]
  · rw [hfront]

/-- The parser of a row of event codes gets from `p` to `q`. -/
abbrev Leads (S : Schema) (p : RowParser) (shapes : List Visit) (q : RowParser) : Prop :=
  Parser.Leads S (exiParser S itemSource) p shapes q

/-! ## Waiting for an event -/

/-- The parser waits for the event that is next at an entry, where `c` is pending: it needs a code
there, or it has yet to read the code of an entry before, from which on all may be passed over. -/
inductive Awaits (S : Schema) (type : ℕ) (p : RowParser) (stack : List (ℕ × ℕ))
    (items : List Item) : PendingCode → ℕ → Prop
  | fresh {i : ℕ} (h : p.At type .parseNext i stack true items) : Awaits S type p stack items {} i
  | next {j k : ℕ} (h : p.At type .parseNext j stack true items) (hk : k ≠ 0)
      (skipped : ∀ l < k, (S.element (j + l)).n ≠ 0 ∧ (S.element (j + l)).min = 0) :
      Awaits S type p stack items ⟨(S.element j).n, k⟩ (j + k)
  | sequence {j count se k : ℕ} (h : p.At type .parseSequence se ((j, count) :: stack) true items)
      (hk : k ≠ 0) (hmin : (S.element j).min ≤ count)
      (hvaries : (S.element j).varies = true ∨ (S.element j).min = 0)
      (skipped : ∀ l < k, (S.element (j + l)).n ≠ 0 ∧ (0 < l → (S.element (j + l)).min = 0)) :
      Awaits S type p stack items ⟨(S.element j).n, k⟩ (j + k)

section Steps
variable {S : Schema} {p : RowParser} {stack : List (ℕ × ℕ)} {items : List Item} {c : PendingCode}
  {i j k se count code width type : ℕ}

/-- A further entry may be passed over. -/
theorem Awaits.skip (h : Awaits S type p stack items c i) (hn : (S.element i).n ≠ 0)
    (hmin : (S.element i).min = 0) :
    Awaits S type p stack items ⟨orProductions S c.n i, c.code + 1⟩ (i + 1) := by
  cases h with
  | fresh h =>
    refine .next h (Nat.succ_ne_zero 0) fun l hl => ?_
    obtain rfl : l = 0 := Nat.lt_one_iff.1 hl
    exact ⟨hn, hmin⟩
  | @next j k h hk skipped =>
    have hj : (S.element j).n ≠ 0 := (skipped 0 (Nat.pos_of_ne_zero hk)).1
    simp only [orProductions, hj, if_false]
    refine .next h (Nat.succ_ne_zero k) fun l hl => ?_
    rcases Nat.lt_succ_iff_lt_or_eq.1 hl with hl | rfl
    · exact skipped l hl
    · exact ⟨hn, hmin⟩
  | @sequence j count se k h hk hleast hvaries skipped =>
    have hj : (S.element j).n ≠ 0 := (skipped 0 (Nat.pos_of_ne_zero hk)).1
    simp only [orProductions, hj, if_false]
    refine .sequence h (Nat.succ_ne_zero k) hleast hvaries fun l hl => ?_
    rcases Nat.lt_succ_iff_lt_or_eq.1 hl with hl | rfl
    · exact skipped l hl
    · exact ⟨hn, fun _ => hmin⟩

/-- The state behind a token. -/
def tokenState (S : Schema) (i : ℕ) : ParserState :=
  if (S.element i).n ≠ 0 then .parseElement else .parseEnd

/-- The number of codes that `exi_parse_next` reads one of. -/
def nextCodes (S : Schema) (j : ℕ) : ℕ := if (S.element j).min = 0 then (S.element j).n else 1

theorem exiEvent_event {n token : ℕ} {state : ParserState} {b : Bool} (hk : k < n) :
    exiEvent itemSource n
        ⟨state, type, se, token, b, ⟨.event k (bitCount n) :: items, false⟩⟩ =
      (true, ⟨state, type, se, k, b, ⟨items, false⟩⟩) := by
  simp [exiEvent, itemSource, ItemReader.bits, Nat.not_le.2 hk]

/-- A code is read at the entry `j`. -/
theorem read_next
    (h : p.At type .parseNext j stack true (.event k (bitCount (nextCodes S j)) :: items))
    (hn : (S.element j).n ≠ 0) (hk : k < nextCodes S j) :
    ∃ q, q.At type (tokenState S (j + k)) (j + k) stack ((S.element (j + k)).n ≠ 0) items ∧
      Leads S p [] q := by
  have hnext : (exiParser S itemSource).parseNext p.stack p.toFront =
      (true, ⟨tokenState S (j + k), type, j + k, k, (S.element (j + k)).n ≠ 0,
        ⟨items, false⟩⟩) := by
    rw [h.front]
    rw [nextCodes] at hk ⊢
    simp [exiParser, exiParseNext, exiEvent_event hk, hn, takeToken, tokenState]
  obtain ⟨q, hfront, hpath, hleads⟩ := Parser.leads_next (S := S) h.state hnext
  exact ⟨q, Parser.at_of_front hfront (hpath.trans h.stack), hleads⟩

/-- A parser that has a token takes it. -/
theorem read_token (h : p.At type .parseNext j stack false items) (htoken : p.input.token = k)
    (hn : (S.element j).n ≠ 0) :
    ∃ q, q.At type (tokenState S (j + k)) (j + k) stack ((S.element (j + k)).n ≠ 0) items ∧
      Leads S p [] q := by
  have hnext : (exiParser S itemSource).parseNext p.stack p.toFront =
      (true, ⟨tokenState S (j + k), type, j + k, k, (S.element (j + k)).n ≠ 0,
        ⟨items, false⟩⟩) := by
    rw [h.front, htoken]
    simp [exiParser, exiParseNext, hn, takeToken, tokenState]
  obtain ⟨q, hfront, hpath, hleads⟩ := Parser.leads_next (S := S) h.state hnext
  exact ⟨q, Parser.at_of_front hfront (hpath.trans h.stack), hleads⟩

/-- Behind the last entry there is no token. -/
theorem read_past {b : Bool} (h : p.At type .parseNext j stack b items) (hn : (S.element j).n = 0) :
    ∃ q, q.At type .parseEnd j stack b items ∧ Leads S p [] q := by
  have hnext : (exiParser S itemSource).parseNext p.stack p.toFront =
      (true, ⟨.parseEnd, type, j, p.input.token, b, ⟨items, false⟩⟩) := by
    rw [h.front]
    simp [exiParser, exiParseNext, hn]
  obtain ⟨q, hfront, hpath, hleads⟩ := Parser.leads_next (S := S) h.state hnext
  exact ⟨q, Parser.at_of_front hfront (hpath.trans h.stack), hleads⟩

/-- The code of an occurrence in a sequence, or of what comes after it. -/
def sequenceCodes (S : Schema) (j count : ℕ) : ℕ :=
  if count ≥ (S.element j).min then (S.element j).n else 1

/-- A sequence that has as many occurrences as there can be. -/
theorem read_sequence_full {b : Bool}
    (h : p.At type .sequenceEnd se ((j, count) :: stack) b items) :
    ∃ q, q.At type .parseNext (j + 1) stack b items ∧ q.input.token = p.input.token ∧
      Leads S p [] q := by
  obtain ⟨q, hfront, hpath, hleads⟩ := Parser.leads_behind (S := S)
    (d := exiParser S itemSource) h.state h.stack
  rw [h.front] at hfront
  exact ⟨q, Parser.at_of_front hfront hpath, by rw [hfront], hleads⟩

/-- A code that ends the sequence is kept for the entry behind it. -/
theorem read_sequence_end
    (h : p.At type .parseSequence se ((j, count) :: stack) true
      (.event (k + 1) (bitCount (sequenceCodes S j count)) :: items))
    (hk : k + 1 < sequenceCodes S j count) :
    ∃ q, q.At type .parseNext (j + 1) stack false items ∧ q.input.token = k ∧ Leads S p [] q := by
  have hends : ∀ t : StackItem, t.se = j → t.count = count →
      (exiParser S itemSource).parseSequence t p.toFront =
        (false, ⟨.sequenceEnd, type, se, k, false, ⟨items, false⟩⟩) := by
    rintro t rfl rfl
    rw [h.front]
    rw [sequenceCodes] at hk ⊢
    simp [exiParser, exiParseSequence, exiEvent_event hk]
  obtain ⟨q, hfront, hpath, hsequence⟩ := Parser.leads_sequence_end h.state h.stack hends rfl
  obtain ⟨r, hr, htoken, hbehind⟩ := read_sequence_full (Parser.at_of_front hfront hpath)
  exact ⟨r, hr, by rw [htoken, hfront], hsequence.trans hbehind⟩

/-- An end that needs a code. -/
theorem read_end (h : p.At type .parseEnd se ((j, count) :: stack) true (.event 0 1 :: items)) :
    ∃ q, q.At type (afterState S j (count + 1)) se ((j, count + 1) :: stack) true items ∧
      Leads S p [.leave j] q := by
  have hend : (exiParser S itemSource).parseEnd j p.toFront =
      (true, ⟨.parseEnd, type, se, p.input.token, true, ⟨items, false⟩⟩) := by
    rw [h.front]
    simp [exiParser, exiParseEnd, itemSource, ItemReader.bits]
  obtain ⟨q, hfront, hpath, hleads⟩ := Parser.leads_end h.state h.stack hend
  exact ⟨q, Parser.at_of_front hfront hpath, hleads⟩

/-- An end that a token has led to. -/
theorem read_ended (h : p.At type .parseEnd se ((j, count) :: stack) false items) :
    ∃ q, q.At type (afterState S j (count + 1)) se ((j, count + 1) :: stack) true items ∧
      Leads S p [.leave j] q := by
  have hend : (exiParser S itemSource).parseEnd j p.toFront =
      (true, ⟨.parseEnd, type, se, p.input.token, true, ⟨items, false⟩⟩) := by
    rw [h.front]
    simp [exiParser, exiParseEnd]
  obtain ⟨q, hfront, hpath, hleads⟩ := Parser.leads_end h.state h.stack hend
  exact ⟨q, Parser.at_of_front hfront hpath, hleads⟩

/-- The value of an attribute. -/
theorem read_attribute {w : Stored}
    (h : p.At type .parseElement i stack true (.value i w :: items))
    (hattribute : (S.element i).isAttribute = true) :
    ∃ q, q.At type .parseNext (i + 1) stack true items ∧ Leads S p [.attribute i ⟨0, 0⟩ w] q := by
  obtain ⟨q, hfront, hpath, henter⟩ := Parser.leads_attribute (d := exiParser S itemSource) h.state
    (by rw [h.se]; exact hattribute)
  rw [h.front] at hfront
  have hvalue : (exiParser S itemSource).parseAttrValue q.toFront =
      (true, w, ⟨.parseAttribute, type, i, p.input.token, true, ⟨items, false⟩⟩) := by
    rw [hfront]
    simp [exiParser, exiParseValue, itemSource, ItemReader.value, ExiRead.front]
  obtain ⟨r, hfront', hpath', hreads⟩ :=
    Parser.leads_attribute_value (S := S) (congrArg Front.state hfront) hvalue
  have hse : q.se = i := congrArg Front.se hfront
  rw [hse] at hreads
  exact ⟨r, Parser.at_of_front hfront' (hpath'.trans (hpath.trans h.stack)), henter.trans hreads⟩

/-- The first occurrence of an element. -/
theorem read_element (h : p.At type .parseElement i stack true items)
    (hattribute : (S.element i).isAttribute = false) (hroom : stack.length ≠ maxStack) :
    ∃ q, q.At type (insideState S i) (insideEntry S i i) ((i, 0) :: stack) true items ∧
      Leads S p [.enter i ⟨0, 0⟩] q := by
  obtain rfl := h.se
  obtain ⟨q, hfront, hpath, hleads⟩ := Parser.leads_element (d := exiParser S itemSource) h.state
    hattribute (by rw [Parser.path, h.stack]; exact hroom)
  rw [h.front] at hfront
  rw [Parser.path, Parser.path, h.stack] at hpath
  exact ⟨q, Parser.at_of_front hfront hpath, hleads⟩

/-- A value of simple type. -/
theorem read_value {w : Stored}
    (h : p.At type .parseValue i stack true (.event 0 1 :: .value i w :: items)) :
    ∃ q, q.At type .parseEnd i stack true items ∧ Leads S p [.text i ⟨0, 0⟩ w] q := by
  have hvalue : (exiParser S itemSource).parseValue p.toFront =
      (true, w, ⟨.parseValue, type, i, p.input.token, true, ⟨items, false⟩⟩) := by
    rw [h.front]
    simp [exiParser, exiParseSimple, itemSource, ItemReader.bits, ItemReader.value, ExiRead.front]
  obtain ⟨q, hfront, hpath, hleads⟩ := Parser.leads_value (S := S) h.state hvalue
  rw [h.se] at hleads
  exact ⟨q, Parser.at_of_front hfront (hpath.trans h.stack), hleads⟩

/-- A further occurrence of an element. -/
theorem read_again
    (h : p.At type .parseSequence se ((j, count) :: stack) true
      (.event 0 (bitCount (sequenceCodes S j count)) :: items))
    (hcodes : 0 < sequenceCodes S j count)
    (hmore : (S.element j).unbounded ∨ count < (S.element j).max) :
    ∃ q, q.At type (insideState S j) (insideEntry S j se) ((j, count) :: stack) true items ∧
      Leads S p [.enter j ⟨0, 0⟩] q := by
  have hagain : ∀ t : StackItem, t.se = j → t.count = count →
      (exiParser S itemSource).parseSequence t p.toFront =
        (true, ⟨.parseSequence, type, se, 0, true, ⟨items, false⟩⟩) := by
    rintro t rfl rfl
    rw [h.front]
    rw [sequenceCodes] at hcodes ⊢
    simp [exiParser, exiParseSequence, exiEvent_event hcodes]
  obtain ⟨q, hfront, hpath, hleads⟩ := Parser.leads_again h.state h.stack hagain hmore
  exact ⟨q, Parser.at_of_front hfront hpath, hleads⟩

end Steps

/-! ## From what is pending to the next event -/

section Awaits
variable {S : Schema} {p : RowParser} {stack : List (ℕ × ℕ)} {items : List Item} {c : PendingCode}
  {i j k se count code width type : ℕ}

/-- Where no code is known, the parser needs one. -/
theorem Awaits.fresh_of (h : Awaits S type p stack items c i) (hc : c.n = 0) :
    p.At type .parseNext i stack true items := by
  cases h with
  | fresh h => exact h
  | next h hk skipped => exact absurd hc (skipped 0 (Nat.pos_of_ne_zero hk)).1
  | sequence h hk hleast hvaries skipped =>
    exact absurd hc (skipped 0 (Nat.pos_of_ne_zero hk)).1

theorem Awaits.code_zero (h : Awaits S type p stack items c i) (hc : c.n = 0) : c.code = 0 := by
  cases h with
  | fresh h => rfl
  | next h hk skipped => exact absurd hc (skipped 0 (Nat.pos_of_ne_zero hk)).1
  | sequence h hk hleast hvaries skipped =>
    exact absurd hc (skipped 0 (Nat.pos_of_ne_zero hk)).1

/-- A code that passes over entries leads to the entry behind them. -/
theorem Awaits.take (hS : S.Generated) (hc : c.n ≠ 0)
    (h : Awaits S type p stack (.event c.code (bitCount c.n) :: items) c i) :
    ∃ q, q.At type (tokenState S i) i stack ((S.element i).n ≠ 0) items ∧ Leads S p [] q := by
  cases h with
  | fresh h => exact absurd rfl hc
  | @next j k h hk skipped =>
    have hfirst := skipped 0 (Nat.pos_of_ne_zero hk)
    have hcodes : nextCodes S j = (S.element j).n := if_pos hfirst.2
    have hlt : k < (S.element j).n :=
      hS.skipped_lt (fun l hl => (skipped l hl).1) (Or.inr hfirst.2)
        (fun l hl _ => (skipped l hl).2) hk
    exact read_next (by rw [hcodes]; exact h) hfirst.1 (by rw [hcodes]; exact hlt)
  | @sequence j count se k h hk hleast hvaries skipped =>
    have hcodes : sequenceCodes S j count = (S.element j).n := if_pos hleast
    have hlt : k < (S.element j).n :=
      hS.skipped_lt (fun l hl => (skipped l hl).1) hvaries (fun l hl => (skipped l hl).2) hk
    obtain ⟨k, rfl⟩ := Nat.exists_eq_succ_of_ne_zero hk
    obtain ⟨q, hq, htoken, hends⟩ := read_sequence_end (by rw [hcodes]; exact h)
      (by rw [hcodes]; exact hlt)
    have hentry : j + 1 + k = j + k.succ := by omega
    by_cases hn : (S.element (j + 1)).n = 0
    · -- Behind the last entry of the type there is nothing to pass over.
      obtain rfl : k = 0 := by
        by_contra hk
        exact (skipped 1 (by omega)).1 hn
      obtain ⟨r, hr, hpast⟩ := read_past hq hn
      refine ⟨r, ?_, hends.trans hpast⟩
      simpa [tokenState, hn] using hr
    · obtain ⟨r, hr, htakes⟩ := read_token hq htoken hn
      rw [hentry] at hr
      exact ⟨r, hr, hends.trans htakes⟩

/-- The code of an entry that occurs. -/
theorem Awaits.choose (hS : S.Generated) (hn : (S.element i).n ≠ 0)
    (hwidth : width = if c.n = 0 then nextCodes S i else c.n)
    (h : Awaits S type p stack (.event c.code (bitCount width) :: items) c i) :
    ∃ q, q.At type .parseElement i stack true items ∧ Leads S p [] q := by
  have hstate : tokenState S i = .parseElement := if_pos hn
  by_cases hc : c.n = 0
  · rw [if_pos hc] at hwidth
    subst hwidth
    have hfresh := h.fresh_of hc
    rw [h.code_zero hc] at hfresh
    have hpos : 0 < nextCodes S i := by
      unfold nextCodes
      split <;> omega
    obtain ⟨q, hq, hleads⟩ := read_next hfresh hn hpos
    exact ⟨q, by simpa [hstate, hn] using hq, hleads⟩
  · rw [if_neg hc] at hwidth
    subst hwidth
    obtain ⟨q, hq, hleads⟩ := h.take hS hc
    exact ⟨q, by simpa [hstate, hn] using hq, hleads⟩

/-- The end of an element behind the last entry. -/
theorem Awaits.finish (hS : S.Generated) (hn : (S.element i).n = 0)
    (h : Awaits S type p ((j, count) :: stack) (endItem c :: items) c i) :
    ∃ q se, q.At type (afterState S j (count + 1)) se ((j, count + 1) :: stack) true items ∧
      Leads S p [.leave j] q := by
  by_cases hc : c.n = 0
  · have hfresh := h.fresh_of hc
    rw [endItem, endWidth, if_pos hc, h.code_zero hc] at hfresh
    obtain ⟨q, hq, hpast⟩ := read_past hfresh hn
    obtain ⟨r, hr, hends⟩ := read_end hq
    exact ⟨r, i, hr, hpast.trans hends⟩
  · rw [endItem, endWidth, if_neg hc] at h
    obtain ⟨q, hq, htakes⟩ := h.take hS hc
    have hstate : tokenState S i = .parseEnd := if_neg (not_not_intro hn)
    obtain ⟨r, hr, hends⟩ := read_ended (p := q) (by simpa [hstate, hn] using hq)
    exact ⟨r, i, hr, htakes.trans hends⟩

end Awaits

/-! ## Reading what was written -/

section Read
variable {S : Schema} {m : Heap} {p : RowParser} {stack : List (ℕ × ℕ)} {rest : List Item}
  {c : PendingCode} {a x : Addr} {xs : List Addr} {i k se depth type : ℕ}

/-- The visits between the start and the end of the `k`-th occurrence `x` of the element `i`. -/
def insideVisits (S : Schema) (m : Heap) (f : ℕ → Addr → List Visit) (i k : ℕ) (x : Addr) :
    List Visit :=
  let se := S.element i
  if se.simple then [.text i x (m.load se.xsType x (se.bit + k))] else f (se.index + 1) x

theorem occurrencesVisits_cons {f : ℕ → Addr → List Visit} :
    occurrencesVisits S m f i k (x :: xs) =
      .enter i x :: (insideVisits S m f i k x ++
        .leave i :: occurrencesVisits S m f i (k + 1) xs) := by
  rw [occurrencesVisits, occurrenceVisits]
  simp only [insideVisits, List.cons_append, List.append_assoc, List.nil_append]

/-- `parse_doc` reads the row of each structure that conforms to the entries from `i` on. -/
def ReadsRow (S : Schema) (m : Heap) (type depth : ℕ) : Prop :=
  ∀ {i : ℕ} {a : Addr} {p : RowParser} (stack : List (ℕ × ℕ)) {rest : List Item},
    Conforms S m depth i a → stack.length + depth = maxStack + 1 →
    p.At type .parseNext i stack true ((structRow S m depth i a).1 ++ rest) →
    ∃ q, Awaits S type q stack rest (structRow S m depth i a).2 (i + (S.entries i).length) ∧
      Leads S p ((contents S m depth i a).map Visit.shape) q

/-- The entries of a type end where the next head is. -/
theorem Schema.n_entries_end (S : Schema) (i : ℕ) :
    (S.element (i + (S.entries i).length)).n = 0 := by
  induction hk : (S.entries i).length generalizing i with
  | zero => exact S.entries_eq_nil.1 (List.length_eq_zero_iff.1 hk)
  | succ k ih =>
    have hn : (S.element i).n ≠ 0 := fun h => by simp [S.entries_nil h] at hk
    rw [S.entries_cons hn, List.length_cons] at hk
    have hend := ih (i + 1) (Nat.succ_inj.1 hk)
    rwa [Nat.add_assoc, Nat.add_comm 1] at hend

/-- An occurrence behind its code. -/
theorem read_inside (hS : S.Generated) (hreads : ReadsRow S m type depth)
    (hdepth : stack.length + 1 + depth = maxStack + 1)
    (hinner : (S.element i).simple = false → Conforms S m depth ((S.element i).index + 1) x)
    (hse : (S.element i).simple = true → se = i)
    (h : p.At type (insideState S i) (insideEntry S i se) ((i, k) :: stack) true
      ((insideRow S m (structRow S m depth) i k x).1 ++
        endItem (insideRow S m (structRow S m depth) i k x).2 :: rest)) :
    ∃ q se', q.At type (afterState S i (k + 1)) se' ((i, k + 1) :: stack) true rest ∧
      ((S.element i).simple = true → se' = i) ∧
      Leads S p ((insideVisits S m (contents S m depth) i k x).map Visit.shape ++ [.leave i])
        q := by
  cases hsimple : (S.element i).simple with
  | true =>
    rw [insideRow_simple hsimple, insideState, if_pos hsimple, insideEntry, if_pos hsimple,
      hse hsimple] at h
    obtain ⟨q, hq, hvalue⟩ := read_value h
    obtain ⟨r, hr, hends⟩ := read_end hq
    refine ⟨r, i, hr, fun _ => rfl, ?_⟩
    rw [insideVisits, if_pos hsimple]
    exact hvalue.trans hends
  | false =>
    have hnot : ¬(S.element i).simple = true := Bool.eq_false_iff.1 hsimple
    rw [insideRow_complex hsimple, insideState, if_neg hnot, insideEntry, if_neg hnot] at h
    obtain ⟨q, hq, hreads⟩ := hreads ((i, k) :: stack) (hinner hsimple) hdepth h
    obtain ⟨r, se', hr, hends⟩ := hq.finish hS (S.n_entries_end _)
    refine ⟨r, se', hr, fun h => absurd h Bool.false_ne_true, ?_⟩
    rw [insideVisits, if_neg hnot]
    exact hreads.trans hends

/-- What awaits the parser behind the last occurrence of an element. -/
theorem read_last (hmin : (S.element i).min ≤ k)
    (hn : (S.element i).unbounded = true ∨ k < (S.element i).max → (S.element i).n ≠ 0)
    (h : p.At type (afterState S i k) se ((i, k) :: stack) true rest) :
    ∃ q, Awaits S type q stack rest ⟨(afterSequence S i k).1, (afterSequence S i k).2⟩ (i + 1) ∧
      Leads S p [] q := by
  unfold afterState at h
  unfold afterSequence
  by_cases hmore : (S.element i).unbounded = true ∨ k < (S.element i).max
  · rw [if_pos hmore] at h
    rw [if_pos hmore]
    have hvaries : (S.element i).varies = true := by
      unfold SchemaElement.varies
      rcases hmore with hunbounded | hlt
      · simp [hunbounded]
      · simp [Nat.lt_of_le_of_lt hmin hlt]
    refine ⟨p, .sequence h Nat.one_ne_zero hmin (Or.inl hvaries) fun l hl => ?_, .refl⟩
    obtain rfl : l = 0 := Nat.lt_one_iff.1 hl
    exact ⟨hn hmore, fun h => absurd h (lt_irrefl 0)⟩
  · rw [if_neg hmore] at h
    rw [if_neg hmore]
    obtain ⟨q, hq, -, hfull⟩ := read_sequence_full h
    exact ⟨q, .fresh hq, hfull⟩

/-- The occurrences of an element, the first of them behind its code. -/
theorem read_occurrences (se : ℕ) (hS : S.Generated) (hreads : ReadsRow S m type depth)
    (hdepth : stack.length + 1 + depth = maxStack + 1)
    (hinner : ∀ y ∈ x :: xs,
      (S.element i).simple = false → Conforms S m depth ((S.element i).index + 1) y)
    (hmin : (S.element i).min ≤ k + 1 + xs.length)
    (hmax : (S.element i).unbounded = false → k + 1 + xs.length ≤ (S.element i).max)
    (hn : (S.element i).unbounded = true ∨ k + 1 < (S.element i).max → (S.element i).n ≠ 0)
    (hse : (S.element i).simple = true → se = i)
    (h : p.At type (insideState S i) (insideEntry S i se) ((i, k) :: stack) true
      ((insideRow S m (structRow S m depth) i k x).1 ++
        endItem (insideRow S m (structRow S m depth) i k x).2 ::
        occurrencesRow S m (structRow S m depth) i {} (k + 1) xs ++ rest)) :
    ∃ q, Awaits S type q stack rest ⟨(afterSequence S i (k + 1 + xs.length)).1,
        (afterSequence S i (k + 1 + xs.length)).2⟩ (i + 1) ∧
      Leads S p ((insideVisits S m (contents S m depth) i k x ++
        .leave i :: occurrencesVisits S m (contents S m depth) i (k + 1) xs).map Visit.shape)
        q := by
  induction xs generalizing p k x se with
  | nil =>
    rw [occurrencesRow_nil, List.append_assoc, List.singleton_append] at h
    obtain ⟨q, se', hq, -, hinside⟩ :=
      read_inside hS hreads hdepth (hinner x List.mem_cons_self) hse h
    obtain ⟨r, hr, hlast⟩ := read_last hmin hn hq
    refine ⟨r, hr, ?_⟩
    have hleads := hinside.trans hlast
    simpa [occurrencesVisits, Visit.shape] using hleads
  | cons y xs ih =>
    rw [occurrencesRow_cons, List.append_assoc, List.cons_append] at h
    obtain ⟨q, se', hq, hsame, hinside⟩ :=
      read_inside hS hreads hdepth (hinner x List.mem_cons_self) hse h
    have hmore : (S.element i).unbounded = true ∨ k + 1 < (S.element i).max := by
      cases hunbounded : (S.element i).unbounded with
      | true => exact Or.inl rfl
      | false =>
        have hle := hmax hunbounded
        rw [List.length_cons] at hle
        exact Or.inr (by omega)
    have hcodes : 0 < sequenceCodes S i (k + 1) := by
      have hpos := Nat.pos_of_ne_zero (hn hmore)
      unfold sequenceCodes
      split <;> omega
    rw [afterState, if_pos hmore] at hq
    obtain ⟨r, hr, hagain⟩ :=
      read_again (by simpa [orOccurs, sequenceCodes] using hq) hcodes hmore
    have hlength : k + 1 + (y :: xs).length = k + 1 + 1 + xs.length := by
      rw [List.length_cons]
      omega
    rw [hlength] at hmin hmax ⊢
    obtain ⟨r', hr', hrest⟩ := ih (p := r) (k := k + 1) (x := y) se'
      (fun z hz => hinner z (List.mem_cons_of_mem x hz)) hmin hmax
      (fun _ => hn hmore) hsame (by simpa using hr)
    refine ⟨r', hr', ?_⟩
    have hleads := (hinside.trans hagain).trans hrest
    simpa [occurrencesVisits_cons, Visit.shape] using hleads

/-- What the structure at `a` has of an entry. -/
theorem read_entry (hS : S.Generated) (hreads : ReadsRow S m type depth) (hn : (S.element i).n ≠ 0)
    (hcounted : S.Counted m a (S.element i))
    (hoccurs : (S.element i).isAttribute = false → ∀ x ∈ S.occurrences m a (S.element i),
      depth ≠ 0 ∧ ((S.element i).simple = false → Conforms S m depth ((S.element i).index + 1) x))
    (hdepth : stack.length + (depth + 1) = maxStack + 1)
    (h : Awaits S type p stack ((entryRow S m (structRow S m depth) a i c).1 ++ rest) c i) :
    ∃ q, Awaits S type q stack rest (entryRow S m (structRow S m depth) a i c).2 (i + 1) ∧
      Leads S p ((entryVisits S m (contents S m depth) a i).map Visit.shape) q := by
  cases hattribute : (S.element i).isAttribute with
  | true =>
    by_cases hcount : m.outputCount a (S.element i) = 0
    · rw [entryRow_skip hattribute hcount] at h ⊢
      refine ⟨p, h.skip hn (hcounted.min_zero hattribute hcount), ?_⟩
      simpa [entryVisits, hattribute, hcount] using Parser.Leads.refl
    · rw [entryRow_attribute hattribute hcount] at h ⊢
      have hwidth : orProductions S c.n i = if c.n = 0 then nextCodes S i else c.n := by
        unfold orProductions nextCodes
        by_cases hmin : (S.element i).min = 0
        · rw [if_pos hmin]
        · rw [if_neg hmin, hS.attribute_n hn hattribute hmin]
      obtain ⟨q, hq, hchoose⟩ := h.choose hS hn hwidth
      obtain ⟨r, hr, hvalue⟩ := read_attribute hq hattribute
      refine ⟨r, .fresh hr, ?_⟩
      have hleads := hchoose.trans hvalue
      simpa [entryVisits, hattribute, hcount, Visit.shape] using hleads
  | false =>
    have hleast := hcounted.least hattribute
    have hmost := hcounted.most hattribute
    have hoccurs := hoccurs hattribute
    rw [entryRow_element hattribute] at h ⊢
    cases hlist : S.occurrences m a (S.element i) with
    | nil =>
      rw [hlist, List.length_nil, Nat.le_zero] at hleast
      rw [hlist, occurrencesRow_nil] at h
      refine ⟨p, h.skip hn hleast, ?_⟩
      simpa [entryVisits, hattribute, hlist, occurrencesVisits] using Parser.Leads.refl
    | cons x xs =>
      rw [hlist] at hleast hmost hoccurs h
      have hroom : stack.length ≠ maxStack := by
        have hinner := (hoccurs x List.mem_cons_self).1
        omega
      have hlength : 0 + 1 + xs.length = (x :: xs).length := by
        rw [List.length_cons]
        omega
      have hwidth : orOccurs S c.n i 0 = if c.n = 0 then nextCodes S i else c.n := by
        simp [orOccurs, nextCodes]
      rw [occurrencesRow_cons] at h
      obtain ⟨q, hq, hchoose⟩ := Awaits.choose hS hn hwidth h
      obtain ⟨r, hr, henter⟩ := read_element hq hattribute hroom
      obtain ⟨r', hr', hrest⟩ := read_occurrences i hS hreads (by omega)
        (fun y hy => (hoccurs y hy).2) (by rw [hlength]; exact hleast)
        (by rw [hlength]; exact hmost) (fun _ => hn) (fun _ => rfl) hr
      rw [hlength] at hr'
      refine ⟨r', by rwa [afterOccurrences, if_neg (by simp)], ?_⟩
      have hleads := (hchoose.trans henter).trans hrest
      simpa [entryVisits, hattribute, hlist, occurrencesVisits_cons, Visit.shape] using hleads

/-- The entries from `i` on, up to the end of the structure. -/
theorem read_entries (hS : S.Generated) (hreads : ReadsRow S m type depth)
    (hk : (S.entries i).length = k) (hdepth : stack.length + (depth + 1) = maxStack + 1)
    (hconforms : Conforms S m (depth + 1) i a)
    (h : Awaits S type p stack ((entriesRow S m (structRow S m depth) a k i c).1 ++ rest) c i) :
    ∃ q, Awaits S type q stack rest (entriesRow S m (structRow S m depth) a k i c).2 (i + k) ∧
      Leads S p ((entriesVisits S m (contents S m depth) a k i).map Visit.shape) q := by
  induction k generalizing i c p with
  | zero =>
    rw [entriesRow] at h ⊢
    exact ⟨p, h, .refl⟩
  | succ k ih =>
    have hn : (S.element i).n ≠ 0 := fun h => by simp [S.entries_nil h] at hk
    have hlater : (S.entries (i + 1)).length = k := by
      rw [S.entries_cons hn, List.length_cons] at hk
      exact Nat.succ_inj.1 hk
    obtain ⟨hcounted, hoccurs⟩ := hconforms i le_rfl (by omega)
    rw [entriesRow, List.append_assoc] at h
    obtain ⟨q, hq, hentry⟩ := read_entry hS hreads hn hcounted hoccurs hdepth h
    obtain ⟨r, hr, hrest⟩ := ih (i := i + 1) hlater
      (fun j hj hjk => hconforms j (by omega) (by omega)) hq
    rw [Nat.add_assoc, Nat.add_comm 1] at hr
    refine ⟨r, hr, ?_⟩
    rw [entriesVisits, List.map_append]
    exact hentry.trans hrest

/-- `parse_doc` reads the row of each structure. -/
theorem readsRow (hS : S.Generated) (m : Heap) (type depth : ℕ) : ReadsRow S m type depth := by
  induction depth with
  | zero => exact fun _ _ hconforms => hconforms.elim
  | succ depth ih =>
    intro i a p stack rest hconforms hdepth h
    exact read_entries (c := {}) hS ih rfl hdepth hconforms (.fresh h)

/-- The event code that starts a document. -/
theorem read_start {items row : List Item} (htype : type < S.length)
    (hrow : row = .event type (bitCount S.length) :: items) :
    ∃ q, q.At type .parseElement type [] true items ∧ Leads S (itemParser row m) [] q := by
  refine ⟨⟨⟨.parseElement, type, type, 0, true, ⟨items, false⟩⟩, [], m.calloc.2, m.calloc.2, 0,
    m.calloc.1⟩, ⟨rfl, rfl, rfl, rfl, rfl, rfl⟩, .single ?_ rfl⟩
  simp [Parser.step, exiParser, exiParseStart, itemSource, itemParser, hrow, ItemReader.bits,
    ExiRead.front, htype, Parser.withFront]

/-- `output_doc` writes one document for an object. -/
theorem Encodes.unique {obj : Addr} {items items' : List Item} (h : Encodes S m obj type items)
    (h' : Encodes S m obj type items') : items = items' := by
  obtain ⟨o, o₁, hruns, hcomplete, rfl⟩ := h
  obtain ⟨o', o₁', hruns', hcomplete', rfl⟩ := h'
  have hunique : Relator.RightUnique (OutputGoes S m obj type) := by
    intro x y z hy hz
    rw [OutputGoes, hy] at hz
    exact OutputStep.go.inj hz
  have hends : ∀ {x x' y : Output (List Item)}, Output.step S m (exiOutput S m (itemSink S m)) obj
      type x = .complete x' → ReflTransGen (OutputGoes S m obj type) x y → x = y := by
    intro x x' y hx hxy
    rcases hxy.cases_head with rfl | ⟨z, hz, -⟩
    · rfl
    · rw [OutputGoes, hx] at hz
      simp at hz
  have hsame : o = o' := by
    rcases hruns.total_of_right_unique hunique hruns' with h | h
    · exact hends hcomplete h
    · exact (hends hcomplete' h).symm
  rw [hsame, hcomplete'] at hcomplete
  rw [OutputStep.complete.inj hcomplete]

/-- `parse_doc` reads the row of a document. -/
theorem Schema.Generated.decodes {obj : Addr} (hS : S.Generated)
    (htype : type < S.length) (hconforms : ConformsTo S m obj type) (heap : Heap) :
    ∃ visits, Decodes S heap (documentRow S m obj type) type visits ∧
      visits.map Visit.shape = (document S m obj type).map Visit.shape := by
  obtain ⟨-, hmax, hattribute, hunbounded⟩ := hS.root type htype
  obtain ⟨hcounted, hinner⟩ := hconforms
  have hone : (S.occurrences m obj (S.element type)).length = 1 := by
    have hleast := hcounted.least hattribute
    have hmost := hcounted.most hattribute hunbounded
    have hroot := hS.root type htype
    omega
  obtain ⟨x, hx⟩ := List.length_eq_one_iff.1 hone
  rw [hx] at hinner
  have hrow : documentRow S m obj type = .event type (bitCount S.length) ::
      ((insideRow S m (structRow S m maxStack) type 0 x).1 ++
        endItem (insideRow S m (structRow S m maxStack) type 0 x).2 ::
        occurrencesRow S m (structRow S m maxStack) type {} (0 + 1) [] ++ []) := by
    have hcodes : orOccurs S S.length type 0 = S.length := if_neg (by omega)
    rw [documentRow, hx, occurrencesRow_cons, hcodes, List.cons_append, List.append_nil]
  obtain ⟨p, hp, hstarts⟩ := read_start (m := heap) htype hrow
  obtain ⟨q, hq, henter⟩ := read_element hp hattribute (by decide)
  have hfull : ¬((S.element type).unbounded = true ∨ 0 + 1 < (S.element type).max) := by
    simp [hmax, hunbounded]
  obtain ⟨q', hq', hoccurs⟩ := read_occurrences type hS (readsRow hS m type maxStack) (by decide)
    (fun y hy => hinner y hy) (by simp [(hS.root type htype).1]) (fun _ => by simp [hmax])
    (fun h => absurd h hfull) (fun _ => rfl) hq
  rw [List.length_nil, Nat.add_zero, afterSequence, if_neg hfull] at hq'
  obtain ⟨r, hr, hpast⟩ := read_past (hq'.fresh_of rfl) (hS.globals (type + 1) htype)
  obtain ⟨visits, hruns, hshapes⟩ := (((hstarts.trans henter).trans hoccurs).trans hpast) []
  obtain ⟨s, obj', base, flag, heap', hs, hdone⟩ := hr.eq
  obtain rfl := List.map_eq_nil_iff.1 hs
  refine ⟨visits, ⟨r, _, obj', hruns, by rw [hdone]; rfl, rfl⟩, ?_⟩
  rw [hshapes]
  simp [document, entryVisits, hattribute, hx, occurrencesVisits_cons, Visit.shape]

/-- **What the encoder writes the decoder reads.** -/
theorem encoded_decodes {obj : Addr} {type : ℕ} (hS : S.Generated)
    (htype : type < S.length) (hconforms : ConformsTo S m obj type)
    (hroomy : RoomyTo S m obj type) (hfilled : FilledTo S m obj type) :
    (∃ items, Encodes S m obj type items) ∧
      ∀ items, Encodes S m obj type items → ∀ heap, ∃ visits, Decodes S heap items type visits ∧
        visits.map Visit.shape = (document S m obj type).map Visit.shape := by
  have hencodes := hS.encodes htype hconforms hroomy hfilled
  refine ⟨⟨_, hencodes⟩, fun items hitems heap => ?_⟩
  obtain rfl := hitems.unique hencodes
  exact hS.decodes htype hconforms heap

end Read

/-- A notification with a status and no URI. -/
def statusHeap : Heap where
  flags := fun _ => 1
  value := fun a => if a.offset = 4 then some (.number 7) else none
  items := fun _ => []
  fresh := 1

theorem statusHeap_occurrences :
    notification.occurrences statusHeap ⟨0, 0⟩ (notification.element 0) = [⟨0, 0⟩] := rfl

theorem statusHeap_conforms : ConformsTo notification statusHeap ⟨0, 0⟩ 0 := by
  have hcounted : ∀ j < 4, j ≠ 1 →
      notification.Counted statusHeap ⟨0, 0⟩ (notification.element j) := by
    intro j hj hhead
    interval_cases j
    · exact ⟨by decide, by decide, by decide⟩
    · exact absurd rfl hhead
    · exact ⟨by decide, by decide, by decide⟩
    · exact ⟨by decide, by decide, by decide⟩
  refine ⟨hcounted 0 (by decide) (by decide), fun x hx _ => ?_⟩
  rw [statusHeap_occurrences, List.mem_singleton] at hx
  subst hx
  show Conforms notification statusHeap (31 + 1) 2 ⟨0, 0⟩
  intro j hj hlt
  have hlt : j < 4 := hlt
  refine ⟨hcounted j hlt (by omega), fun _ x _ => ⟨by decide, fun hcomplex => ?_⟩⟩
  interval_cases j
  · exact absurd hcomplex (by decide)
  · exact absurd hcomplex (by decide)

theorem statusHeap_roomy : RoomyTo notification statusHeap ⟨0, 0⟩ 0 := by
  intro x hx _
  refine ⟨by decide, ?_⟩
  show Roomy notification statusHeap (31 + 1) 2 x
  intro j hj hlt _
  have hlt : j < 4 := hlt
  refine ⟨by decide, fun y _ hcomplex => ?_⟩
  interval_cases j
  · exact absurd hcomplex (by decide)
  · exact absurd hcomplex (by decide)

theorem statusHeap_filled : FilledTo notification statusHeap ⟨0, 0⟩ 0 := by
  intro x hx
  refine ⟨fun hsimple => absurd hsimple (by decide), fun _ => ?_⟩
  rw [statusHeap_occurrences, List.mem_singleton] at hx
  subst hx
  show Filled notification statusHeap (31 + 1) 2 ⟨0, 0⟩
  intro j hj hlt _ y hy
  have hlt : j < 4 := hlt
  interval_cases j
  · have hnone : notification.occurrences statusHeap ⟨0, 0⟩ (notification.element 2) = [] := rfl
    rw [hnone] at hy
    exact absurd hy List.not_mem_nil
  · exact ⟨fun _ htype => absurd htype (by decide), fun hcomplex => absurd hcomplex (by decide)⟩

/-- A notification is read as it was written. -/
theorem notification_decodes : (∃ items, Encodes notification statusHeap ⟨0, 0⟩ 0 items) ∧
    ∀ items, Encodes notification statusHeap ⟨0, 0⟩ 0 items → ∀ heap, ∃ visits,
      Decodes notification heap items 0 visits ∧ visits.map Visit.shape =
        (document notification statusHeap ⟨0, 0⟩ 0).map Visit.shape :=
  encoded_decodes notification_generated (by decide) statusHeap_conforms statusHeap_roomy
    statusHeap_filled

end SeClient
