import SeClient.Encoding

/-!
# The row of event codes of an object

The code of an event counts the entries that have been passed over since the last event, and its
width is that of the number of events that were possible there.  The row of a structure is what
`output_doc` writes for it; it ends with what is pending for the next event.
-/

namespace SeClient
open Relation

/-- What is known of the next event code: the number of possible codes, 0 while there is none, and
the code of the entry that comes next. -/
structure PendingCode where
  n : ℕ := 0
  code : ℕ := 0
deriving DecidableEq, Repr

section Row
variable (S : Schema) (m : Heap)

/-- The end of an element. -/
def endItem (c : PendingCode) : Item := .event c.code (endWidth c.n)

/-- What is between the event code of the `k`-th occurrence `x` of the element `i` and its end. -/
def insideRow (f : ℕ → Addr → List Item × PendingCode) (i k : ℕ) (x : Addr) :
    List Item × PendingCode :=
  let se := S.element i
  if se.simple then ([.event 0 1, .value i (m.load se.xsType x (se.bit + k))], {})
  else f (se.index + 1) x

/-- The occurrence `x` behind its event code. -/
def occurrenceRow (f : ℕ → Addr → List Item × PendingCode) (i k : ℕ) (x : Addr) : List Item :=
  (insideRow S m f i k x).1 ++ [endItem (insideRow S m f i k x).2]

/-- Occurrences of the element `i` from the `k`-th on. -/
def occurrencesRow (f : ℕ → Addr → List Item × PendingCode) (i : ℕ) :
    PendingCode → ℕ → List Addr → List Item
  | _, _, [] => []
  | c, k, x :: xs =>
    .event c.code (bitCount (orOccurs S c.n i k)) :: occurrenceRow S m f i k x ++
      occurrencesRow f i {} (k + 1) xs

/-- What is pending behind `count` occurrences of the element `i`. -/
def afterOccurrences (i : ℕ) (c : PendingCode) (count : ℕ) : PendingCode :=
  if count = 0 then ⟨orProductions S c.n i, c.code + 1⟩
  else ⟨(afterSequence S i count).1, (afterSequence S i count).2⟩

/-- What the structure at `a` has of the entry `i`. -/
def entryRow (f : ℕ → Addr → List Item × PendingCode) (a : Addr) (i : ℕ) (c : PendingCode) :
    List Item × PendingCode :=
  let se := S.element i
  if se.isAttribute then
    if m.outputCount a se ≠ 0 then
      ([.event c.code (bitCount (orProductions S c.n i)),
        .value i (m.load se.xsType (a.plus se.offset) se.bit)], {})
    else ([], ⟨orProductions S c.n i, c.code + 1⟩)
  else (occurrencesRow S m f i c 0 (S.occurrences m a se),
    afterOccurrences S i c (S.occurrences m a se).length)

/-- The entries from `i` on, `k` of them. -/
def entriesRow (f : ℕ → Addr → List Item × PendingCode) (a : Addr) :
    ℕ → ℕ → PendingCode → List Item × PendingCode
  | 0, _, c => ([], c)
  | k + 1, i, c =>
    let r := entriesRow f a k (i + 1) (entryRow S m f a i c).2
    ((entryRow S m f a i c).1 ++ r.1, r.2)

/-- The structure at `a`, of which the entries start at `i`. -/
def structRow : ℕ → ℕ → Addr → List Item × PendingCode
  | 0, _, _ => ([], {})
  | depth + 1, i, a => entriesRow S m (structRow depth) a (S.entries i).length i {}

/-- The document of the object at `obj`. -/
def documentRow (obj : Addr) (type : ℕ) : List Item :=
  occurrencesRow S m (structRow S m maxStack) type ⟨S.length, type⟩ 0
    (S.occurrences m obj (S.element type))

end Row

/-! ## The row is what is written -/

section Encode
variable {S : Schema} {m : Heap} {obj : Addr} {type : ℕ} {i k : ℕ} {a x : Addr} {c : PendingCode}
  {s : List StackItem} {t : StackItem} {flag : ℕ} {b : Bool} {out : List Item} {depth : ℕ}
  {xs : List Addr}

theorem insideRow_simple {f : ℕ → Addr → List Item × PendingCode}
    (h : (S.element i).simple = true) : insideRow S m f i k x =
      ([.event 0 1, .value i (m.load (S.element i).xsType x ((S.element i).bit + k))], {}) :=
  if_pos h

theorem insideRow_complex {f : ℕ → Addr → List Item × PendingCode}
    (h : (S.element i).simple = false) :
    insideRow S m f i k x = f ((S.element i).index + 1) x :=
  if_neg (Bool.eq_false_iff.1 h)

theorem entryRow_attribute {f : ℕ → Addr → List Item × PendingCode}
    (h : (S.element i).isAttribute = true) (hc : m.outputCount a (S.element i) ≠ 0) :
    entryRow S m f a i c = ([.event c.code (bitCount (orProductions S c.n i)), .value i
      (m.load (S.element i).xsType (a.plus (S.element i).offset) (S.element i).bit)], {}) := by
  simp only [entryRow, h, hc, if_true, ne_eq, not_false_eq_true]

theorem entryRow_skip {f : ℕ → Addr → List Item × PendingCode}
    (h : (S.element i).isAttribute = true) (hc : m.outputCount a (S.element i) = 0) :
    entryRow S m f a i c = ([], ⟨orProductions S c.n i, c.code + 1⟩) := by
  simp only [entryRow, h, hc, if_true, ne_eq, not_true_eq_false, if_false]

theorem entryRow_element {f : ℕ → Addr → List Item × PendingCode}
    (h : (S.element i).isAttribute = false) :
    entryRow S m f a i c = (occurrencesRow S m f i c 0 (S.occurrences m a (S.element i)),
      afterOccurrences S i c (S.occurrences m a (S.element i)).length) := by
  simp only [entryRow, h, Bool.false_eq_true, if_false]

theorem occurrencesRow_nil {f : ℕ → Addr → List Item × PendingCode} :
    occurrencesRow S m f i c k [] = [] := by
  rw [occurrencesRow]

theorem occurrencesRow_cons {f : ℕ → Addr → List Item × PendingCode} :
    occurrencesRow S m f i c k (x :: xs) =
      .event c.code (bitCount (orOccurs S c.n i k)) :: (insideRow S m f i k x).1 ++
        endItem (insideRow S m f i k x).2 :: occurrencesRow S m f i {} (k + 1) xs := by
  rw [occurrencesRow, occurrenceRow]
  simp only [List.append_assoc, List.cons_append, List.nil_append]

/-- `output_doc` writes the row of each structure that conforms to the entries from `i` on, with
elements `depth - 1` levels deep, and leaves what is pending. -/
def WritesRow (S : Schema) (m : Heap) (obj : Addr) (type depth : ℕ) : Prop :=
  ∀ {i : ℕ} {a : Addr} (s : List StackItem) (flag : ℕ) (b : Bool) (out : List Item),
    Conforms S m depth i a → Roomy S m depth i a → Filled S m depth i a →
    s.length + depth = maxStack + 1 →
    ∃ flag', ReflTransGen (OutputGoes S m obj type)
      ⟨outputAt S i, i, s, a, 0, 0, flag, b, out⟩
      ⟨.outputEnd, i + (S.entries i).length, s, a, (structRow S m depth i a).2.n,
        (structRow S m depth i a).2.code, flag', b, out ++ (structRow S m depth i a).1⟩

/-- What an occurrence of the element `i` has to be like. -/
structure Fits (S : Schema) (m : Heap) (depth i : ℕ) (x : Addr) : Prop where
  spelled : m.Spelled (S.element i) x
  conforms : (S.element i).simple = false → Conforms S m depth ((S.element i).index + 1) x
  inner : (S.element i).simple = false → (S.element ((S.element i).index + 1)).n ≠ 0
  roomy : (S.element i).simple = false → Roomy S m depth ((S.element i).index + 1) x
  filled : (S.element i).simple = false → Filled S m depth ((S.element i).index + 1) x

/-- An occurrence up to the end of the element. -/
theorem encode_inside (b : Bool) (n code : ℕ) (out : List Item)
    (hwrites : WritesRow S m obj type depth) (ht : t.se = i) (hx : Fits S m depth i x)
    (hdepth : (t :: s).length + depth = maxStack + 1) {se : ℕ}
    (hse : (S.element i).simple = true → se = i)
    (hflag : (S.element i).simple = true → flag = (S.element i).bit + k) :
    ∃ se' flag', ReflTransGen (OutputGoes S m obj type)
        ⟨occurrenceState S i, se, t :: s, x, n, code, flag, b, out⟩
        ⟨.outputEnd, se', t :: s, x, (insideRow S m (structRow S m depth) i k x).2.n,
          (insideRow S m (structRow S m depth) i k x).2.code, flag', b,
          out ++ .event code (bitCount n) :: (insideRow S m (structRow S m depth) i k x).1⟩ ∧
      ((S.element i).simple = true → se' = i ∧ flag' = flag) := by
  unfold occurrenceState
  cases hsimple : (S.element i).simple with
  | true =>
    rw [insideRow_simple hsimple]
    obtain rfl := hse hsimple
    obtain rfl := hflag hsimple
    exact ⟨se, _, encode_simple hsimple hx.spelled, fun _ => ⟨rfl, rfl⟩⟩
  | false =>
    rw [insideRow_complex hsimple]
    obtain ⟨flag', hruns⟩ := hwrites (t :: s) flag b (out ++ [.event code (bitCount n)])
      (hx.conforms hsimple) (hx.roomy hsimple) (hx.filled hsimple) hdepth
    rw [show outputAt S ((S.element i).index + 1) = .outputElement from
      if_pos (hx.inner hsimple), List.append_assoc, List.singleton_append] at hruns
    exact ⟨_, flag', (encode_complex ht).trans hruns, fun h => absurd h Bool.false_ne_true⟩

/-- The occurrences of an element from the one on that the stack is at. -/
theorem encode_occurrences (c : PendingCode) (flag se : ℕ) (b : Bool) (out : List Item)
    (hwrites : WritesRow S m obj type depth) (hdepth : s.length + 1 + depth = maxStack + 1)
    (ht : AtOccurrence S i a t x xs)
    (hfits : ∀ y ∈ x :: xs, Fits S m depth i y)
    (hmin : (S.element i).min ≤ t.count + 1 + xs.length)
    (hmax : (S.element i).unbounded = false → t.count + 1 + xs.length ≤ (S.element i).max)
    (hse : (S.element i).simple = true → se = i)
    (hflag : (S.element i).simple = true → flag = (S.element i).bit + t.count) :
    ∃ flag', ReflTransGen (OutputGoes S m obj type)
      ⟨occurrenceState S i, se, t :: s, x, orOccurs S c.n i t.count, c.code, flag, b, out⟩
      ⟨outputAt S (i + 1), i + 1, s, a, (afterSequence S i (t.count + 1 + xs.length)).1,
        (afterSequence S i (t.count + 1 + xs.length)).2, flag', b,
        out ++ occurrencesRow S m (structRow S m depth) i c t.count (x :: xs)⟩ := by
  induction xs generalizing t x c se flag out with
  | nil =>
    obtain ⟨se', flag', hruns, -⟩ := encode_inside b (orOccurs S c.n i t.count) c.code out hwrites
      ht.se (hfits x List.mem_cons_self) hdepth hse hflag
    rw [occurrencesRow_cons, occurrencesRow_nil, ← List.append_assoc]
    exact ⟨flag', hruns.trans (encode_last ht hmin hmax)⟩
  | cons y xs ih =>
    obtain ⟨se', flag', hruns, hsame⟩ := encode_inside b (orOccurs S c.n i t.count) c.code out
      hwrites ht.se (hfits x List.mem_cons_self) hdepth hse hflag
    generalize hinside : insideRow S m (structRow S m depth) i t.count x = inside at hruns ⊢
    obtain ⟨t', ht', hcount, hagain⟩ : ∃ t', AtOccurrence S i a t' y xs ∧ t'.count = t.count + 1 ∧
        ReflTransGen (OutputGoes S m obj type)
          ⟨.outputEnd, se', t :: s, x, inside.2.n, inside.2.code, flag', b,
            out ++ .event c.code (bitCount (orOccurs S c.n i t.count)) :: inside.1⟩
          ⟨occurrenceState S i, se', t' :: s, y, orOccurs S 0 i (t.count + 1), 0, flag' + 1, b,
            out ++ .event c.code (bitCount (orOccurs S c.n i t.count)) :: inside.1 ++
              [endItem inside.2]⟩ := encode_again ht
    have hlength : t.count + 1 + (y :: xs).length = t'.count + 1 + xs.length := by
      rw [hcount, List.length_cons]
      omega
    rw [hlength] at hmin hmax ⊢
    rw [← hcount] at hagain
    obtain ⟨flag'', hrest⟩ := ih {} (flag' + 1) se'
      (out ++ .event c.code (bitCount (orOccurs S c.n i t.count)) :: inside.1 ++ [endItem inside.2])
      ht' (fun z hz => hfits z (List.mem_cons_of_mem x hz)) hmin hmax
      (fun hsimple => (hsame hsimple).1)
      (fun hsimple => by rw [(hsame hsimple).2, hflag hsimple, hcount, Nat.add_assoc])
    refine ⟨flag'', hruns.trans (hagain.trans ?_)⟩
    rw [occurrencesRow_cons, ← hcount, hinside]
    simpa only [List.append_assoc, List.cons_append, List.nil_append,
      Nat.cast_zero] using hrest

/-- What the structure at `a` has of an entry. -/
theorem encode_entry (c : PendingCode) (flag : ℕ) (b : Bool) (out : List Item)
    (hwrites : WritesRow S m obj type depth) (hcounted : S.Counted m a (S.element i))
    (hdepth : (S.element i).isAttribute = false →
      s.length ≠ maxStack ∧ s.length + 1 + depth = maxStack + 1)
    (hfits : (S.element i).isAttribute = false →
      ∀ x ∈ S.occurrences m a (S.element i), Fits S m depth i x) :
    ∃ flag', ReflTransGen (OutputGoes S m obj type)
      ⟨.outputElement, i, s, a, c.n, c.code, flag, b, out⟩
      ⟨outputAt S (i + 1), i + 1, s, a, (entryRow S m (structRow S m depth) a i c).2.n,
        (entryRow S m (structRow S m depth) a i c).2.code, flag', b,
        out ++ (entryRow S m (structRow S m depth) a i c).1⟩ := by
  cases hattribute : (S.element i).isAttribute with
  | true =>
    by_cases hcount : m.outputCount a (S.element i) = 0
    · rw [entryRow_skip hattribute hcount, List.append_nil]
      exact ⟨_, encode_attribute_skip hattribute hcount (hcounted.min_zero hattribute hcount)⟩
    · rw [entryRow_attribute hattribute hcount]
      exact ⟨_, encode_attribute hattribute hcount⟩
  | false =>
    obtain ⟨hroom, hdepth⟩ := hdepth hattribute
    have hfits := hfits hattribute
    have hleast := hcounted.least hattribute
    have hmost := hcounted.most hattribute
    rw [entryRow_element hattribute]
    cases hoccurs : S.occurrences m a (S.element i) with
    | nil =>
      rw [hoccurs, List.length_nil, Nat.le_zero] at hleast
      rw [occurrencesRow_nil, List.append_nil, List.length_nil, afterOccurrences, if_pos rfl]
      exact ⟨_, encode_element_skip hattribute hroom hoccurs hleast⟩
    | cons x xs =>
      rw [hoccurs] at hleast hmost hfits
      obtain ⟨t, ht, hcount, hfirst⟩ : ∃ t, AtOccurrence S i a t x xs ∧ t.count = 0 ∧
          ReflTransGen (OutputGoes S m obj type)
            ⟨.outputElement, i, s, a, c.n, c.code, flag, b, out⟩
            ⟨occurrenceState S i, i, t :: s, x, orOccurs S c.n i 0, c.code, (S.element i).bit, b,
              out⟩ := encode_element hattribute hroom hoccurs
      have hlength : t.count + 1 + xs.length = (x :: xs).length := by
        rw [hcount, List.length_cons]
        omega
      obtain ⟨flag', hrest⟩ := encode_occurrences c (S.element i).bit i b out hwrites hdepth ht
        hfits (by rw [hlength]; exact hleast) (by rw [hlength]; exact hmost) (fun _ => rfl)
        (fun _ => by rw [hcount]; rfl)
      rw [hlength, hcount] at hrest
      rw [afterOccurrences, if_neg (by simp)]
      exact ⟨flag', hfirst.trans hrest⟩

/-- The entries from `i` on, up to the end of the structure. -/
theorem encode_entries (c : PendingCode) (flag : ℕ) (b : Bool) (out : List Item)
    (hwrites : WritesRow S m obj type depth) (hk : (S.entries i).length = k)
    (hdepth : s.length + (depth + 1) = maxStack + 1)
    (hconforms : Conforms S m (depth + 1) i a) (hroomy : Roomy S m (depth + 1) i a)
    (hfilled : Filled S m (depth + 1) i a) :
    ∃ flag', ReflTransGen (OutputGoes S m obj type)
      ⟨outputAt S i, i, s, a, c.n, c.code, flag, b, out⟩
      ⟨.outputEnd, i + k, s, a, (entriesRow S m (structRow S m depth) a k i c).2.n,
        (entriesRow S m (structRow S m depth) a k i c).2.code, flag', b,
        out ++ (entriesRow S m (structRow S m depth) a k i c).1⟩ := by
  induction k generalizing i c flag out with
  | zero =>
    have hn : (S.element i).n = 0 := S.entries_eq_nil.1 (List.length_eq_zero_iff.1 hk)
    rw [outputAt, if_neg (not_not_intro hn), entriesRow, List.append_nil, Nat.add_zero]
    exact ⟨flag, .refl⟩
  | succ k ih =>
    have hn : (S.element i).n ≠ 0 := fun h => by simp [S.entries_nil h] at hk
    have hlater : (S.entries (i + 1)).length = k := by
      rw [S.entries_cons hn, List.length_cons] at hk
      exact Nat.succ_inj.1 hk
    have hrange : i < i + (S.entries i).length := by omega
    obtain ⟨hcounted, hoccurs⟩ := hconforms i le_rfl hrange
    have hlevel : (S.element i).isAttribute = false →
        s.length ≠ maxStack ∧ s.length + 1 + depth = maxStack + 1 := by
      intro hattribute
      have hinner := (hroomy i le_rfl hrange hattribute).1
      omega
    obtain ⟨flag₁, hentry⟩ := encode_entry c flag b out hwrites hcounted hlevel
      (fun hattribute x hx => ⟨(hfilled i le_rfl hrange hattribute x hx).1,
        (hoccurs hattribute x hx).2,
        fun hcomplex => ((hroomy i le_rfl hrange hattribute).2 x hx hcomplex).1,
        fun hcomplex => ((hroomy i le_rfl hrange hattribute).2 x hx hcomplex).2,
        (hfilled i le_rfl hrange hattribute x hx).2⟩)
    obtain ⟨flag₂, hrest⟩ := ih (entryRow S m (structRow S m depth) a i c).2 flag₁
      (out ++ (entryRow S m (structRow S m depth) a i c).1) hlater
      (fun j hj hjk => hconforms j (by omega) (by omega))
      (fun j hj hjk => hroomy j (by omega) (by omega))
      (fun j hj hjk => hfilled j (by omega) (by omega))
    rw [outputAt, if_pos hn, entriesRow, ← List.append_assoc, ← Nat.add_assoc,
      Nat.add_right_comm]
    exact ⟨flag₂, hentry.trans hrest⟩

/-- `output_doc` writes the row of each structure. -/
theorem writesRow (S : Schema) (m : Heap) (obj : Addr) (type depth : ℕ) :
    WritesRow S m obj type depth := by
  induction depth with
  | zero => exact fun _ _ _ _ hconforms => hconforms.elim
  | succ depth ih =>
    intro i a s flag b out hconforms hroomy hfilled hdepth
    exact encode_entries {} flag b out ih rfl hdepth hconforms hroomy hfilled

/-- **`output_doc` writes the row of the document.** -/
theorem Schema.Generated.encodes (hS : S.Generated) (htype : type < S.length)
    (hconforms : ConformsTo S m obj type) (hroomy : RoomyTo S m obj type)
    (hfilled : FilledTo S m obj type) :
    Encodes S m obj type (documentRow S m obj type) := by
  obtain ⟨-, hmax, hattribute, hunbounded⟩ := hS.root type htype
  obtain ⟨hcounted, hinner⟩ := hconforms
  have hfits : ∀ x ∈ S.occurrences m obj (S.element type), Fits S m maxStack type x :=
    fun x hx => ⟨(hfilled x hx).1, hinner x hx, fun hcomplex => (hroomy x hx hcomplex).1,
      fun hcomplex => (hroomy x hx hcomplex).2, (hfilled x hx).2⟩
  have hone : (S.occurrences m obj (S.element type)).length = 1 := by
    have hleast := hcounted.least hattribute
    have hmost := hcounted.most hattribute hunbounded
    have hroot := hS.root type htype
    omega
  obtain ⟨flag, hruns⟩ := encode_entry (s := []) ⟨S.length, type⟩ 0 true []
    (writesRow S m obj type maxStack) hcounted (fun _ => ⟨by decide, by simp [Nat.add_comm]⟩)
    (fun _ => hfits)
  rw [entryRow_element hattribute, hone, outputAt, hS.globals (type + 1) htype,
    if_neg (not_not_intro rfl), List.nil_append] at hruns
  have hstart : OutputGoes S m obj type { out := [] }
      ⟨.outputElement, type, [], obj, S.length, (type : ℕ), 0, true, []⟩ := by
    simp [OutputGoes, Output.step, Nat.not_le.2 htype]
  exact ⟨_, _, .head hstart hruns, rfl, rfl⟩

end Encode
end SeClient
