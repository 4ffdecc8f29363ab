import SeClient.ExiWalk
import SeClient.XmlWalk

/-!
# The flag words of an object

`parse_doc` keeps the presence, the count and the boolean values of the entries of a structure in
one word.  Here is what a step changes in it, and elsewhere, while an occurrence is parsed.
-/

namespace SeClient

/-! ## What is claimed -/

section Claim
variable {ρ : Type} (S : Schema)

/-- The bits that the schema allots to an entry. -/
def SchemaElement.Allots (se : SchemaElement) (i : ℕ) : Prop :=
  ¬((se.isAttribute = true ∨ se.simple = true) ∧ se.isPointer = true) ∧ se.unbounded = false ∧
    se.bit ≤ i ∧ i < se.bit + bitCount (se.max - se.min) +
      (if (se.isAttribute = true ∨ se.simple = true) ∧ se.xsType = .boolean then se.max else 0)

/-- The first field of the structure is a structure.  There is no flag word in front of it. -/
def SchemaElement.Covers (se : SchemaElement) : Prop :=
  se.isAttribute = false ∧ se.simple = false ∧ se.unbounded = false ∧ se.offset = 0

/-- The field of the entry `i` in the structure at `b`. -/
def Schema.Field (i : ℕ) (b x : Addr) : Prop :=
  ∃ j < S.fieldWidth (S.element i), x = b.plus ((S.element i).offset + j)

/-- The structures of an occurrence of `i`: those in its field, and what is allocated from `m`
on. -/
def Schema.Content (m : Heap) (i : ℕ) (b x : Addr) : Prop :=
  m.fresh ≤ x.block ∨ ((S.element i).isAttribute = false ∧ (S.element i).simple = false ∧
    (S.element i).unbounded = false) ∧ S.Field i b x

/-- A place in the field of the entry `i`, or in a structure that is an occurrence of it. -/
def Schema.Holds (m : Heap) (i : ℕ) (b x : Addr) : Prop :=
  S.Field i b x ∨ ((S.element i).isAttribute = false ∧ (S.element i).simple = false) ∧
    S.Content m i b x

/-- **The entry `i` of the structure at `b` changes nothing else**: in the flag word its own bits,
and apart from that its field and what is in it.  Nor is anything else written by a string that its
container does not hold. -/
structure Heap.Confined (m : Heap) (i : ℕ) (b : Addr) (m' : Heap) : Prop where
  word : ¬(S.element i).Covers → ∀ j, (m'.flags b).getLsbD j ≠ (m.flags b).getLsbD j →
    (S.element i).Allots j
  flags : ∀ x, x ≠ b → m'.flags x ≠ m.flags x → S.Content m i b x
  value : ∀ x, m'.value x ≠ m.value x → S.Field i b x ∨ S.Content m i b x
  items : ∀ x, m'.items x ≠ m.items x → S.Field i b x ∨ S.Content m i b x
  spills : ∃ l, m'.spills = l ++ m.spills ∧ ∀ x ∈ l, ∃ y, x = some y ∧ S.Holds m i b y

/-- The occurrence that begins at `p₀` has been parsed. -/
def Parser.Over (p₀ p : Parser ρ) : Prop := p.state = .parseNext ∧ p.stack = p₀.stack

/-- **Flag isolation**, in the first `n` steps of a run: while an attribute or an element is parsed
it changes nothing else. -/
def Isolated (run : ℕ → Parser ρ) (n : ℕ) : Prop :=
  ∀ i j, i < j → j ≤ n → (run i).state = .parseElement →
    (∀ k, i < k → k < j → ¬(run i).Over (run k)) →
    (run i).heap.Confined S (run i).se (run i).base (run j).heap

/-- Where a sequence of strings or URIs ends, it was as short as it may be, or the bits of its
count are set already. -/
def Parser.Meets (p : Parser ρ) : Prop :=
  p.state = .sequenceEnd → ∀ t stack, p.stack = t :: stack → (S.element t.se).simple = true →
    (S.element t.se).isPointer = true → (S.element t.se).unbounded = false →
    p.heap.flags t.base |||
      BitVec.ofNat 32 (t.count - (S.element t.se).min) <<< (S.element t.se).bit =
        p.heap.flags t.base

/-- The strings stay in their fields: where one is written beyond its container, it is in another
one of the same entry. -/
def Parser.Contains (d : ParserDriver ρ) (p : Parser ρ) : Prop :=
  (p.state = .parseAttribute → ∀ v spill, (d.parseAttrValue p.toFront).2.1 = .spilled v spill →
    ∀ x ∈ spill.places (p.base.plus (S.element p.se).offset),
      ∃ y, x = some y ∧ S.Field p.se p.base y) ∧
  (p.state = .parseValue → ∀ t stack, p.stack = t :: stack →
    ∀ v spill, (d.parseValue p.toFront).2.1 = .spilled v spill →
      ∀ x ∈ spill.places p.base, ∃ y, x = some y ∧ S.Field t.se t.base y)

end Claim

/-! ## Bits -/

/-- The bits of a count. -/
theorem bit_of_count {c n bit i : ℕ} (hc : c ≤ n)
    (h : (BitVec.ofNat 32 c <<< bit).getLsbD i = true) : bit ≤ i ∧ i < bit + bitCount n := by
  rw [BitVec.getLsbD_shiftLeft, BitVec.getLsbD_ofNat, Bool.and_eq_true, Bool.and_eq_true,
    Bool.and_eq_true, Bool.not_eq_true', decide_eq_false_iff_not, Nat.not_lt] at h
  obtain ⟨⟨-, hle⟩, -, hbit⟩ := h
  have hpow : 2 ^ (i - bit) ≤ c := Nat.ge_two_pow_of_testBit hbit
  have hne : n ≠ 0 := by
    have := Nat.two_pow_pos (i - bit)
    omega
  have hlog : i - bit ≤ n.log2 := (Nat.le_log2 hne).mpr (Nat.le_trans hpow hc)
  refine ⟨hle, ?_⟩
  unfold bitCount
  rw [if_neg hne]
  omega

/-- The bit of a boolean. -/
theorem bit_of_one {bit i : ℕ} (h : (BitVec.ofNat 32 1 <<< bit).getLsbD i = true) : i = bit := by
  obtain ⟨hle, hlt⟩ := bit_of_count (n := 1) (Nat.le_refl 1) h
  have hone : bitCount 1 = 1 := rfl
  omega

/-! ## Writes -/

section Writes
variable {S : Schema} {m m' : Heap} {i : ℕ} {b x : Addr}

theorem Heap.Confined.refl (S : Schema) (m : Heap) (i : ℕ) (b : Addr) : m.Confined S i b m :=
  ⟨fun _ _ h => absurd rfl h, fun _ _ h => absurd rfl h, fun _ h => absurd rfl h,
    fun _ h => absurd rfl h, [], rfl, fun _ hx => absurd hx List.not_mem_nil⟩

/-- The structures of an occurrence are not the one it stands in. -/
theorem content_ne (hx : S.Content m i b x) (hb : b.block < m.fresh)
    (hcovers : ¬(S.element i).Covers) : x ≠ b := by
  rintro rfl
  rcases hx with hfresh | ⟨⟨hattribute, hsimple, hbounded⟩, j, -, hj⟩
  · omega
  · refine hcovers ⟨hattribute, hsimple, hbounded, ?_⟩
    have hoffset := congrArg Addr.offset hj
    unfold Addr.plus at hoffset
    dsimp only at hoffset
    omega

/-- Bits that are allotted are set. -/
theorem Heap.Confined.setAllotted (h : m.Confined S i b m') {c bit : ℕ}
    (hbits : ∀ j, (BitVec.ofNat 32 c <<< bit).getLsbD j = true → (S.element i).Allots j) :
    m.Confined S i b (m'.setCount b c bit) := by
  refine ⟨fun hcovers j hj => ?_, fun x hx => ?_, h.value, h.items, h.spills⟩
  · unfold Heap.setCount at hj
    dsimp only at hj
    rw [Function.update_self, BitVec.getLsbD_or] at hj
    cases hbit : (BitVec.ofNat 32 c <<< bit).getLsbD j with
    | true => exact hbits j hbit
    | false =>
      rw [hbit, Bool.or_false] at hj
      exact h.word hcovers j hj
  · unfold Heap.setCount
    dsimp only
    rw [Function.update_of_ne hx]
    exact h.flags x hx

/-- Bits of a structure of the occurrence are set. -/
theorem Heap.Confined.setContent (h : m.Confined S i b m') (hb : b.block < m.fresh)
    (hx : S.Content m i b x) (c bit : ℕ) : m.Confined S i b (m'.setCount x c bit) := by
  refine ⟨fun hcovers j hj => ?_, fun y hy hne => ?_, h.value, h.items, h.spills⟩
  · unfold Heap.setCount at hj
    dsimp only at hj
    rw [Function.update_of_ne (content_ne hx hb hcovers).symm] at hj
    exact h.word hcovers j hj
  · by_cases hyx : y = x
    · rw [hyx]
      exact hx
    · unfold Heap.setCount at hne
      dsimp only at hne
      rw [Function.update_of_ne hyx] at hne
      exact h.flags y hy hne

theorem Heap.Confined.setValue (h : m.Confined S i b m') {v : Option Value}
    (hx : S.Field i b x ∨ S.Content m i b x) :
    m.Confined S i b { m' with value := Function.update m'.value x v } := by
  refine ⟨h.word, h.flags, fun y hne => ?_, h.items, h.spills⟩
  by_cases hyx : y = x
  · rw [hyx]
    exact hx
  · dsimp only at hne
    rw [Function.update_of_ne hyx] at hne
    exact h.value y hne

/-- An item is added to a list. -/
theorem Heap.Confined.setItems (h : m.Confined S i b m') {l : List Addr} {fresh : ℕ}
    (hx : S.Field i b x ∨ S.Content m i b x) :
    m.Confined S i b { m' with fresh := fresh, items := Function.update m'.items x l } := by
  refine ⟨h.word, h.flags, h.value, fun y hne => ?_, h.spills⟩
  by_cases hyx : y = x
  · rw [hyx]
    exact hx
  · dsimp only at hne
    rw [Function.update_of_ne hyx] at hne
    exact h.items y hne

/-- A string is written beyond its container. -/
theorem Heap.Confined.setSpills (h : m.Confined S i b m') {l : List (Option Addr)}
    (hl : ∀ x ∈ l, ∃ y, x = some y ∧ S.Holds m i b y) :
    m.Confined S i b { m' with spills := l ++ m'.spills } := by
  obtain ⟨l', hspills, hl'⟩ := h.spills
  refine ⟨h.word, h.flags, h.value, h.items, l ++ l', ?_, fun x hx => ?_⟩
  · dsimp only
    rw [hspills, List.append_assoc]
  · rcases List.mem_append.mp hx with hx | hx
    · exact hl x hx
    · exact hl' x hx

/-- What a driver stores. -/
theorem Heap.Confined.store (h : m.Confined S i b m') (hb : b.block < m.fresh) {w : Stored}
    {flag : ℕ} (hvalue : S.Field i b x ∨ S.Content m i b x)
    (hflag : w = .flag → S.Content m i b x ∨ x = b ∧
      ∀ j, (BitVec.ofNat 32 1 <<< flag).getLsbD j = true → (S.element i).Allots j)
    (hspill : ∀ v spill, w = .spilled v spill →
      ∀ y ∈ spill.places x, ∃ z, y = some z ∧ S.Holds m i b z) :
    m.Confined S i b (m'.store x flag w) := by
  cases w with
  | nothing => exact h
  | flag =>
    rcases hflag rfl with hx | ⟨rfl, hbits⟩
    · exact h.setContent hb hx 1 flag
    · exact h.setAllotted hbits
  | value v => exact h.setValue hvalue
  | spilled v spill => exact (h.setValue hvalue).setSpills (hspill v spill rfl)

theorem Heap.store_fresh (m : Heap) (x : Addr) (flag : ℕ) (w : Stored) :
    (m.store x flag w).fresh = m.fresh := by
  cases w <;> rfl

end Writes

/-! ## The part of the stack above an occurrence -/

theorem Addr.plus_plus (a : Addr) (n k : ℕ) : (a.plus n).plus k = a.plus (n + k) := by
  unfold Addr.plus
  dsimp only
  rw [Nat.add_assoc]

theorem Addr.plus_zero (a : Addr) : a.plus 0 = a := rfl

section Nested
variable (S : Schema) (m : Heap) (i : ℕ) (b : Addr)

/-- The `k`-th occurrence of the item `t` is at `a`. -/
def StackItem.At (t : StackItem) (a : Addr) (k : ℕ) : Prop :=
  if (S.element t.se).unbounded then m.fresh ≤ a.block
  else a = t.base.plus ((S.element t.se).offset + k * S.objectElementSize (S.element t.se))

/-- The items are those above an occurrence of `i` in the structure at `b`, and the `k`-th
occurrence of the top is at `a`. -/
def Nested : List StackItem → Addr → ℕ → Prop
  | [], _, _ => False
  | [t], a, k => (t.se = i ∧ t.base = b) ∧ t.At S m a k
  | t :: u :: stack, a, k => Nested (u :: stack) t.base u.count ∧ t.At S m a k

variable {S m i b} {t u : StackItem} {l stack : List StackItem} {a : Addr} {k : ℕ}

theorem Nested.at (h : Nested S m i b (t :: l) a k) : t.At S m a k := by
  cases l with
  | nil => exact h.2
  | cons u l => exact h.2

/-- Only the entry and the structure of the top count. -/
theorem Nested.congr (h : Nested S m i b (t :: l) a k) (hse : u.se = t.se)
    (hbase : u.base = t.base) : Nested S m i b (u :: l) a k := by
  have hat : u.At S m a k := by
    have ht := h.at
    unfold StackItem.At at ht ⊢
    rwa [hse, hbase]
  cases l with
  | nil => exact ⟨⟨hse.trans h.1.1, hbase.trans h.1.2⟩, hat⟩
  | cons v l =>
    refine ⟨?_, hat⟩
    rw [hbase]
    exact h.1

/-- Another occurrence of the top. -/
theorem Nested.move {a' : Addr} {k' : ℕ} (h : Nested S m i b (t :: l) a k) (hat : t.At S m a' k') :
    Nested S m i b (t :: l) a' k' := by
  cases l with
  | nil => exact ⟨h.1, hat⟩
  | cons u l => exact ⟨h.1, hat⟩

/-- The size of a structure. -/
theorem Schema.objectElementSize_complex {se : SchemaElement} (h : se.simple = false) :
    S.objectElementSize se = (S.element se.index).offset := by
  unfold Schema.objectElementSize
  rw [h, if_neg Bool.false_ne_true]

theorem Schema.fieldWidth_complex {se : SchemaElement} (hunbounded : se.unbounded = false)
    (hattribute : se.isAttribute = false) (hsimple : se.simple = false) :
    S.fieldWidth se = se.max * S.objectElementSize se := by
  unfold Schema.fieldWidth
  rw [hunbounded, hattribute, hsimple, if_neg Bool.false_ne_true, if_neg]
  rintro (h | h)
  · exact Bool.false_ne_true h
  · exact Bool.false_ne_true h

/-- An occurrence lies in its field. -/
theorem occurrence_lt {n k j size : ℕ} (hk : k < n) (hj : j < size) : k * size + j < n * size := by
  have hmul : (k + 1) * size ≤ n * size := Nat.mul_le_mul_right size hk
  rw [Nat.succ_mul] at hmul
  omega

/-- **A structure that is being parsed** is one of those of the occurrence. -/
theorem Nested.object (hL : S.Laid) (h : Nested S m i b (t :: l) a k)
    (hgood : t.Good S) (hchain : Chained S t.se (l ++ stack))
    (hsimple : (S.element t.se).simple = false)
    (hk : (S.element t.se).unbounded = true ∨ k < (S.element t.se).max) {j : ℕ}
    (hj : j < S.objectElementSize (S.element t.se)) : S.Content m i b (a.plus j) := by
  induction l generalizing t a k j with
  | nil =>
    obtain ⟨⟨rfl, rfl⟩, hat⟩ := h
    unfold StackItem.At at hat
    cases hunbounded : (S.element t.se).unbounded with
    | true =>
      rw [if_pos hunbounded] at hat
      exact Or.inl hat
    | false =>
      rw [hunbounded, if_neg Bool.false_ne_true] at hat
      rw [hunbounded] at hk
      have hlt := occurrence_lt (hk.resolve_left Bool.false_ne_true) hj
      refine Or.inr ⟨⟨hgood.element, hsimple, hunbounded⟩,
        k * S.objectElementSize (S.element t.se) + j, ?_, ?_⟩
      · rwa [S.fieldWidth_complex hunbounded hgood.element hsimple]
      · rw [hat, Addr.plus_plus, Nat.add_assoc]
  | cons u l ih =>
    obtain ⟨hu, hat⟩ := h
    obtain ⟨hgoodu, hliveu, hsimpleu, hentry, hchainu⟩ := hchain
    unfold StackItem.At at hat
    cases hunbounded : (S.element t.se).unbounded with
    | true =>
      rw [if_pos hunbounded] at hat
      exact Or.inl hat
    | false =>
      rw [hunbounded, if_neg Bool.false_ne_true] at hat
      rw [hunbounded] at hk
      have hlt := occurrence_lt (hk.resolve_left Bool.false_ne_true) hj
      have hhead := hL.head _ (Parser.Shape.chained_n hchainu) hgoodu.element hsimpleu
      have hfits := hL.fits _ _ hhead hentry
      rw [S.fieldWidth_complex hunbounded hgood.element hsimple] at hfits
      rw [hat, Addr.plus_plus]
      refine ih hu hgoodu hchainu hsimpleu hliveu ?_
      rw [S.objectElementSize_complex hsimpleu]
      omega

/-- An occurrence in which a structure is being parsed is one. -/
theorem Nested.complex (h : Nested S m i b (t :: l) a k) (hgood : t.Good S)
    (hchain : Chained S t.se (l ++ stack)) (hsimple : (S.element t.se).simple = false) :
    (S.element i).isAttribute = false ∧ (S.element i).simple = false := by
  induction l generalizing t a k with
  | nil =>
    obtain ⟨⟨rfl, -⟩, -⟩ := h
    exact ⟨hgood.element, hsimple⟩
  | cons u l ih =>
    obtain ⟨hu, -⟩ := h
    obtain ⟨hgoodu, -, hsimpleu, -, hchainu⟩ := hchain
    exact ih hu hgoodu hchainu hsimpleu

/-- A field of a structure that is being parsed. -/
theorem Nested.field (hL : S.Laid) (h : Nested S m i b (t :: l) a k)
    (hgood : t.Good S) (hchain : Chained S t.se (l ++ stack))
    (hsimple : (S.element t.se).simple = false)
    (hk : (S.element t.se).unbounded = true ∨ k < (S.element t.se).max) {e j : ℕ}
    (hentry : S.Entry (S.element t.se).index e) (hj : j < S.fieldWidth (S.element e)) :
    S.Content m i b (a.plus ((S.element e).offset + j)) := by
  refine h.object hL hgood hchain hsimple hk ?_
  have hhead := hL.head _ (Parser.Shape.chained_n hchain) hgood.element hsimple
  have hfits := hL.fits _ _ hhead hentry
  rw [S.objectElementSize_complex hsimple]
  omega

/-- The flag word of a structure that is being parsed. -/
theorem Nested.word (hL : S.Laid) (h : Nested S m i b (t :: l) a k)
    (hgood : t.Good S) (hchain : Chained S t.se (l ++ stack))
    (hsimple : (S.element t.se).simple = false)
    (hk : (S.element t.se).unbounded = true ∨ k < (S.element t.se).max) {e : ℕ}
    (hentry : S.Entry (S.element t.se).index e) : S.Content m i b a := by
  have hhead := hL.head _ (Parser.Shape.chained_n hchain) hgood.element hsimple
  have hzero := h.object hL hgood hchain hsimple hk (j := 0)
    (by rw [S.objectElementSize_complex hsimple]; exact hL.word _ _ hhead hentry)
  rwa [Addr.plus_zero] at hzero

end Nested

/-! ## Steps -/

namespace Parser
variable {ρ : Type} {S : Schema} {d : ParserDriver ρ} {rebuffer : ρ → ρ → Prop}
  {Ready : Parser ρ → Prop} {p₀ p q : Parser ρ} {t : StackItem} {l : List StackItem}

/-- The parser is at the top of the part of the stack above the occurrence that began at `p₀`. -/
def Inside (S : Schema) (p₀ p : Parser ρ) : Prop :=
  ∃ t l, p.stack = t :: (l ++ p₀.stack) ∧
    match p.state with
    | .parseElement => Nested S p₀.heap p₀.se p₀.base (t :: l) p.base t.count
    | .parseAttribute => Nested S p₀.heap p₀.se p₀.base (t :: l) p.base t.count
    | .parseNext => Nested S p₀.heap p₀.se p₀.base (t :: l) p.base t.count
    | .parseValue => Nested S p₀.heap p₀.se p₀.base (t :: l) p.base t.count
    | .parseEnd => Nested S p₀.heap p₀.se p₀.base (t :: l) p.base t.count
    | .parseSequence => Nested S p₀.heap p₀.se p₀.base (t :: l) p.base (t.count - 1)
    | .sequenceEnd => Nested S p₀.heap p₀.se p₀.base (t :: l) p.base (t.count - 1)
    | _ => False

/-- The parser is in the value of the attribute at which `p₀` is. -/
def InValue (p₀ p : Parser ρ) : Prop :=
  p.state = .parseAttribute ∧ p.stack = p₀.stack ∧ p.se = p₀.se ∧ p.base = p₀.base

/-- **What holds while an occurrence is parsed.** -/
structure Within (S : Schema) (p₀ p : Parser ρ) : Prop where
  place : Inside S p₀ p ∨ p₀.InValue p ∨ p₀.Over p ∨ p.state = .parseInvalid ∨ p.state = .beyond
  confined : p₀.heap.Confined S p₀.se p₀.base p.heap
  fresh : p₀.heap.fresh ≤ p.heap.fresh

theorem Inside.keeps (h : Inside S p₀ p) (hstack : q.stack = p.stack) (hbase : q.base = p.base)
    (hstate : q.state = p.state) : Inside S p₀ q := by
  obtain ⟨t, l, hp, hnested⟩ := h
  refine ⟨t, l, hstack.trans hp, ?_⟩
  rw [hbase, hstate]
  exact hnested

/-- The occurrence of an element that is entered. -/
theorem parseElement_inside (hstack : q.stack = t :: (l ++ p₀.stack))
    (h : Nested S p₀.heap p₀.se p₀.base (t :: l) q.base t.count) :
    Inside S p₀ (parseElement S q t.se) := by
  unfold parseElement
  split
  · exact ⟨t, l, hstack, h⟩
  · exact ⟨t, l, hstack, h⟩

theorem parseElement_heap (q : Parser ρ) (i : ℕ) : (parseElement S q i).heap = q.heap := by
  unfold parseElement
  split <;> rfl

/-- A list has its own field. -/
theorem fieldWidth_unbounded {se : SchemaElement} (h : se.unbounded = true) :
    S.fieldWidth se = 8 := if_pos h

/-- PARSE_ELEMENT pushes an element on the part of the stack. -/
theorem stepElement_within (hstack : p.stack = l ++ p₀.stack)
    (hnested : ∀ u : StackItem, u.se = p.se → u.base = p.base → ∀ a k, u.At S p₀.heap a k →
      Nested S p₀.heap p₀.se p₀.base (u :: l) a k)
    (hfield : ∀ j < S.fieldWidth (S.element p.se),
      S.Field p₀.se p₀.base (p.base.plus ((S.element p.se).offset + j)) ∨
        S.Content p₀.heap p₀.se p₀.base (p.base.plus ((S.element p.se).offset + j)))
    (hconfined : p₀.heap.Confined S p₀.se p₀.base p.heap) (hfresh : p₀.heap.fresh ≤ p.heap.fresh)
    (helement : (S.element p.se).isAttribute = false) :
    Within S p₀ (stepElement S p).parser := by
  unfold stepElement
  dsimp only
  rw [helement, if_neg Bool.false_ne_true]
  by_cases hfull : p.stack.length = maxStack
  · rw [if_pos hfull]
    exact ⟨Or.inr (Or.inr (Or.inr (Or.inl rfl))), hconfined, hfresh⟩
  · rw [if_neg hfull]
    cases hunbounded : (S.element p.se).unbounded with
    | true =>
      rw [if_pos rfl]
      refine ⟨Or.inl (parseElement_inside (l := l)
        (t := ⟨p.se, p.base, S.objectElementSize (S.element p.se), 0, 0, []⟩) ?_ ?_), ?_, ?_⟩
      · exact congrArg _ hstack
      · refine hnested _ rfl rfl _ 0 ?_
        unfold StackItem.At
        rw [if_pos hunbounded]
        exact hfresh
      · show p₀.heap.Confined S p₀.se p₀.base (parseElement S _ _).heap
        rw [parseElement_heap]
        refine hconfined.setItems ?_
        have hzero := hfield 0 (by rw [fieldWidth_unbounded hunbounded]; exact Nat.succ_pos 7)
        exact hzero
      · show _ ≤ (parseElement S _ _).heap.fresh
        rw [parseElement_heap]
        exact Nat.le_succ_of_le hfresh
    | false =>
      rw [if_neg Bool.false_ne_true]
      refine ⟨Or.inl (parseElement_inside (l := l)
        (t := ⟨p.se, p.base, S.objectElementSize (S.element p.se), 0,
          (S.element p.se).max - (S.element p.se).min, []⟩) ?_ ?_), ?_, ?_⟩
      · exact congrArg _ hstack
      · refine hnested _ rfl rfl _ 0 ?_
        unfold StackItem.At
        rw [hunbounded, if_neg Bool.false_ne_true, Nat.zero_mul]
        rfl
      · show p₀.heap.Confined S p₀.se p₀.base (parseElement S _ _).heap
        rw [parseElement_heap]
        exact hconfined
      · show _ ≤ (parseElement S _ _).heap.fresh
        rw [parseElement_heap]
        exact hfresh

/-- An attribute has a field. -/
theorem fieldWidth_attribute (hS : S.Generated) {e : ℕ} (h : (S.element e).isAttribute = true) :
    0 < S.fieldWidth (S.element e) := by
  obtain ⟨-, hmax, hunbounded⟩ := hS.attributes e h
  unfold Schema.fieldWidth
  rw [hunbounded, if_neg Bool.false_ne_true, if_pos (Or.inl h), hmax, Nat.one_mul]
  exact Nat.le_max_left 1 _

/-- The presence of an attribute has a bit. -/
theorem allots_presence (hS : S.Generated) {e : ℕ} (hattribute : (S.element e).isAttribute = true)
    (h : (S.element e).min = 0 ∧ (S.element e).isPointer = false) {j : ℕ}
    (hj : (BitVec.ofNat 32 1 <<< (S.element e).bit).getLsbD j = true) :
    (S.element e).Allots j := by
  obtain ⟨-, hmax, hunbounded⟩ := hS.attributes e hattribute
  obtain ⟨hle, hlt⟩ := bit_of_count (n := 1) (Nat.le_refl 1) hj
  refine ⟨fun hpointer => ?_, hunbounded, hle, ?_⟩
  · exact Bool.false_ne_true (h.2.symm.trans hpointer.2)
  · rw [hmax, h.1]
    exact Nat.lt_of_lt_of_le hlt (Nat.le_add_right _ _)

/-- A boolean attribute has a bit behind the one of its presence. -/
theorem allots_attribute (hS : S.Generated) {e : ℕ} (hattribute : (S.element e).isAttribute = true)
    (hboolean : (S.element e).xsType = .boolean) {j : ℕ}
    (hj : (BitVec.ofNat 32 1 <<< (S.element e).attrFlag).getLsbD j = true) :
    (S.element e).Allots j := by
  obtain ⟨hmin, hmax, hunbounded⟩ := hS.attributes e hattribute
  have hpointer : (S.element e).isPointer = false := by
    unfold SchemaElement.isPointer
    rw [hboolean]
    rfl
  have hj := bit_of_one hj
  have hone : bitCount 1 = 1 := rfl
  refine ⟨fun h => Bool.false_ne_true (hpointer.symm.trans h.2), hunbounded, ?_⟩
  rw [if_pos ⟨Or.inl hattribute, hboolean⟩, hmax]
  unfold SchemaElement.attrFlag at hj
  by_cases hzero : (S.element e).min = 0
  · rw [if_pos ⟨hzero, hpointer⟩] at hj
    rw [hzero, Nat.sub_zero, hone]
    omega
  · rw [if_neg fun h => hzero h.1] at hj
    omega

/-- PARSE_ELEMENT, at an attribute of a structure. -/
theorem stepElement_inside (hL : S.Laid) (hold : p₀.base.block < p₀.heap.fresh)
    (hstate : p.state = .parseElement) (hshape : p.Shape S) (hin : Inside S p₀ p)
    (hconfined : p₀.heap.Confined S p₀.se p₀.base p.heap) (hfresh : p₀.heap.fresh ≤ p.heap.fresh) :
    Within S p₀ (stepElement S p).parser := by
  obtain ⟨t, l, hstack, hnested⟩ := hin
  rw [hstate] at hnested
  unfold Shape at hshape
  rw [hstate, hstack] at hshape
  obtain ⟨hgood, hlive, hsimple, hentry, hchain⟩ := hshape
  cases hattribute : (S.element p.se).isAttribute with
  | true =>
    have hword := hnested.word hL hgood hchain hsimple hlive hentry
    unfold stepElement
    dsimp only
    rw [hattribute, if_pos rfl]
    split
    · exact ⟨Or.inl ⟨t, l, hstack, hnested⟩, hconfined.setContent hold hword _ _, hfresh⟩
    · exact ⟨Or.inl ⟨t, l, hstack, hnested⟩, hconfined, hfresh⟩
  | false =>
    refine stepElement_within (l := t :: l) hstack ?_ ?_ hconfined hfresh hattribute
    · intro u hse hbase a k hat
      refine ⟨?_, hat⟩
      rw [hbase]
      exact hnested
    · exact fun j hj => Or.inr (hnested.field hL hgood hchain hsimple hlive hentry hj)

/-- PARSE_ELEMENT, where an occurrence begins. -/
theorem stepElement_begins (hS : S.Generated) :
    Within S p₀ (stepElement S p₀).parser := by
  cases hattribute : (S.element p₀.se).isAttribute with
  | true =>
    have hrefl := Heap.Confined.refl S p₀.heap p₀.se p₀.base
    unfold stepElement
    dsimp only
    rw [hattribute, if_pos rfl]
    split
    · rename_i hflag
      exact ⟨Or.inr (Or.inl ⟨rfl, rfl, rfl, rfl⟩),
        hrefl.setAllotted fun j hj => allots_presence hS hattribute hflag hj, Nat.le_refl _⟩
    · exact ⟨Or.inr (Or.inl ⟨rfl, rfl, rfl, rfl⟩), hrefl, Nat.le_refl _⟩
  | false =>
    refine stepElement_within (l := []) rfl ?_ ?_ (Heap.Confined.refl S _ _ _) (Nat.le_refl _)
      hattribute
    · exact fun u hse hbase a k hat => ⟨⟨hse, hbase⟩, hat⟩
    · exact fun j hj => Or.inl ⟨j, hj, rfl⟩

/-- PARSE_ATTRIBUTE, in the value of the attribute that began. -/
theorem inValue_within (hS : S.Generated) (hL : S.Laid) (hw : d.Walks S rebuffer Ready)
    (hold : p₀.base.block < p₀.heap.fresh) (hshape : p.Shape S) (hcontains : p.Contains S d)
    (hin : p₀.InValue p)
    (hconfined : p₀.heap.Confined S p₀.se p₀.base p.heap) (hfresh : p₀.heap.fresh ≤ p.heap.fresh) :
    Within S p₀ (step S d p).parser := by
  obtain ⟨hstate, hstack, hpse, hbase⟩ := hin
  unfold Shape at hshape
  rw [hstate] at hshape
  obtain ⟨hchain, hattribute, hflag⟩ := hshape
  obtain ⟨hse, hfail, hboolean⟩ := hw.attrValue p.toFront
  have hstored : p₀.heap.Confined S p₀.se p₀.base (p.heap.store
      (p.base.plus (S.element p.se).offset) p.flag
      (d.parseAttrValue p.toFront).2.1) := by
    refine hconfined.store hold (Or.inl ⟨0, ?_, ?_⟩) (fun hw => Or.inr ⟨?_, ?_⟩) ?_
    · rw [← hpse]
      exact fieldWidth_attribute hS hattribute
    · rw [hbase, hpse]
      rfl
    · have hoffset := (hL.boolean p.se (Shape.chained_n hchain) (hboolean hw) (Or.inl hattribute)).1
      rw [hoffset, hbase]
      rfl
    · intro j hj
      rw [hflag] at hj
      rw [← hpse]
      exact allots_attribute hS hattribute (hboolean hw) hj
    · intro v spill hspill y hy
      obtain ⟨z, rfl, hz⟩ := hcontains.1 hstate v spill hspill y hy
      rw [hpse, hbase] at hz
      exact ⟨z, rfl, Or.inl hz⟩
  have hstays : p₀.heap.fresh ≤ (p.heap.store
      (p.base.plus (S.element p.se).offset) p.flag
      (d.parseAttrValue p.toFront).2.1).fresh := by
    rw [Heap.store_fresh]
    exact hfresh
  unfold step
  rw [hstate]
  dsimp only
  split
  · exact ⟨Or.inr (Or.inr (Or.inl ⟨rfl, hstack⟩)), hstored, hstays⟩
  · rename_i hok
    refine ⟨?_, hstored, hstays⟩
    rcases hfail (Bool.eq_false_iff.mpr hok) with hsame | hinvalid
    · exact Or.inr (Or.inl ⟨hsame.trans hstate, hstack, hse.trans hpse, hbase⟩)
    · exact Or.inr (Or.inr (Or.inr (Or.inl hinvalid)))

/-- PARSE_ATTRIBUTE, in a structure of the occurrence. -/
theorem parseAttribute_inside (hS : S.Generated) (hL : S.Laid) (hw : d.Walks S rebuffer Ready)
    (hold : p₀.base.block < p₀.heap.fresh) (hstate : p.state = .parseAttribute)
    (hshape : p.Shape S) (hcontains : p.Contains S d) (hin : Inside S p₀ p)
    (hconfined : p₀.heap.Confined S p₀.se p₀.base p.heap) (hfresh : p₀.heap.fresh ≤ p.heap.fresh) :
    Within S p₀ (step S d p).parser := by
  obtain ⟨t, l, hstack, hnested⟩ := id hin
  rw [hstate] at hnested
  unfold Shape at hshape
  rw [hstate, hstack] at hshape
  obtain ⟨⟨hgood, hlive, hsimple, hentry, hchain⟩, hattribute, hflag⟩ := hshape
  obtain ⟨hse, hfail, hboolean⟩ := hw.attrValue p.toFront
  have hstored : p₀.heap.Confined S p₀.se p₀.base (p.heap.store
      (p.base.plus (S.element p.se).offset) p.flag
      (d.parseAttrValue p.toFront).2.1) := by
    refine hconfined.store hold (Or.inr ?_) (fun hw => Or.inl ?_) ?_
    · exact hnested.field hL hgood hchain hsimple hlive hentry (fieldWidth_attribute hS hattribute)
    · have hoffset := (hL.boolean p.se (Or.inr hentry.2) (hboolean hw) (Or.inl hattribute)).1
      rw [hoffset, Addr.plus_zero]
      exact hnested.word hL hgood hchain hsimple hlive hentry
    · intro v spill hspill y hy
      obtain ⟨z, rfl, j, hj, rfl⟩ := hcontains.1 hstate v spill hspill y hy
      exact ⟨_, rfl, Or.inr ⟨hnested.complex hgood hchain hsimple,
        hnested.field hL hgood hchain hsimple hlive hentry hj⟩⟩
  have hstays : p₀.heap.fresh ≤ (p.heap.store
      (p.base.plus (S.element p.se).offset) p.flag
      (d.parseAttrValue p.toFront).2.1).fresh := by
    rw [Heap.store_fresh]
    exact hfresh
  unfold step
  rw [hstate]
  dsimp only
  split
  · exact ⟨Or.inl ⟨t, l, hstack, hnested⟩, hstored, hstays⟩
  · rename_i hok
    refine ⟨?_, hstored, hstays⟩
    rcases hfail (Bool.eq_false_iff.mpr hok) with hsame | hinvalid
    · exact Or.inl (hin.keeps rfl rfl hsame)
    · exact Or.inr (Or.inr (Or.inr (Or.inl hinvalid)))

theorem objectElementSize_boolean {se : SchemaElement} (hsimple : se.simple = true)
    (hboolean : se.xsType = .boolean) : S.objectElementSize se = 0 := by
  unfold Schema.objectElementSize
  rw [if_pos hsimple, hboolean]

theorem fieldWidth_simple {se : SchemaElement} (hunbounded : se.unbounded = false)
    (hsimple : se.simple = true) :
    S.fieldWidth se = se.max * Nat.max 1 (S.objectElementSize { se with simple := true }) := by
  unfold Schema.fieldWidth
  rw [hunbounded, if_neg Bool.false_ne_true, if_pos (Or.inr hsimple)]

/-- A value lies in its field. -/
theorem value_lt {se : SchemaElement} (hunbounded : se.unbounded = false)
    (hsimple : se.simple = true) {k : ℕ} (hk : k < se.max) :
    k * S.objectElementSize se < S.fieldWidth se := by
  have hsame : ({ se with simple := true } : SchemaElement) = se := by rw [← hsimple]
  rw [fieldWidth_simple hunbounded hsimple, hsame]
  have hle : S.objectElementSize se ≤ Nat.max 1 (S.objectElementSize se) := Nat.le_max_right 1 _
  have hone : 0 < Nat.max 1 (S.objectElementSize se) := Nat.le_max_left 1 _
  calc k * S.objectElementSize se
      ≤ k * Nat.max 1 (S.objectElementSize se) := Nat.mul_le_mul_left k hle
    _ < se.max * Nat.max 1 (S.objectElementSize se) := Nat.mul_lt_mul_of_pos_right hk hone

/-- Every boolean value has a bit behind those of the count. -/
theorem allots_value {e k : ℕ} (hsimple : (S.element e).simple = true)
    (hboolean : (S.element e).xsType = .boolean) (hunbounded : (S.element e).unbounded = false)
    (hk : k < (S.element e).max) {j : ℕ}
    (hj : (BitVec.ofNat 32 1 <<< S.flagAt e k).getLsbD j = true) : (S.element e).Allots j := by
  have hpointer : (S.element e).isPointer = false := by
    unfold SchemaElement.isPointer
    rw [hboolean]
    rfl
  have hj := bit_of_one hj
  rw [Schema.flagAt_bounded hunbounded] at hj
  refine ⟨fun h => Bool.false_ne_true (hpointer.symm.trans h.2), hunbounded, ?_⟩
  rw [if_pos ⟨Or.inr hsimple, hboolean⟩]
  have hzero : bitCount 0 = 0 := rfl
  by_cases hdiff : (S.element e).max - (S.element e).min = 0
  · rw [if_neg fun h => h.1 hdiff] at hj
    omega
  · rw [if_pos ⟨hdiff, fun h => Bool.false_ne_true (hpointer.symm.trans h.2)⟩] at hj
    omega

/-- PARSE_VALUE: the value of an occurrence of the top. -/
theorem parseValue_inside (hL : S.Laid) (hw : d.Walks S rebuffer Ready)
    (hold : p₀.base.block < p₀.heap.fresh) (hstate : p.state = .parseValue)
    (hshape : p.Shape S) (hcontains : p.Contains S d) (hin : Inside S p₀ p)
    (hconfined : p₀.heap.Confined S p₀.se p₀.base p.heap) (hfresh : p₀.heap.fresh ≤ p.heap.fresh) :
    Within S p₀ (step S d p).parser := by
  obtain ⟨t, l, hstack, hnested⟩ := id hin
  rw [hstate] at hnested
  unfold Shape at hshape
  rw [hstate, hstack] at hshape
  obtain ⟨hgood, hlive, hchain, hsimple, hpse, hflag⟩ := hshape
  obtain ⟨hse, hfail, hboolean⟩ := hw.value p.toFront
  have hat := hnested.at
  unfold StackItem.At at hat
  -- What is written beyond the container is in the field of the entry.
  have hspilled : ∀ v spill, (d.parseValue p.toFront).2.1 = .spilled v spill →
      ∀ y ∈ spill.places p.base, ∃ z, y = some z ∧ S.Holds p₀.heap p₀.se p₀.base z := by
    intro v spill hspill y hy
    obtain ⟨z, rfl, hz⟩ := hcontains.2 hstate t _ hstack v spill hspill y hy
    cases l with
    | nil =>
      obtain ⟨⟨hti, htb⟩, -⟩ := hnested
      rw [hti, htb] at hz
      exact ⟨z, rfl, Or.inl hz⟩
    | cons u l =>
      obtain ⟨hu, -⟩ := hnested
      obtain ⟨hgoodu, hliveu, hsimpleu, hentry, hchainu⟩ := hchain
      obtain ⟨j, hj, rfl⟩ := hz
      exact ⟨_, rfl, Or.inr ⟨hu.complex hgoodu hchainu hsimpleu,
        hu.field hL hgoodu hchainu hsimpleu hliveu hentry hj⟩⟩
  have hstored : p₀.heap.Confined S p₀.se p₀.base
      (p.heap.store p.base p.flag (d.parseValue p.toFront).2.1) := by
    cases hunbounded : (S.element t.se).unbounded with
    | true =>
      rw [if_pos hunbounded] at hat
      exact hconfined.store hold (Or.inr (Or.inl hat)) (fun _ => Or.inl (Or.inl hat)) hspilled
    | false =>
      rw [hunbounded, if_neg Bool.false_ne_true] at hat
      have hk : t.count < (S.element t.se).max :=
        hlive.resolve_left fun h => Bool.false_ne_true (hunbounded.symm.trans h)
      have hlt := value_lt (S := S) hunbounded hsimple hk
      have hbit : (d.parseValue p.toFront).2.1 = .flag →
          (S.element t.se).xsType = .boolean ∧ p.base = t.base := by
        intro hw
        have htype : (S.element t.se).xsType = .boolean := by
          have h := hboolean hw
          rwa [show p.toFront.se = t.se from hpse] at h
        refine ⟨htype, ?_⟩
        rw [hat, (hL.boolean t.se (Shape.chained_n hchain) htype (Or.inr hsimple)).1,
          objectElementSize_boolean hsimple htype]
        rfl
      cases l with
      | nil =>
        obtain ⟨⟨hti, htb⟩, -⟩ := hnested
        refine hconfined.store hold (Or.inl ?_) (fun hw => Or.inr ?_) hspilled
        · rw [← hti, ← htb]
          exact ⟨_, hlt, hat⟩
        · obtain ⟨htype, hbase⟩ := hbit hw
          refine ⟨hbase.trans htb, fun j hj => ?_⟩
          rw [hflag] at hj
          rw [← hti]
          exact allots_value hsimple htype hunbounded hk hj
      | cons u l =>
        obtain ⟨hu, -⟩ := hnested
        obtain ⟨hgoodu, hliveu, hsimpleu, hentry, hchainu⟩ := hchain
        refine hconfined.store hold (Or.inr ?_) (fun hw => Or.inl ?_) hspilled
        · rw [hat]
          exact hu.field hL hgoodu hchainu hsimpleu hliveu hentry hlt
        · rw [(hbit hw).2]
          exact hu.word hL hgoodu hchainu hsimpleu hliveu hentry
  have hstays : p₀.heap.fresh ≤
      (p.heap.store p.base p.flag (d.parseValue p.toFront).2.1).fresh := by
    rw [Heap.store_fresh]
    exact hfresh
  unfold step
  rw [hstate]
  dsimp only
  split
  · exact ⟨Or.inl ⟨t, l, hstack, hnested⟩, hstored, hstays⟩
  · rename_i hok
    refine ⟨?_, hstored, hstays⟩
    rcases hfail (Bool.eq_false_iff.mpr hok) with hsame | hinvalid
    · exact Or.inl (hin.keeps rfl rfl hsame)
    · exact Or.inr (Or.inr (Or.inr (Or.inl hinvalid)))

/-- PARSE_NEXT leaves the object alone. -/
theorem parseNext_inside (hw : d.Walks S rebuffer Ready) (hstate : p.state = .parseNext)
    (hshape : p.Shape S) (hready : Ready p) (hin : Inside S p₀ p)
    (hconfined : p₀.heap.Confined S p₀.se p₀.base p.heap) (hfresh : p₀.heap.fresh ≤ p.heap.fresh) :
    Within S p₀ (step S d p).parser := by
  have hnext := hw.next p hstate hshape hready
  obtain ⟨t, l, hstack, hnested⟩ := id hin
  rw [hstate] at hnested
  have hresult : Within S p₀ (p.withFront (d.parseNext p.stack p.toFront).2) := by
    refine ⟨?_, hconfined, hfresh⟩
    generalize (d.parseNext p.stack p.toFront).2 = f at hnext ⊢
    cases hf : f.state with
    | parseElement => exact Or.inl ⟨t, l, hstack, by unfold withFront; dsimp only; rwa [hf]⟩
    | parseNext => exact Or.inl ⟨t, l, hstack, by unfold withFront; dsimp only; rwa [hf]⟩
    | parseEnd => exact Or.inl ⟨t, l, hstack, by unfold withFront; dsimp only; rwa [hf]⟩
    | parseInvalid => exact Or.inr (Or.inr (Or.inr (Or.inl hf)))
    | _ =>
      rw [hf] at hnext
      exact hnext.elim
  unfold step
  rw [hstate]
  dsimp only
  split <;> exact hresult

/-- PARSE_END counts an occurrence. -/
theorem parseEnd_inside (hw : d.Walks S rebuffer Ready) (hstate : p.state = .parseEnd)
    (hin : Inside S p₀ p) (hconfined : p₀.heap.Confined S p₀.se p₀.base p.heap)
    (hfresh : p₀.heap.fresh ≤ p.heap.fresh) : Within S p₀ (step S d p).parser := by
  obtain ⟨t, l, hstack, hnested⟩ := id hin
  rw [hstate] at hnested
  obtain ⟨hse, hfail⟩ := hw.end_ t.se p.toFront
  unfold step
  rw [hstate, hstack]
  dsimp only
  split
  · refine ⟨Or.inl ⟨{ t with count := t.count + 1 }, l, rfl, ?_⟩, hconfined, hfresh⟩
    have hcounted : Nested S p₀.heap p₀.se p₀.base ({ t with count := t.count + 1 } :: l) p.base
        (t.count + 1 - 1) := hnested.congr rfl rfl
    unfold ParseStep.parser withFront
    dsimp only
    split_ifs
    · exact hcounted
    · exact hcounted
  · rename_i hok
    refine ⟨?_, hconfined, hfresh⟩
    rcases hfail (Bool.eq_false_iff.mpr hok) with hsame | hinvalid
    · exact Or.inl (hin.keeps rfl rfl hsame)
    · exact Or.inr (Or.inr (Or.inr (Or.inl hinvalid)))

/-- PARSE_SEQUENCE, at another occurrence of the top. -/
theorem stepSequence_inside (hL : S.Laid) (hstack : p.stack = t :: (l ++ p₀.stack))
    (hgood : t.Good S) (hchain : Chained S t.se (l ++ p₀.stack)) (hcount : 0 < t.count)
    (hnested : Nested S p₀.heap p₀.se p₀.base (t :: l) p.base (t.count - 1))
    (hconfined : p₀.heap.Confined S p₀.se p₀.base p.heap) (hfresh : p₀.heap.fresh ≤ p.heap.fresh) :
    Within S p₀ (stepSequence S p t).parser := by
  have hat := hnested.at
  unfold StackItem.At at hat
  unfold stepSequence
  dsimp only
  cases hunbounded : (S.element t.se).unbounded with
  | true =>
    rw [if_pos rfl]
    refine ⟨Or.inl (parseElement_inside hstack (hnested.move ?_)), ?_, ?_⟩
    · unfold StackItem.At
      rw [if_pos hunbounded]
      exact hfresh
    · show p₀.heap.Confined S p₀.se p₀.base (parseElement S _ _).heap
      rw [parseElement_heap]
      refine hconfined.setItems ?_
      have hlt : 0 < S.fieldWidth (S.element t.se) := by
        rw [fieldWidth_unbounded hunbounded]
        exact Nat.succ_pos 7
      cases l with
      | nil =>
        obtain ⟨⟨hti, htb⟩, -⟩ := hnested
        rw [← hti, ← htb]
        exact Or.inl ⟨0, hlt, rfl⟩
      | cons u l =>
        obtain ⟨hu, -⟩ := hnested
        obtain ⟨hgoodu, hliveu, hsimpleu, hentry, hchainu⟩ := hchain
        exact Or.inr (hu.field hL hgoodu hchainu hsimpleu hliveu hentry hlt)
    · show _ ≤ (parseElement S _ _).heap.fresh
      rw [parseElement_heap]
      exact Nat.le_succ_of_le hfresh
  | false =>
    rw [if_neg Bool.false_ne_true]
    rw [hunbounded, if_neg Bool.false_ne_true] at hat
    split
    · refine ⟨Or.inl (parseElement_inside hstack (hnested.move ?_)), ?_, ?_⟩
      · unfold StackItem.At
        rw [hunbounded, if_neg Bool.false_ne_true]
        show p.base.plus t.size = _
        rw [hat, Addr.plus_plus, hgood.size, Nat.add_assoc, ← Nat.succ_mul, Nat.succ_eq_add_one,
          Nat.sub_add_cancel hcount]
      · show p₀.heap.Confined S p₀.se p₀.base (parseElement S _ _).heap
        rw [parseElement_heap]
        exact hconfined
      · show _ ≤ (parseElement S _ _).heap.fresh
        rw [parseElement_heap]
        exact hfresh
    · exact ⟨Or.inr (Or.inr (Or.inr (Or.inl rfl))), hconfined, hfresh⟩

theorem parseSequence_inside (hL : S.Laid) (hw : d.Walks S rebuffer Ready)
    (hstate : p.state = .parseSequence) (hshape : p.Shape S) (hin : Inside S p₀ p)
    (hconfined : p₀.heap.Confined S p₀.se p₀.base p.heap) (hfresh : p₀.heap.fresh ≤ p.heap.fresh) :
    Within S p₀ (step S d p).parser := by
  obtain ⟨t, l, hstack, hnested⟩ := id hin
  rw [hstate] at hnested
  unfold Shape at hshape
  rw [hstate, hstack] at hshape
  obtain ⟨hgood, hlive, hchain, hcount, -⟩ := hshape
  obtain ⟨-, hfail⟩ := hw.sequence t p.toFront
  unfold step
  rw [hstate, hstack]
  dsimp only
  split
  · exact stepSequence_inside hL hstack hgood hchain hcount hnested hconfined hfresh
  · rename_i hok
    have hresult : Within S p₀ (p.withFront (d.parseSequence t p.toFront).2) := by
      refine ⟨?_, hconfined, hfresh⟩
      rcases hfail (Bool.eq_false_iff.mpr hok) with hsame | hinvalid | hbeyond | ⟨hend, -⟩
      · exact Or.inl (hin.keeps rfl rfl hsame)
      · exact Or.inr (Or.inr (Or.inr (Or.inl hinvalid)))
      · exact Or.inr (Or.inr (Or.inr (Or.inr hbeyond)))
      · refine Or.inl ⟨t, l, hstack, ?_⟩
        unfold withFront
        dsimp only
        rw [hend]
        exact hnested
    split <;> exact hresult

/-- Bits that are set already. -/
theorem setCount_same {m : Heap} {a : Addr} {c bit : ℕ}
    (h : m.flags a ||| BitVec.ofNat 32 c <<< bit = m.flags a) : m.setCount a c bit = m := by
  unfold Heap.setCount
  rw [h, Function.update_eq_self]

/-- SEQUENCE_END writes the count. -/
theorem sequenceEnd_inside (hL : S.Laid) (hold : p₀.base.block < p₀.heap.fresh)
    (hstate : p.state = .sequenceEnd) (hshape : p.Shape S) (hmeets : p.Meets S)
    (hin : Inside S p₀ p) (hconfined : p₀.heap.Confined S p₀.se p₀.base p.heap)
    (hfresh : p₀.heap.fresh ≤ p.heap.fresh) : Within S p₀ (step S d p).parser := by
  obtain ⟨t, l, hstack, hnested⟩ := hin
  rw [hstate] at hnested
  unfold Shape at hshape
  rw [hstate, hstack] at hshape
  obtain ⟨hgood, hchain, hmin, hmost⟩ := hshape
  have hcounted : p₀.heap.Confined S p₀.se p₀.base (if t.all ≠ 0 then
      p.heap.setCount t.base (t.count - (S.element t.se).min) (S.element t.se).bit
      else p.heap) := by
    split
    · rename_i hall
      cases l with
      | nil =>
        obtain ⟨⟨hti, htb⟩, -⟩ := hnested
        rw [hgood.all] at hall
        have hunbounded : (S.element t.se).unbounded = false := by
          rw [← Bool.not_eq_true]
          intro h
          exact hall (if_pos h)
        by_cases hpointer : (S.element t.se).simple = true ∧ (S.element t.se).isPointer = true
        · rw [setCount_same (hmeets hstate t _ hstack hpointer.1 hpointer.2 hunbounded)]
          exact hconfined
        · rw [htb]
          refine hconfined.setAllotted fun j hj => ?_
          have hle : t.count - (S.element t.se).min ≤
              (S.element t.se).max - (S.element t.se).min := by
            have hcount := hmost.resolve_left fun h =>
              Bool.false_ne_true (hunbounded.symm.trans h)
            omega
          obtain ⟨hlow, hhigh⟩ := bit_of_count hle hj
          rw [← hti]
          refine ⟨?_, hunbounded, hlow, Nat.lt_of_lt_of_le hhigh (Nat.le_add_right _ _)⟩
          rintro ⟨hkind, hp⟩
          refine hpointer ⟨hkind.resolve_left fun h => ?_, hp⟩
          exact Bool.false_ne_true (hgood.element.symm.trans h)
      | cons u l =>
        obtain ⟨hu, -⟩ := hnested
        obtain ⟨hgoodu, hliveu, hsimpleu, hentry, hchainu⟩ := hchain
        exact hconfined.setContent hold (hu.word hL hgoodu hchainu hsimpleu hliveu hentry) _ _
    · exact hconfined
  have hstays : p₀.heap.fresh ≤ (if t.all ≠ 0 then
      p.heap.setCount t.base (t.count - (S.element t.se).min) (S.element t.se).bit
      else p.heap).fresh := by
    split <;> exact hfresh
  unfold step
  rw [hstate, hstack]
  dsimp only
  refine ⟨?_, hcounted, hstays⟩
  cases l with
  | nil => exact Or.inr (Or.inr (Or.inl ⟨rfl, rfl⟩))
  | cons u l => exact Or.inl ⟨u, l, rfl, hnested.1⟩

/-- **A step within an occurrence.** -/
theorem Within.next (hS : S.Generated) (hL : S.Laid) (hw : d.Walks S rebuffer Ready)
    (hold : p₀.base.block < p₀.heap.fresh) (hshape : p.Shape S) (hready : Ready p)
    (hmeets : p.Meets S) (hcontains : p.Contains S d) (hwithin : Within S p₀ p) (hover : ¬p₀.Over p)
    (h : Next S d rebuffer p q) : Within S p₀ q := by
  obtain ⟨r, -, rfl⟩ := h.parser
  have hstep : Within S p₀ (step S d p).parser := by
    obtain ⟨hplace, hconfined, hfresh⟩ := hwithin
    rcases hplace with hin | hvalue | hdone | hinvalid | hbeyond
    · cases hstate : p.state with
      | parseElement =>
        have hresult := stepElement_inside hL hold hstate hshape hin hconfined hfresh
        unfold step
        rw [hstate]
        exact hresult
      | parseNext => exact parseNext_inside hw hstate hshape hready hin hconfined hfresh
      | parseAttribute =>
        exact parseAttribute_inside hS hL hw hold hstate hshape hcontains hin hconfined hfresh
      | parseValue =>
        exact parseValue_inside hL hw hold hstate hshape hcontains hin hconfined hfresh
      | parseEnd => exact parseEnd_inside hw hstate hin hconfined hfresh
      | parseSequence => exact parseSequence_inside hL hw hstate hshape hin hconfined hfresh
      | sequenceEnd => exact sequenceEnd_inside hL hold hstate hshape hmeets hin hconfined hfresh
      | _ =>
        obtain ⟨t, l, -, hnested⟩ := hin
        rw [hstate] at hnested
        exact hnested.elim
    · exact inValue_within hS hL hw hold hshape hcontains hvalue hconfined hfresh
    · exact absurd hdone hover
    · unfold step
      rw [hinvalid]
      exact ⟨Or.inr (Or.inr (Or.inr (Or.inl hinvalid))), hconfined, hfresh⟩
    · unfold step
      rw [hbeyond]
      exact ⟨Or.inr (Or.inr (Or.inr (Or.inr hbeyond))), hconfined, hfresh⟩
  exact ⟨hstep.place, hstep.confined, hstep.fresh⟩

end Parser

end SeClient
