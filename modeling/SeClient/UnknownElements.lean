import SeClient.EventReading
import SeClient.XmlDriver

/-!
# Unknown elements

A document may have elements that the schema does not know.  `xml_skip_unknown` reads on to the end
of one, and `xml_next` then goes on as if it had not been there.
-/

namespace SeClient
variable {ρ : Type} {S : Schema} {k : XmlSource ρ} {f g : Front (XmlInput ρ)} {i h fuel : ℕ}
  {stack : List StackItem} {t : StackItem}

/-! ## Rows of tokens -/

/-- `xml_token` reads the tokens `ts`, one after the other. -/
inductive Tokens (k : XmlSource ρ) : ρ → List TokenType → ρ → Prop
  | nil {r : ρ} : Tokens k r [] r
  | cons {r r' r'' : ρ} {t : TokenType} {ts : List TokenType} (h : k.token r = (t, r'))
      (hs : Tokens k r' ts r'') : Tokens k r (t :: ts) r''

/-- A token that is no tag of an element with contents, and can be read. -/
def TokenType.Passing (t : TokenType) : Prop :=
  t ≠ .startTag ∧ t ≠ .endTag ∧ t ≠ .xmlIncomplete ∧ t ≠ .xmlInvalid

/-- The contents of an element: each start tag has its end tag. -/
inductive Contents : List TokenType → Prop
  | nil : Contents []
  | passing {t : TokenType} {ts : List TokenType} (ht : t.Passing) (hs : Contents ts) :
      Contents (t :: ts)
  | element {inner ts : List TokenType} (hinner : Contents inner) (hs : Contents ts) :
      Contents (.startTag :: (inner ++ .endTag :: ts))

/-- The rest of an element, from `depth` elements deep. -/
inductive Closes : ℕ → List TokenType → Prop
  | nil : Closes 0 []
  | close {depth : ℕ} {inner ts : List TokenType} (hinner : Contents inner)
      (hs : Closes depth ts) : Closes (depth + 1) (inner ++ .endTag :: ts)

theorem Closes.passing {depth : ℕ} {t : TokenType} {ts : List TokenType} (ht : t.Passing)
    (hs : Closes (depth + 1) ts) : Closes (depth + 1) (t :: ts) := by
  cases hs with
  | close hinner hs => exact .close (.passing ht hinner) hs

theorem Closes.start {depth : ℕ} {ts : List TokenType} (hs : Closes (depth + 2) ts) :
    Closes (depth + 1) (.startTag :: ts) := by
  cases hs with
  | @close _ inner ts hinner hs =>
    cases hs with
    | @close _ inner' ts hinner' hs =>
      have hrow : TokenType.startTag :: (inner ++ .endTag :: (inner' ++ .endTag :: ts)) =
          (.startTag :: (inner ++ .endTag :: inner')) ++ .endTag :: ts := by
        simp
      rw [hrow]
      exact .close (.element hinner hinner') hs

/-- How the rest of an element goes on. -/
theorem Closes.cases_head {depth : ℕ} {ts : List TokenType} (hs : Closes (depth + 1) ts) :
    (∃ ts', ts = .endTag :: ts' ∧ Closes depth ts') ∨
    (∃ ts', ts = .startTag :: ts' ∧ Closes (depth + 2) ts') ∨
    (∃ t ts', ts = t :: ts' ∧ t.Passing ∧ Closes (depth + 1) ts') := by
  cases hs with
  | @close _ inner ts hinner hs =>
    cases hinner with
    | nil => exact Or.inl ⟨ts, rfl, hs⟩
    | passing ht hinner => exact Or.inr (Or.inr ⟨_, _, rfl, ht, .close hinner hs⟩)
    | element hinner hinner' =>
      refine Or.inr (Or.inl ⟨_, rfl, ?_⟩)
      simpa using Closes.close hinner (.close hinner' hs)

/-! ## Skipping an element -/

/-- The front, with another source. -/
def Front.withSource (f : Front (XmlInput ρ)) (r : ρ) : Front (XmlInput ρ) :=
  { f with input := { f.input with source := r } }

theorem skipLoop_zero : skipLoop k fuel 0 f = (true, f) := by
  unfold skipLoop
  rfl

theorem skipLoop_start {depth : ℕ} {r : ρ} (hr : k.token f.input.source = (.startTag, r)) :
    skipLoop k (fuel + 1) (depth + 1) f = skipLoop k fuel (depth + 2) (f.withSource r) := by
  simp [skipLoop, hr, Front.withSource]

theorem skipLoop_end {depth : ℕ} {r : ρ} (hr : k.token f.input.source = (.endTag, r)) :
    skipLoop k (fuel + 1) (depth + 1) f = skipLoop k fuel depth (f.withSource r) := by
  simp [skipLoop, hr, Front.withSource]

theorem skipLoop_passing {depth : ℕ} {t : TokenType} {r : ρ} (ht : t.Passing)
    (hr : k.token f.input.source = (t, r)) :
    skipLoop k (fuel + 1) (depth + 1) f = skipLoop k fuel (depth + 1) (f.withSource r) := by
  obtain ⟨hstart, hend, hincomplete, hinvalid⟩ := ht
  cases t <;> simp_all [skipLoop, Front.withSource]

theorem skipLoop_stuck (fuel depth : ℕ) {t : TokenType} {r : ρ}
    (ht : t = .xmlIncomplete ∨ t = .xmlInvalid) (hr : k.token f.input.source = (t, r)) :
    (skipLoop k (fuel + 1) (depth + 1) f).1 = false := by
  rcases ht with rfl | rfl <;> simp [skipLoop, hr]

theorem Tokens.nil_inv {r r' : ρ} (h : Tokens k r [] r') : r' = r := by
  cases h
  rfl

theorem Tokens.cons_inv {r r₁ r' : ρ} {t t₁ : TokenType} {ts : List TokenType}
    (h : Tokens k r (t :: ts) r') (hr : k.token r = (t₁, r₁)) : t = t₁ ∧ Tokens k r₁ ts r' := by
  cases h with
  | cons h hs =>
    rw [h] at hr
    obtain ⟨rfl, rfl⟩ := Prod.mk.inj hr
    exact ⟨rfl, hs⟩

/-- The loop ends behind the tokens that close the elements it is in. -/
theorem skipLoop_iff {depth : ℕ} : skipLoop k fuel depth f = (true, g) ↔
    ∃ ts r, Tokens k f.input.source ts r ∧ Closes depth ts ∧ ts.length ≤ fuel ∧
      g = f.withSource r := by
  induction fuel generalizing depth f with
  | zero =>
    cases depth with
    | zero =>
      rw [skipLoop_zero]
      constructor
      · intro h
        exact ⟨[], _, .nil, .nil, le_rfl, (Prod.mk.inj h).2.symm⟩
      · rintro ⟨ts, r, htokens, hcloses, -, rfl⟩
        cases hcloses
        rw [htokens.nil_inv]
        rfl
    | succ depth =>
      constructor
      · intro h
        simp [skipLoop] at h
      · rintro ⟨ts, r, -, hcloses, hlength, -⟩
        cases hcloses with
        | close hinner hs => simp at hlength
  | succ fuel ih =>
    cases depth with
    | zero =>
      rw [skipLoop_zero]
      constructor
      · intro h
        exact ⟨[], _, .nil, .nil, Nat.zero_le _, (Prod.mk.inj h).2.symm⟩
      · rintro ⟨ts, r, htokens, hcloses, -, rfl⟩
        cases hcloses
        rw [htokens.nil_inv]
        rfl
    | succ depth =>
      obtain ⟨t, r, hr⟩ : ∃ t r, k.token f.input.source = (t, r) := ⟨_, _, rfl⟩
      constructor
      · intro h
        by_cases hstuck : t = .xmlIncomplete ∨ t = .xmlInvalid
        · have hfalse := skipLoop_stuck fuel depth hstuck hr
          rw [h] at hfalse
          exact Bool.noConfusion hfalse
        · rw [not_or] at hstuck
          by_cases hstart : t = .startTag
          · subst hstart
            rw [skipLoop_start hr] at h
            obtain ⟨ts, r', htokens, hcloses, hlength, rfl⟩ := ih.mp h
            exact ⟨_, r', .cons hr htokens, hcloses.start, Nat.succ_le_succ hlength, rfl⟩
          · by_cases hend : t = .endTag
            · subst hend
              rw [skipLoop_end hr] at h
              obtain ⟨ts, r', htokens, hcloses, hlength, rfl⟩ := ih.mp h
              exact ⟨_, r', .cons hr htokens, .close .nil hcloses, Nat.succ_le_succ hlength, rfl⟩
            · have ht : t.Passing := ⟨hstart, hend, hstuck⟩
              rw [skipLoop_passing ht hr] at h
              obtain ⟨ts, r', htokens, hcloses, hlength, rfl⟩ := ih.mp h
              exact ⟨_, r', .cons hr htokens, hcloses.passing ht, Nat.succ_le_succ hlength, rfl⟩
      · rintro ⟨ts, r', htokens, hcloses, hlength, rfl⟩
        rcases hcloses.cases_head with ⟨ts, rfl, hrest⟩ | ⟨ts, rfl, hrest⟩ |
          ⟨t', ts, rfl, ht, hrest⟩
        · obtain ⟨rfl, htokens⟩ := htokens.cons_inv hr
          rw [skipLoop_end hr]
          exact ih.mpr ⟨ts, r', htokens, hrest, Nat.le_of_succ_le_succ hlength, rfl⟩
        · obtain ⟨rfl, htokens⟩ := htokens.cons_inv hr
          rw [skipLoop_start hr]
          exact ih.mpr ⟨ts, r', htokens, hrest, Nat.le_of_succ_le_succ hlength, rfl⟩
        · obtain ⟨rfl, htokens⟩ := htokens.cons_inv hr
          rw [skipLoop_passing ht hr]
          exact ih.mpr ⟨ts, r', htokens, hrest, Nat.le_of_succ_le_succ hlength, rfl⟩

/-- The tokens of an element behind the tag that starts it. -/
def Element (token : TokenType) (ts : List TokenType) : Prop :=
  if token = .emptyTag then ts = [] else ∃ inner, Contents inner ∧ ts = inner ++ [.endTag]

/-- `xml_skip_unknown`, with loops of at most `fuel` rounds. -/
theorem xmlSkipUnknown_iff : xmlSkipUnknown k fuel f = (true, g) ↔
    ∃ ts r, Tokens k f.input.source ts r ∧ Element f.input.token ts ∧ ts.length ≤ fuel ∧
      g = { f with input := { f.input with needToken := true, source := r } } := by
  unfold xmlSkipUnknown Element
  by_cases hempty : f.input.token = .emptyTag
  · simp only [if_pos hempty]
    constructor
    · intro h
      exact ⟨[], _, .nil, rfl, Nat.zero_le _, (Prod.mk.inj h).2.symm⟩
    · rintro ⟨ts, r, htokens, rfl, -, rfl⟩
      rw [htokens.nil_inv]
  · simp only [if_neg hempty]
    rw [skipLoop_iff]
    constructor
    · rintro ⟨ts, r, htokens, hcloses, hlength, rfl⟩
      cases hcloses with
      | close hinner hs =>
        cases hs
        exact ⟨_, r, htokens, ⟨_, hinner, rfl⟩, hlength, rfl⟩
    · rintro ⟨ts, r, htokens, ⟨inner, hinner, rfl⟩, hlength, rfl⟩
      exact ⟨_, r, htokens, .close hinner .nil, hlength, rfl⟩

/-- **`xml_skip_unknown` reads one element**: it succeeds where what follows the tag is the rest of
one element, and leaves what is behind it. -/
theorem skips_one_element : (∃ fuel, xmlSkipUnknown k fuel f = (true, g)) ↔
    ∃ ts r, Tokens k f.input.source ts r ∧ Element f.input.token ts ∧
      g = { f with input := { f.input with needToken := true, source := r } } := by
  constructor
  · rintro ⟨fuel, h⟩
    obtain ⟨ts, r, htokens, helement, -, hg⟩ := xmlSkipUnknown_iff.mp h
    exact ⟨ts, r, htokens, helement, hg⟩
  · rintro ⟨ts, r, htokens, helement, hg⟩
    exact ⟨ts.length, xmlSkipUnknown_iff.mpr ⟨ts, r, htokens, helement, le_rfl, hg⟩⟩

/-! ## Going on behind unknown elements -/

/-- The token that `parse_token` leaves is one that was read. -/
def Peeked (k : XmlSource ρ) (f : Front (XmlInput ρ)) : Prop :=
  (parseToken k f).input.token ≠ .xmlIncomplete ∧ (parseToken k f).input.token ≠ .xmlInvalid

theorem parseToken_eq (h : f.input.needToken = false) : parseToken k f = f := by
  unfold parseToken
  rw [h]
  rfl

theorem parseToken_peeked (h : Peeked k f) :
    (parseToken k f).input.needToken = false ∧ (parseToken k f).state = f.state ∧
      (parseToken k f).input.empty = f.input.empty := by
  obtain ⟨hincomplete, hinvalid⟩ := h
  cases hneed : f.input.needToken with
  | false =>
    rw [parseToken_eq hneed]
    exact ⟨hneed, rfl, rfl⟩
  | true =>
    unfold parseToken at hincomplete hinvalid ⊢
    rw [if_pos hneed] at hincomplete hinvalid ⊢
    obtain ⟨t, r, hr⟩ : ∃ t r, k.token f.input.source = (t, r) := ⟨_, _, rfl⟩
    rw [hr] at hincomplete hinvalid ⊢
    cases t with
    | xmlIncomplete => exact absurd rfl hincomplete
    | xmlInvalid => exact absurd rfl hinvalid
    | _ => exact ⟨rfl, rfl, rfl⟩

/-- A parser in the sequence of elements from the entry `h` on, at the entry `i`, all attributes
behind it. -/
structure InSequence (S : Schema) (h i : ℕ) : Prop where
  least : h ≤ i
  most : i ≤ h + (S.entries h).length
  elements : ∀ j, i ≤ j → j < h + (S.entries h).length → (S.element j).isAttribute = false

/-- The tag that was peeked at is one of an element that is none of those from the entry `i` on. -/
structure Foreign (S : Schema) (k : XmlSource ρ) (h i : ℕ) (f : Front (XmlInput ρ)) : Prop where
  tag : f.input.token = .startTag ∨ f.input.token = .emptyTag
  name : ∀ j, i ≤ j → j < h + (S.entries h).length → (S.element j).isAttribute = false →
    S.nameOf j ≠ k.name f.input.source

/-- An entry of another name is passed over. -/
theorem xmlNextLoop_pass {F : ℕ} (hstate : f.state = .parseNext) (hempty : f.input.empty = false)
    (hneed : f.input.needToken = false) (hn : (S.element i).n ≠ 0)
    (hattribute : (S.element i).isAttribute = false)
    (htag : f.input.token = .endTag ∨ (f.input.token = .startTag ∨ f.input.token = .emptyTag) ∧
      S.nameOf i ≠ k.name f.input.source) :
    xmlNextLoop S k F stack (fuel + 1) i f = xmlNextLoop S k F stack fuel (i + 1) f := by
  have hstart : startTag S k i f = (false, f) := by
    unfold startTag
    rw [parseToken_eq hneed]
    rcases htag with htag | ⟨htag | htag, hname⟩
    · simp [htag]
    · simp [htag, hempty, hname]
    · simp [htag, hempty, hname]
  have hincomplete : f.input.token ≠ .xmlIncomplete := by
    rcases htag with htag | ⟨htag | htag, -⟩ <;> simp [htag]
  conv_lhs => unfold xmlNextLoop
  simp [hstate, hn, hattribute, hempty, hstart, hincomplete]

/-- Entries of other names are passed over up to the end of the sequence. -/
theorem xmlNextLoop_passes {F n : ℕ} (hseq : InSequence S h i) (hstate : f.state = .parseNext)
    (hempty : f.input.empty = false) (hneed : f.input.needToken = false) (hj : i + n ≤
      h + (S.entries h).length)
    (htag : ∀ j, i ≤ j → j < i + n → f.input.token = .endTag ∨
      (f.input.token = .startTag ∨ f.input.token = .emptyTag) ∧
        S.nameOf j ≠ k.name f.input.source) :
    xmlNextLoop S k F stack (fuel + n) i f = xmlNextLoop S k F stack fuel (i + n) f := by
  induction n generalizing i with
  | zero => rfl
  | succ n ih =>
    have hn : (S.element i).n ≠ 0 := S.n_ne_zero hseq.least (by omega)
    have hlater : InSequence S h (i + 1) :=
      ⟨by have := hseq.least; omega, by omega, fun j hj => hseq.elements j (by omega)⟩
    rw [← Nat.add_assoc, xmlNextLoop_pass hstate hempty hneed hn
      (hseq.elements i le_rfl (by omega)) (htag i le_rfl (by omega)),
      ih hlater (by omega) (fun j hj hjn => htag j (by omega) (by omega)), Nat.add_right_comm,
      Nat.add_assoc]

/-- What `parse_token` reads first is read once. -/
theorem xmlNextLoop_parseToken {F : ℕ} (hseq : InSequence S h i) (hstate : f.state = .parseNext)
    (hempty : f.input.empty = false) (hpeeked : Peeked k f) :
    xmlNextLoop S k F (t :: stack) (fuel + 1) i f =
      xmlNextLoop S k F (t :: stack) (fuel + 1) i (parseToken k f) := by
  obtain ⟨hneed, hsame, hsame'⟩ := parseToken_peeked hpeeked
  have hstate' : (parseToken k f).state = .parseNext := hsame.trans hstate
  have hempty' : (parseToken k f).input.empty = false := hsame'.trans hempty
  have htwice : parseToken k (parseToken k f) = parseToken k f := parseToken_eq hneed
  conv_lhs => unfold xmlNextLoop
  conv_rhs => unfold xmlNextLoop
  by_cases hn : (S.element i).n = 0
  · simp [hstate, hstate', hempty, hempty', hn, htwice]
  · have hi : i < h + (S.entries h).length := by
      by_contra hi
      have hend := S.n_entries_end h
      rw [show h + (S.entries h).length = i from by have := hseq.most; omega] at hend
      exact hn hend
    have hstart : startTag S k i (parseToken k f) = startTag S k i f := by
      unfold startTag
      rw [htwice]
    simp [hstate, hstate', hempty, hempty', hn, hseq.elements i le_rfl hi, hstart]

/-- An unknown element is skipped at the end of the sequence. -/
theorem xmlNextLoop_foreign (stack : List StackItem) (fuel : ℕ) {F : ℕ}
    (hh : h = (S.element t.se).index + 1) (hseq : InSequence S h i)
    (hstate : f.state = .parseNext) (hempty : f.input.empty = false) (hpeeked : Peeked k f)
    (hforeign : Foreign S k h h (parseToken k f))
    (hskip : xmlSkipUnknown k F (parseToken k f) = (true, g)) :
    xmlNextLoop S k F (t :: stack) (fuel + 1 + (h + (S.entries h).length - i)) i f =
      xmlNextLoop S k F (t :: stack) fuel (h + (S.entries h).length) g := by
  obtain ⟨hneed, hsame, hsame'⟩ := parseToken_peeked hpeeked
  have hstate' : (parseToken k f).state = .parseNext := hsame.trans hstate
  have hempty' : (parseToken k f).input.empty = false := hsame'.trans hempty
  have hend : i + (h + (S.entries h).length - i) = h + (S.entries h).length := by
    have := hseq.most
    omega
  have hnone : findElement S ((S.element t.se).index + 1)
      (k.name (parseToken k f).input.source) = none := by
    rw [findElement, ← hh, List.find?_eq_none]
    intro j hj
    rw [List.mem_range'_1] at hj
    cases hattribute : (S.element j).isAttribute with
    | true => simp
    | false => simp [hforeign.name j hj.1 hj.2 hattribute]
  rw [Nat.add_right_comm, xmlNextLoop_parseToken hseq hstate hempty hpeeked,
    Nat.add_right_comm, xmlNextLoop_passes hseq hstate' hempty' hneed (by omega)
      (fun j hj hjn => Or.inr ⟨hforeign.tag,
        hforeign.name j (by have := hseq.least; omega) (by omega)
          (hseq.elements j hj (by omega))⟩), hend]
  conv_lhs => unfold xmlNextLoop
  rcases hforeign.tag with htag | htag
  · simp [hstate', S.n_entries_end h, hempty', parseToken_eq hneed, htag, hnone, hskip]
  · simp [hstate', S.n_entries_end h, hempty', parseToken_eq hneed, htag, hnone, hskip]

/-- The elements of a sequence have different names. -/
def Distinct (S : Schema) (h : ℕ) : Prop :=
  ∀ i j, h ≤ i → i < h + (S.entries h).length → h ≤ j → j < h + (S.entries h).length →
    (S.element i).isAttribute = false → (S.element j).isAttribute = false →
    S.nameOf i = S.nameOf j → i = j

/-- The token that was peeked at is a tag, and not the empty tag of an element of simple type. -/
structure TagAhead (S : Schema) (k : XmlSource ρ) (h : ℕ) (f : Front (XmlInput ρ)) : Prop where
  tag : f.input.token = .endTag ∨ f.input.token = .startTag ∨ f.input.token = .emptyTag
  simple : f.input.token = .emptyTag → ∀ j, h ≤ j → j < h + (S.entries h).length →
    (S.element j).isAttribute = false → S.nameOf j = k.name f.input.source →
      (S.element j).simple = false

theorem Foreign.tagAhead (hforeign : Foreign S k h h f) : TagAhead S k h f where
  tag := Or.inr hforeign.tag
  simple := fun _ j hj hlt hattribute hname => absurd hname (hforeign.name j hj hlt hattribute)

/-- The element that `start_tag` accepts. -/
theorem startTag_accepts (hempty : f.input.empty = false) (hneed : f.input.needToken = false)
    (htag : f.input.token = .startTag ∨ f.input.token = .emptyTag)
    (hname : S.nameOf i = k.name f.input.source)
    (hsimple : f.input.token = .emptyTag → (S.element i).simple = false) :
    startTag S k i f = (true, { f with input := { f.input with
      empty := decide (f.input.token = .emptyTag), needToken := true } }) := by
  unfold startTag
  rw [parseToken_eq hneed]
  rcases htag with htag | htag
  · simp [htag, hempty, hname]
  · simp [htag, hempty, hname, hsimple htag]

/-- From each entry of the sequence on the next tag is taken in the same way. -/
theorem xmlNextLoop_anywhere (stack : List StackItem) (fuel : ℕ) {F : ℕ}
    (hh : h = (S.element t.se).index + 1)
    (hdistinct : Distinct S h) (hseq : InSequence S h i) (hstate : f.state = .parseNext)
    (hempty : f.input.empty = false) (hpeeked : Peeked k f)
    (hahead : TagAhead S k h (parseToken k f)) :
    xmlNextLoop S k F (t :: stack) (fuel + 2 + (h + (S.entries h).length - i)) i f =
      xmlNextLoop S k F (t :: stack) (fuel + 2) (h + (S.entries h).length) f := by
  obtain ⟨hneed, hsame, hsame'⟩ := parseToken_peeked hpeeked
  have hstate' : (parseToken k f).state = .parseNext := hsame.trans hstate
  have hempty' : (parseToken k f).input.empty = false := hsame'.trans hempty
  have hleast := hseq.least
  have hmost := hseq.most
  have hlast : InSequence S h (h + (S.entries h).length) :=
    ⟨Nat.le_add_right _ _, le_rfl, fun j hj hlt => absurd hlt (Nat.not_lt.2 hj)⟩
  rw [show fuel + 2 + (h + (S.entries h).length - i) =
      fuel + 1 + (h + (S.entries h).length - i) + 1 by omega,
    xmlNextLoop_parseToken hseq hstate hempty hpeeked,
    xmlNextLoop_parseToken hlast hstate hempty hpeeked]
  generalize parseToken k f = f at hneed hstate' hempty' hahead ⊢
  by_cases hknown : f.input.token ≠ .endTag ∧
      ∃ j, i ≤ j ∧ j < h + (S.entries h).length ∧ S.nameOf j = k.name f.input.source
  · obtain ⟨hopen, j, hij, hj, hname⟩ := hknown
    have htag : f.input.token = .startTag ∨ f.input.token = .emptyTag :=
      hahead.tag.resolve_left hopen
    have hattribute := hseq.elements j hij hj
    have hn : (S.element j).n ≠ 0 := S.n_ne_zero (hleast.trans hij) hj
    have hstart := startTag_accepts (i := j) hempty' hneed htag hname
      (fun h => hahead.simple h j (hleast.trans hij) hj hattribute hname)
    have hfind : findElement S ((S.element t.se).index + 1) (k.name f.input.source) = some j := by
      rw [findElement, ← hh]
      rw [List.find?_range'_eq_some]
      refine ⟨by simp [hattribute, hname], by rw [List.mem_range'_1]; omega, fun l hl hlj => ?_⟩
      cases hl' : (S.element l).isAttribute with
      | true => rfl
      | false =>
        have hother : S.nameOf l ≠ k.name f.input.source := fun hl'' =>
          absurd (hdistinct l j hl (by omega) (by omega) hj hl' hattribute (hl''.trans hname.symm))
            (by omega)
        simp [hother]
    have hpass : ∀ l, i ≤ l → l < i + (j - i) → f.input.token = .endTag ∨
        (f.input.token = .startTag ∨ f.input.token = .emptyTag) ∧
          S.nameOf l ≠ k.name f.input.source := fun l hil hlj => Or.inr ⟨htag, fun hl =>
      absurd (hdistinct l j (by omega) (by omega) (by omega) hj (hseq.elements l hil (by omega))
        hattribute (hl.trans hname.symm)) (by omega)⟩
    have htaken : ∀ fuel se (q : Front (XmlInput ρ)), q.state = .parseElement →
        xmlNextLoop S k F (t :: stack) fuel se q = (true, { q with se := se - 1 }) := by
      intro fuel se q hq
      unfold xmlNextLoop
      cases fuel <;> simp [hq]
    rw [show fuel + 1 + (h + (S.entries h).length - i) + 1 =
      (fuel + 1 + (h + (S.entries h).length - j)) + 1 + (j - i) by omega,
      xmlNextLoop_passes hseq hstate' hempty' hneed (by omega) hpass,
      show i + (j - i) = j by omega]
    conv_lhs => unfold xmlNextLoop
    conv_rhs => unfold xmlNextLoop
    rcases htag with htag | htag
    · simp [hstate', hn, hattribute, hempty', hstart, htaken, S.n_entries_end h,
        parseToken_eq hneed, htag, hfind]
    · simp [hstate', hn, hattribute, hempty', hstart, htaken, S.n_entries_end h,
        parseToken_eq hneed, htag, hfind]
  · have hpass : ∀ j, i ≤ j → j < i + (h + (S.entries h).length - i) →
        f.input.token = .endTag ∨ (f.input.token = .startTag ∨ f.input.token = .emptyTag) ∧
          S.nameOf j ≠ k.name f.input.source := by
      intro j hij hj
      by_cases hend : f.input.token = .endTag
      · exact Or.inl hend
      · exact Or.inr ⟨hahead.tag.resolve_left hend,
          fun hname => hknown ⟨hend, j, hij, by omega, hname⟩⟩
    rw [show fuel + 1 + (h + (S.entries h).length - i) + 1 =
      fuel + 2 + (h + (S.entries h).length - i) by omega,
      xmlNextLoop_passes hseq hstate' hempty' hneed (by omega) hpass]
    rw [show i + (h + (S.entries h).length - i) = h + (S.entries h).length by omega]

/-- `n` unknown elements lie between the fronts `f` and `g`. -/
inductive PassesOver (S : Schema) (k : XmlSource ρ) (F h : ℕ) :
    ℕ → Front (XmlInput ρ) → Front (XmlInput ρ) → Prop
  | refl {f : Front (XmlInput ρ)} : PassesOver S k F h 0 f f
  | skip {n : ℕ} {f f' g : Front (XmlInput ρ)} (hpeeked : Peeked k f)
      (hforeign : Foreign S k h h (parseToken k f))
      (hskip : xmlSkipUnknown k F (parseToken k f) = (true, f')) (hs : PassesOver S k F h n f' g) :
      PassesOver S k F h (n + 1) f g

theorem parseToken_se : (parseToken k f).se = f.se := by
  unfold parseToken
  split
  · dsimp only
    split <;> rfl
  · rfl

/-- What `xml_skip_unknown` leaves of the front. -/
theorem xmlSkipUnknown_front (h : xmlSkipUnknown k fuel f = (true, g)) :
    g.state = f.state ∧ g.se = f.se ∧ g.input.empty = f.input.empty := by
  obtain ⟨ts, r, -, -, -, rfl⟩ := xmlSkipUnknown_iff.mp h
  exact ⟨rfl, rfl, rfl⟩

theorem PassesOver.se {F n : ℕ} (hs : PassesOver S k F h n f g) : g.se = f.se := by
  induction hs with
  | refl => rfl
  | skip hpeeked hforeign hskip hs ih =>
    rw [ih, (xmlSkipUnknown_front hskip).2.1, parseToken_se]

/-- The loop passes over unknown elements. -/
theorem xmlNextLoop_skips (stack : List StackItem) (fuel : ℕ) {F n : ℕ}
    (hh : h = (S.element t.se).index + 1) (hdistinct : Distinct S h)
    (hseq : InSequence S h i) (hskips : PassesOver S k F h n f g) (hstate : f.state = .parseNext)
    (hempty : f.input.empty = false) (hpeeked : Peeked k g)
    (hahead : TagAhead S k h (parseToken k g)) :
    xmlNextLoop S k F (t :: stack) (fuel + 2 + (h + (S.entries h).length - i) + n) i f =
      xmlNextLoop S k F (t :: stack) (fuel + 2 + (h + (S.entries h).length - i)) i g := by
  induction hskips with
  | refl => rfl
  | @skip n f f' g hfirst hforeign hskip hs ih =>
    obtain ⟨-, hparsed, hparsed'⟩ := parseToken_peeked hfirst
    obtain ⟨hskipped, -, hskipped'⟩ := xmlSkipUnknown_front hskip
    have hstate' : f'.state = .parseNext := hskipped.trans (hparsed.trans hstate)
    have hempty' : f'.input.empty = false := hskipped'.trans (hparsed'.trans hempty)
    have hnext : Peeked k f' ∧ TagAhead S k h (parseToken k f') := by
      cases hs with
      | refl => exact ⟨hpeeked, hahead⟩
      | skip hpeeked hforeign hskip hs => exact ⟨hpeeked, hforeign.tagAhead⟩
    have hskipping := xmlNextLoop_foreign stack (fuel + n + 2) hh hseq hstate hempty hfirst
      hforeign hskip
    have hgoing := xmlNextLoop_anywhere (F := F) stack (fuel + n) hh hdistinct hseq hstate' hempty'
      hnext.1 hnext.2
    calc xmlNextLoop S k F (t :: stack) (fuel + 2 + (h + (S.entries h).length - i) + (n + 1)) i f
        = xmlNextLoop S k F (t :: stack)
            (fuel + n + 2 + 1 + (h + (S.entries h).length - i)) i f := by congr 1; omega
      _ = xmlNextLoop S k F (t :: stack) (fuel + n + 2) (h + (S.entries h).length) f' := hskipping
      _ = xmlNextLoop S k F (t :: stack)
            (fuel + n + 2 + (h + (S.entries h).length - i)) i f' := hgoing.symm
      _ = xmlNextLoop S k F (t :: stack)
            (fuel + 2 + (h + (S.entries h).length - i) + n) i f' := by congr 1; omega
      _ = _ := ih hstate' hempty' hpeeked hahead

/-- With more fuel an element is skipped the same. -/
theorem xmlSkipUnknown_mono {F F' : ℕ} (hF : F ≤ F') (h : xmlSkipUnknown k F f = (true, g)) :
    xmlSkipUnknown k F' f = (true, g) := by
  obtain ⟨ts, r, htokens, helement, hlength, rfl⟩ := xmlSkipUnknown_iff.mp h
  exact xmlSkipUnknown_iff.mpr ⟨ts, r, htokens, helement, hlength.trans hF, rfl⟩

theorem PassesOver.mono {F F' n : ℕ} (hF : F ≤ F') (h : PassesOver S k F i n f g) :
    PassesOver S k F' i n f g := by
  induction h with
  | refl => exact .refl
  | skip hpeeked hforeign hskip hs ih =>
    exact .skip hpeeked hforeign (xmlSkipUnknown_mono hF hskip) ih

theorem xmlNextLoop_mono {F F' se : ℕ} (hF : F ≤ F')
    (h : xmlNextLoop S k F stack fuel se f = (true, g)) :
    xmlNextLoop S k F' stack fuel se f = (true, g) := by
  induction fuel generalizing se f with
  | zero =>
    unfold xmlNextLoop at h ⊢
    exact h
  | succ fuel ih =>
    unfold xmlNextLoop at h ⊢
    by_cases hstate : f.state ≠ .parseNext
    · rw [if_pos hstate] at h ⊢
      exact h
    rw [if_neg hstate] at h ⊢
    by_cases hn : (S.element se).n = 0
    · rw [if_pos hn] at h ⊢
      cases stack with
      | nil => exact ih h
      | cons t stack =>
        dsimp only at h ⊢
        by_cases hempty : f.input.empty = true
        · rw [if_pos hempty] at h ⊢
          exact ih h
        rw [if_neg hempty] at h ⊢
        have hskipped : (if (xmlSkipUnknown k F (parseToken k f)).1 = true then
              xmlNextLoop S k F (t :: stack) fuel se (xmlSkipUnknown k F (parseToken k f)).2
            else (false, (xmlSkipUnknown k F (parseToken k f)).2)) = (true, g) →
            (if (xmlSkipUnknown k F' (parseToken k f)).1 = true then
              xmlNextLoop S k F' (t :: stack) fuel se (xmlSkipUnknown k F' (parseToken k f)).2
            else (false, (xmlSkipUnknown k F' (parseToken k f)).2)) = (true, g) := by
          obtain ⟨ok, q, hskip⟩ : ∃ ok q, xmlSkipUnknown k F (parseToken k f) = (ok, q) :=
            ⟨_, _, rfl⟩
          rw [hskip]
          intro hgoes
          cases ok with
          | false => simp at hgoes
          | true =>
            rw [xmlSkipUnknown_mono hF hskip]
            exact ih hgoes
        cases htoken : (parseToken k f).input.token with
        | startTag =>
          rw [htoken] at h
          dsimp only at h ⊢
          cases hfind : findElement S ((S.element t.se).index + 1)
              (k.name (parseToken k f).input.source) with
          | some found =>
            rw [hfind] at h
            exact ih h
          | none =>
            rw [hfind] at h
            exact hskipped h
        | emptyTag =>
          rw [htoken] at h
          dsimp only at h ⊢
          cases hfind : findElement S ((S.element t.se).index + 1)
              (k.name (parseToken k f).input.source) with
          | some found =>
            rw [hfind] at h
            exact ih h
          | none =>
            rw [hfind] at h
            exact hskipped h
        | xmlIncomplete =>
          rw [htoken] at h
          exact h
        | _ =>
          rw [htoken] at h
          exact ih h
    rw [if_neg hn] at h ⊢
    by_cases hattribute : (S.element se).isAttribute = true
    · rw [if_pos hattribute] at h ⊢
      cases hvalue : k.attr f.input.source (S.nameOf se) with
      | some value =>
        rw [hvalue] at h
        exact ih h
      | none =>
        rw [hvalue] at h
        exact ih h
    rw [if_neg hattribute] at h ⊢
    by_cases hempty : f.input.empty = true
    · rw [if_pos hempty] at h ⊢
      exact ih h
    rw [if_neg hempty] at h ⊢
    dsimp only at h ⊢
    by_cases hstart : (startTag S k se f).1 = true
    · rw [if_pos hstart] at h ⊢
      exact ih h
    rw [if_neg hstart] at h ⊢
    by_cases hincomplete : (startTag S k se f).2.input.token = .xmlIncomplete
    · rw [if_pos hincomplete] at h ⊢
      exact h
    rw [if_neg hincomplete] at h ⊢
    exact ih h

/-- **Unknown elements are passed over**: behind the attributes of an element `xml_next` does with
unknown elements, of any depth, in front of the next tag what it does without them. -/
theorem unknown_passed (fuel : ℕ) {n : ℕ} {r : Front (XmlInput ρ)}
    (hh : h = (S.element t.se).index + 1)
    (hdistinct : Distinct S h) (hseq : InSequence S h f.se) (hskips : PassesOver S k fuel h n f g)
    (hstate : f.state = .parseNext) (hempty : f.input.empty = false) (hpeeked : Peeked k g)
    (hahead : TagAhead S k h (parseToken k g)) (hfuel : (S.entries h).length + 2 ≤ fuel)
    (hnext : xmlNext S k fuel (t :: stack) g = (true, r)) :
    xmlNext S k (fuel + n) (t :: stack) f = (true, r) := by
  unfold xmlNext at hnext ⊢
  rw [hskips.se] at hnext
  have hleast := hseq.least
  obtain ⟨m, hm⟩ : ∃ m, fuel = m + 2 + (h + (S.entries h).length - f.se) :=
    ⟨fuel - 2 - (h + (S.entries h).length - f.se), by omega⟩
  have hpasses := xmlNextLoop_skips stack m hh hdistinct hseq
    (hskips.mono (Nat.le_add_right fuel n)) hstate hempty hpeeked hahead
  rw [← hm] at hpasses
  rw [hpasses]
  exact xmlNextLoop_mono (Nat.le_add_right fuel n) hnext

/-! ## A row of tags -/

/-- Tokens, each with its name, and the name of the last one. -/
def tagRow : XmlSource (CString × List (TokenType × CString)) where
  token := fun r =>
    ((r.2.headD (.xmlIncomplete, [])).1, ((r.2.headD (.xmlIncomplete, [])).2, r.2.tail))
  name := fun r => r.1
  content := fun _ => []
  attr := fun _ _ => none
  integer := fun _ _ => none
  hex := fun _ _ => (false, none)
  done := id

/-- A global element `a`, of a type with the element `b`. -/
def lettered : Schema where
  schemaId := []
  length := 1
  elements := [{ index := 1, min := 1, max := 1 }, { offset := 8 },
    { offset := 4, xsType := .ubyte, max := 1, simple := true, n := 2 }]
  names := [chars ['a'], chars ['b']]
  ids := [0, 1]

/-- Before `b` comes an unknown element `x` with an element `b` of its own. -/
def unknownFirst : Front (XmlInput (CString × List (TokenType × CString))) where
  state := .parseNext
  se := 2
  input := { source := ([], [(.startTag, chars ['x']), (.startTag, chars ['b']), (.xmlText, []),
    (.endTag, chars ['b']), (.endTag, chars ['x']), (.startTag, chars ['b'])]) }

/-- `xml_next` takes the `b` behind the unknown element. -/
theorem unknown_passed_lettered :
    xmlNext lettered tagRow 7 [{ se := 0, base := ⟨0, 0⟩ }] unknownFirst = (true,
      { state := .parseElement, se := 2, input := { source := (chars ['b'], []) } }) := by
  refine unknown_passed (h := 2) (g := { unknownFirst with
      input := { source := (chars ['x'], [(.startTag, chars ['b'])]) } }) (n := 1) 6 rfl
    ?_ ⟨le_rfl, by decide, ?_⟩ (.skip ⟨by decide, by decide⟩ ⟨Or.inl rfl, ?_⟩ rfl .refl) rfl rfl
    ⟨by decide, by decide⟩ ⟨Or.inr (Or.inl rfl), fun h => absurd h (by decide)⟩ (by decide) rfl
  · intro i j hi hlt hj hlt' _ _ _
    have hi' : i < 3 := hlt
    have hj' : j < 3 := hlt'
    omega
  · intro j hj hlt
    have hj' : j < 3 := hlt
    obtain rfl : j = 2 := by
      have := show 2 ≤ j from hj
      omega
    rfl
  · intro j hj hlt
    have hj' : j < 3 := hlt
    obtain rfl : j = 2 := by omega
    decide

end SeClient
