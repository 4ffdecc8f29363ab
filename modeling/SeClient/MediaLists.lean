import SeClient.MediaRanges
import Mathlib.Data.List.Forall2

/-!
# Lists of media ranges

The header value of an `Accept` field: elements between commas, some of them empty, each a media
range with parameters and q-values.  A parameter with a quoted value is read as it was written only
if the value is empty, and of more than four parameters the first ones are overwritten; otherwise
each element is returned once.
-/

namespace SeClient

/-! ## The grammar -/

/-- A token. -/
structure HttpToken where
  chars : CString
  nonempty : chars ≠ []
  tchars : ∀ c ∈ chars, tchar c

/-- Optional blanks. -/
structure Blanks where
  chars : CString
  blank : ∀ c ∈ chars, hws c

/-- A character of a quoted string, which may be any from 128 on. -/
inductive QuotedChar
  | text (c : UInt8) (h : qdtext c ∨ 128 ≤ c)
  | pair (c : UInt8) (h : hws c ∨ vchar c ∨ 128 ≤ c)

def QuotedChar.char : QuotedChar → UInt8
  | text c _ => c
  | pair c _ => c

def QuotedChar.bytes : QuotedChar → CString
  | text c _ => [c]
  | pair c _ => [92, c]

/-- The value of a parameter. -/
inductive ParameterValue
  | token (t : HttpToken)
  | quoted (chars : List QuotedChar)

def ParameterValue.text : ParameterValue → CString
  | token t => t.chars
  | quoted chars => chars.map QuotedChar.char

def ParameterValue.bytes : ParameterValue → CString
  | token t => t.chars
  | quoted chars => 34 :: (chars.flatMap QuotedChar.bytes ++ [34])

/-- A parameter other than a q-value. -/
structure MediaParameter where
  name : HttpToken
  value : ParameterValue
  other : toLower name.chars ≠ [113]

/-- The digits behind `0.` -/
structure QFraction where
  digits : CString
  short : digits.length ≤ 3
  digit : ∀ c ∈ digits, SeClient.digit c

/-- A q-value. -/
inductive QValue
  | zero (f : Option QFraction)
  | one (zeros : Option (Fin 4))

def QValue.bytes : QValue → CString
  | zero none => [48]
  | zero (some f) => 48 :: 46 :: f.digits
  | one none => [49]
  | one (some n) => 49 :: 46 :: List.replicate n 48

def QValue.thousandths : QValue → ℕ
  | zero none => 0
  | zero (some f) => decimal f.digits * 10 ^ (3 - f.digits.length)
  | one _ => 1000

/-- What stands behind a semicolon. -/
inductive RangeItem
  | parameter (p : MediaParameter)
  | weight (upper : Bool) (q : QValue)

def RangeItem.bytes : RangeItem → CString
  | parameter p => p.name.chars ++ 61 :: p.value.bytes
  | weight upper q => (if upper then 81 else 113) :: 61 :: q.bytes

/-- A semicolon with what stands behind it. -/
structure SpacedItem where
  before : Blanks
  after : Blanks
  item : RangeItem

def SpacedItem.bytes (x : SpacedItem) : CString :=
  x.before.chars ++ 59 :: (x.after.chars ++ x.item.bytes)

/-- A media range, with parameters and q-values in any order. -/
structure MediaRange where
  type : HttpToken
  sub : HttpToken
  items : List SpacedItem

def MediaRange.bytes (e : MediaRange) : CString :=
  e.type.chars ++ 47 :: (e.sub.chars ++ e.items.flatMap SpacedItem.bytes)

/-- An element of a list, which may be empty. -/
structure ListElement where
  before : Blanks
  range : Option (MediaRange × Blanks)

def ListElement.bytes (x : ListElement) : CString :=
  x.before.chars ++ x.range.elim [] fun r => r.1.bytes ++ r.2.chars

/-- A header value: elements between commas. -/
def acceptValue : List ListElement → CString
  | [] => []
  | [x] => x.bytes
  | x :: elements => x.bytes ++ 44 :: acceptValue elements

/-! ## What is to be returned -/

/-- A parameter, with its name in lower case. -/
def RangeItem.text? : RangeItem → Option (CString × CString)
  | parameter p => some (toLower p.name.chars, p.value.text)
  | weight _ _ => none

/-- The quality, from that before the item. -/
def RangeItem.quality (quality : ℕ) : RangeItem → ℕ
  | parameter _ => quality
  | weight _ q => q.thousandths

/-- The type, the parameters, and the quality in thousandths. -/
def MediaRange.text (e : MediaRange) : MediaText where
  type := e.type.chars ++ 47 :: e.sub.chars
  sub := e.sub.chars
  params := e.items.filterMap fun x => x.item.text?
  quality := e.items.foldl (fun q x => x.item.quality q) 1000

/-- The media ranges of a list. -/
def ranges (elements : List ListElement) : List MediaRange :=
  elements.filterMap fun x => x.range.map Prod.fst

/-- The index of a type among those of `se_ranges`. -/
def MediaRange.index (e : MediaRange) : ℕ := stringIndex (toLower e.text.type) seRanges

/-- The first three of `se_ranges` are supported. -/
def MediaRange.supported (e : MediaRange) : Bool := e.index ≤ 2

/-- The supported type with the highest quality, the first one on ties, or XML if none is listed. -/
def Selected (es : List MediaRange) (type : ℕ) : Prop :=
  (∃ before e after, es = before ++ e :: after ∧ e.supported ∧ type = e.index ∧
    (∀ x ∈ before, x.supported → x.text.quality < e.text.quality) ∧
    ∀ x ∈ after, x.supported → x.text.quality ≤ e.text.quality) ∨
  (∀ x ∈ es, ¬x.supported) ∧ type = seXml

/-- **The media ranges are read**: successive calls return each of them once, up to the NUL of the
value and without any access behind it, and `select_media` returns the type to be selected. -/
def RangesRead (elements : List ListElement) : Prop :=
  mediaRanges ((acceptValue elements).length + 2) (acceptValue elements ++ [0]) 0 =
      some ((ranges elements).map MediaRange.text, (acceptValue elements).length) ∧
    ∃ type, selectMedia (acceptValue elements) = some type ∧ Selected (ranges elements) type

/-- A token, or the empty string. -/
def ParameterValue.plain : ParameterValue → Bool
  | token _ => true
  | quoted chars => chars.isEmpty

def RangeItem.plain : RangeItem → Bool
  | parameter p => p.value.plain
  | weight _ _ => true

/-- Values are tokens or empty, and there are four parameters at most. -/
def MediaRange.Plain (e : MediaRange) : Prop :=
  (∀ x ∈ e.items, x.item.plain) ∧ e.text.params.length ≤ 4

/-- Where no supported type has a quality other than zero, the first of them is XML. -/
def DefaultListed (es : List MediaRange) : Prop :=
  (∃ e ∈ es, e.supported ∧ 0 < e.text.quality) ∨
    ∀ e, es.find? MediaRange.supported = some e → e.index = seXml

/-! ## In front of a text -/

section
variable {p q r : RangeParser} {mem : List UInt8} {c d : UInt8} {data : ℕ} {state : RangeState}
  {text rest blanks name value : List UInt8}

/-- The parser has read the first character of a text. -/
structure RangeParser.At (p : RangeParser) (state : RangeState) (text : List UInt8) : Prop where
  state : p.state = state
  text : p.mem.drop p.data = text
  char : p.mem[p.data]? = some p.c

/-- The parser is in state 4 with the first character of a text, where a NUL may stand now. -/
structure RangeParser.Resting (p : RangeParser) (text : List UInt8) : Prop where
  state : p.state = .parameter
  char : text.head? = some p.c
  here : p.mem[p.data]? = some p.c ∨ p.mem[p.data]? = some 0
  behind : p.mem.drop (p.data + 1) = text.tail

/-- Passes that leave the media type as it is. -/
structure Silent (p q : RangeParser) : Prop where
  leads : Passes.Leads RangeParser.pass p q
  m : q.m = p.m
  i : q.i = p.i

theorem Silent.refl (p : RangeParser) : Silent p p := ⟨.refl p, rfl, rfl⟩

theorem Silent.trans (h : Silent p q) (h' : Silent q r) : Silent p r :=
  ⟨h.leads.trans h'.leads, h'.m.trans h.m, h'.i.trans h.i⟩

theorem RangeParser.At.head (h : p.At state (c :: rest)) : p.c = c :=
  Option.some.inj (h.char.symm.trans (getElem?_of_drop h.text))

theorem RangeParser.At.inside (h : p.At state text) : p.data < p.mem.length :=
  (List.getElem?_eq_some_iff.mp h.char).1

theorem RangeParser.At.resting (h : p.At .parameter text) : p.Resting text where
  state := h.state
  char := by
    rw [← h.text, List.head?_drop]
    exact h.char
  here := Or.inl h.char
  behind := by rw [← h.text, List.tail_drop]

theorem RangeParser.Resting.head (h : p.Resting (c :: rest)) : p.c = c :=
  (Option.some.inj h.char).symm

/-- Commas and blanks in front of a type are passed over. -/
theorem RangeParser.At.passed (h : p.At .type (text ++ c :: rest))
    (htext : ∀ x ∈ text, hws x ∨ x = 44) : ∃ q, Silent p q ∧ q.At .type (c :: rest) := by
  induction text generalizing p with
  | nil => exact ⟨p, .refl p, h⟩
  | cons b text ih =>
    obtain ⟨hb, htext⟩ := List.forall_mem_cons.mp htext
    have hbehind : p.mem.drop (p.data + 1) = text ++ c :: rest := drop_succ h.text
    obtain ⟨d, tail, hd⟩ := List.exists_cons_of_ne_nil
      (List.append_ne_nil_of_right_ne_nil text (List.cons_ne_nil c rest))
    have hchar := getElem?_of_drop (hbehind.trans hd)
    obtain ⟨q, hquiet, hq⟩ := ih (p := { p with data := p.data + 1, c := d })
      ⟨h.state, hbehind, hchar⟩ htext
    have hgoes : p.Goes { p with data := p.data + 1, c := d } :=
      .passed h.state (h.head ▸ hb) hchar
    exact ⟨q, Silent.trans ⟨.step hgoes.pass, rfl, rfl⟩ hquiet, hq⟩

/-- Blanks in state 4 are passed over. -/
theorem RangeParser.Resting.passed (h : p.Resting (text ++ c :: rest))
    (htext : ∀ x ∈ text, hws x) : ∃ q, Silent p q ∧ q.Resting (c :: rest) := by
  induction text generalizing p with
  | nil => exact ⟨p, .refl p, h⟩
  | cons b text ih =>
    obtain ⟨hb, htext⟩ := List.forall_mem_cons.mp htext
    obtain ⟨d, tail, hd⟩ := List.exists_cons_of_ne_nil
      (List.append_ne_nil_of_right_ne_nil text (List.cons_ne_nil c rest))
    have hchar := getElem?_of_drop (h.behind.trans hd)
    have hgoes : p.Goes { p with mem := p.mem, data := p.data + 1, state := .parameter, c := d } :=
      .blank (Or.inl ⟨h.state, rfl⟩) (h.head ▸ hb) hchar
    have hat : RangeParser.At { p with data := p.data + 1, state := .parameter, c := d } .parameter
        (text ++ c :: rest) := ⟨rfl, h.behind, hchar⟩
    obtain ⟨q, hquiet, hq⟩ := ih hat.resting htext
    exact ⟨q, Silent.trans ⟨.step hgoes.pass, rfl, rfl⟩ hquiet, hq⟩

/-- A semicolon. -/
theorem RangeParser.Resting.semicolon (h : p.Resting (59 :: c :: rest)) :
    ∃ q, Silent p q ∧ q.At .parameterName (c :: rest) := by
  have hchar := getElem?_of_drop h.behind
  have hgoes : p.Goes { p with
      mem := p.mem, data := p.data + 1, state := .parameterName, c := c } :=
    .semicolon (Or.inl ⟨h.state, rfl⟩) h.head hchar
  exact ⟨_, ⟨.step hgoes.pass, rfl, rfl⟩, rfl, h.behind, hchar⟩

/-- The name of a parameter has been read, and its equal sign is next. -/
structure RangeParser.Named (p : RangeParser) (name text : List UInt8) : Prop where
  at_ : p.At .parameterValue (61 :: text)
  prefixed : name <+: p.mem.drop p.param
  ends : p.param + name.length = p.data

/-- The name of a parameter. -/
theorem RangeParser.At.named (h : p.At .parameterName (blanks ++ (name ++ 61 :: text)))
    (hblanks : ∀ x ∈ blanks, hws x) (hne : name ≠ []) (hname : ∀ x ∈ name, tchar x) :
    ∃ q, Silent p q ∧ q.Named name text := by
  have hbehind := drop_behind h.text
  have hows : owsIn p.mem p.data = some (p.data + blanks.length) := by
    obtain ⟨a, as, rfl⟩ := List.exists_cons_of_ne_nil hne
    have ha := (tchar_ne a (hname a List.mem_cons_self)).2.1
    unfold owsIn
    rw [h.text, List.cons_append, passOver_text hblanks ha]
    rfl
  have htoken := tokenIn_text hbehind hne hname (by decide)
  have hchar := getElem?_of_drop (drop_behind hbehind)
  have hgoes := Goes.name h.state hows htoken hchar
  refine ⟨_, ⟨.step hgoes.pass, rfl, rfl⟩, ⟨rfl, drop_behind hbehind, hchar⟩, ?_, rfl⟩
  exact ⟨_, hbehind.symm⟩

theorem tchar_of_digit : ∀ c : UInt8, digit c → tchar c := by
  apply forall_byte
  decide +kernel

/-- The digits of a q-value. -/
theorem fraction_digits {n : ℕ} {ds : CString} (before : CString) (hds : ∀ x ∈ ds, digit x)
    (hlength : ds.length ≤ n) (hc : ¬tchar c) (h : mem.drop data = ds ++ c :: rest) :
    fraction mem n (decimal before) data =
      some (decimal (before ++ ds) * 10 ^ (n - ds.length), data + ds.length) := by
  induction ds generalizing n before data with
  | nil =>
    have hchar := getElem?_of_drop h
    have hdigit : ¬digit c := fun hdigit => hc (tchar_of_digit c hdigit)
    rw [List.append_nil]
    cases n with
    | zero =>
      rw [fraction, hchar]
      simp only [Option.map_some, List.length_nil, Nat.sub_zero, Nat.pow_zero, Nat.mul_one,
        Nat.add_zero]
    | succ n =>
      rw [fraction, hchar]
      dsimp only
      rw [if_neg hdigit]
      rfl
  | cons d ds ih =>
    obtain ⟨hd, hds⟩ := List.forall_mem_cons.mp hds
    cases n with
    | zero => exact absurd hlength (Nat.not_succ_le_zero _)
    | succ n =>
      have hbehind : mem.drop (data + 1) = ds ++ c :: rest := drop_succ h
      rw [fraction, getElem?_of_drop h]
      dsimp only
      rw [if_pos hd, ← decimal_append, ih _ hds (Nat.le_of_succ_le_succ hlength) hbehind,
        List.append_assoc, List.length_cons, Nat.add_sub_add_right, Nat.add_assoc,
        Nat.add_comm 1 ds.length]
      rfl

theorem decimal_zeros (n : ℕ) : decimal (List.replicate n 48) = 0 := by
  induction n with
  | zero => rfl
  | succ n ih =>
    rw [List.replicate_succ', decimal_append, ih]
    rfl

theorem qvalueIn_digit (hd : d = 48 ∨ d = 49) (hc : c ≠ 46)
    (h : mem.drop data = d :: c :: rest) :
    qvalueIn mem data = .found (if d = 48 then 0 else 1000, data + 1) := by
  unfold qvalueIn
  rw [getElem?_of_drop h]
  dsimp only
  rw [if_pos hd, getElem?_of_drop (drop_succ h)]
  dsimp only
  rw [if_neg hc]

theorem qvalueIn_fraction {ds : CString} (hd : d = 48 ∨ d = 49) (hds : ∀ x ∈ ds, digit x)
    (hlength : ds.length ≤ 3) (hone : d = 49 → decimal ds = 0) (hc : ¬tchar c)
    (h : mem.drop data = d :: 46 :: (ds ++ c :: rest)) :
    qvalueIn mem data = .found ((if d = 48 then 0 else 1000) + decimal ds * 10 ^ (3 - ds.length),
      data + 2 + ds.length) := by
  have hdigits : mem.drop (data + 2) = ds ++ c :: rest := drop_succ (drop_succ h)
  have hread : fraction mem 3 0 (data + 2) =
      some (decimal ds * 10 ^ (3 - ds.length), data + 2 + ds.length) :=
    fraction_digits [] hds hlength hc hdigits
  have hvalid : ¬((if d = 48 then 0 else 1000) = 1000 ∧ decimal ds * 10 ^ (3 - ds.length) ≠ 0) := by
    rintro ⟨hq, hne⟩
    rcases hd with rfl | rfl
    · cases hq
    · exact hne (by rw [hone rfl, Nat.zero_mul])
  unfold qvalueIn
  rw [getElem?_of_drop h]
  dsimp only
  rw [if_pos hd, getElem?_of_drop (drop_succ h)]
  dsimp only
  rw [if_pos rfl, hread]
  dsimp only
  rw [if_neg hvalid]

/-- **A q-value** is read in thousandths. -/
theorem qvalueIn_bytes {quality : QValue} (hc : ¬tchar c)
    (h : mem.drop data = quality.bytes ++ c :: rest) :
    qvalueIn mem data = .found (quality.thousandths, data + quality.bytes.length) := by
  have hdot : c ≠ 46 := by
    rintro rfl
    exact hc (by decide)
  cases quality with
  | zero f =>
    cases f with
    | none => exact qvalueIn_digit (Or.inl rfl) hdot h
    | some f =>
      rw [qvalueIn_fraction (Or.inl rfl) f.digit f.short (fun h => absurd h (by decide)) hc h,
        if_pos rfl, Nat.zero_add, Nat.add_assoc, Nat.add_comm 2]
      rfl
  | one zeros =>
    cases zeros with
    | none => exact qvalueIn_digit (Or.inr rfl) hdot h
    | some n =>
      have hzeros : ∀ x ∈ List.replicate n.val (48 : UInt8), digit x := by
        intro x hx
        rw [List.eq_of_mem_replicate hx]
        decide
      have hshort : (List.replicate n.val (48 : UInt8)).length ≤ 3 := by
        rw [List.length_replicate]
        exact Nat.le_of_lt_succ n.isLt
      rw [qvalueIn_fraction (Or.inr rfl) hzeros hshort (fun _ => decimal_zeros _) hc h,
        if_neg (by decide), decimal_zeros, Nat.zero_mul, Nat.add_zero, Nat.add_assoc,
        Nat.add_comm 2]
      rfl

end

/-! ## What is held of an element -/

section
variable {p q r : RangeParser} {mem : List UInt8} {c d : UInt8} {data quality : ℕ}
  {text rest name value type sub : List UInt8} {params : List (CString × CString)}

/-- The parameters of a media type whose names and values stand at the places. -/
def slots (places : List (ℕ × ℕ)) : List (Option ℕ) :=
  places.flatMap (fun s => [some s.1, some s.2]) ++ List.replicate (8 - 2 * places.length) none

/-- What has been read of an element stands in memory. -/
structure RangeParser.Holds (p : RangeParser) (type sub : CString)
    (params : List (CString × CString)) (quality : ℕ) : Prop where
  type : p.Kept p.m.type type
  sub : p.Kept p.m.sub sub
  places : ∃ places, p.m.param = slots places ∧
    List.Forall₂ (fun s t => p.Kept s.1 t.1 ∧ p.Kept s.2 t.2) places params
  i : p.i = 2 * params.length % 8
  quality : p.m.quality = quality

theorem forall₂_kept {places : List (ℕ × ℕ)} (hkept : ∀ s text, p.Kept s text → q.Kept s text)
    (h : List.Forall₂ (fun s t => p.Kept s.1 t.1 ∧ p.Kept s.2 t.2) places params) :
    List.Forall₂ (fun s t => q.Kept s.1 t.1 ∧ q.Kept s.2 t.2) places params :=
  h.imp fun _ _ h => ⟨hkept _ _ h.1, hkept _ _ h.2⟩

theorem Silent.holds (h : Silent p q) (hp : p.Holds type sub params quality) :
    q.Holds type sub params quality := by
  obtain ⟨places, hplaces, hread⟩ := hp.places
  have hkept : ∀ s text, p.Kept s text → q.Kept s text := fun s text hs => hs.leads h.leads
  refine ⟨?_, ?_, ⟨places, ?_, forall₂_kept hkept hread⟩, ?_, ?_⟩
  · rw [h.m]
    exact hkept _ _ hp.type
  · rw [h.m]
    exact hkept _ _ hp.sub
  · rw [h.m, hplaces]
  · rw [h.i, hp.i]
  · rw [h.m, hp.quality]

/-- State 7. -/
def RangeParser.complete (p : RangeParser) : RangeParser := { p with
  mem := p.mem.set p.data 0
  m := { p.m with param := (p.m.param.set p.i (some p.param)).set (p.i + 1) (some p.value) }
  i := (p.i + 2) &&& 7
  state := .parameter }

theorem slots_set {places : List (ℕ × ℕ)} {s t : ℕ} (h : places.length < 4) :
    ((slots places).set (2 * places.length) (some s)).set (2 * places.length + 1) (some t) =
      slots (places ++ [(s, t)]) := by
  have hpairs : ∀ l : List (ℕ × ℕ),
      (l.flatMap fun s => [some s.1, some s.2]).length = 2 * l.length := by
    intro l
    induction l with
    | nil => rfl
    | cons a l ih =>
      rw [List.flatMap_cons, List.length_append, ih, List.length_cons, List.length_cons,
        List.length_cons, List.length_nil]
      omega
  have hrest : List.replicate (8 - 2 * places.length) (none : Option ℕ) =
      none :: none :: List.replicate (8 - 2 * (places ++ [(s, t)]).length) none := by
    rw [← List.replicate_succ, ← List.replicate_succ, List.length_append, List.length_singleton]
    congr 1
    omega
  unfold slots
  rw [hrest, List.set_append_right _ _ (hpairs places).le, List.set_append_right, hpairs,
    Nat.sub_self, Nat.add_sub_cancel_left, List.flatMap_append, List.append_assoc]
  · rfl
  · rw [hpairs]
    exact Nat.le_succ _

/-- **A parameter is completed.** -/
theorem RangeParser.Holds.complete (h : p.Holds type sub params quality)
    (hstate : p.state = .completed) (hroom : params.length < 4) (hname : p.Kept p.param name)
    (hvalue : p.complete.Kept p.value value) :
    p.complete.Holds type sub (params ++ [(name, value)]) quality := by
  have hgoes : p.Goes p.complete := .completed hstate
  have hkept : ∀ s text, p.Kept s text → p.complete.Kept s text :=
    fun s text hs => hs.goes hgoes
  obtain ⟨places, hplaces, hread⟩ := h.places
  have hlength : places.length = params.length := hread.length_eq
  have hi : p.i = 2 * places.length := by
    rw [h.i, hlength]
    omega
  refine ⟨hkept _ _ h.type, hkept _ _ h.sub, ⟨places ++ [(p.param, p.value)], ?_, ?_⟩, ?_,
    h.quality⟩
  · show (p.m.param.set p.i (some p.param)).set (p.i + 1) (some p.value) = _
    rw [hplaces, hi, slots_set (by omega)]
  · exact List.rel_append (forall₂_kept hkept hread)
      (.cons ⟨hkept _ _ hname, hvalue⟩ .nil)
  · show (p.i + 2) &&& 7 = _
    rw [h.i, List.length_append, List.length_singleton, show (7 : ℕ) = 2 ^ 3 - 1 from rfl,
      Nat.and_two_pow_sub_one_eq_mod]
    omega

/-! ## What stands behind a name -/

theorem RangeParser.Named.lower (h : p.Named name text) (hname : ∀ x ∈ name, tchar x) :
    ∃ mem, lowerIn (p.mem.set p.data 0) p.param = some (toLower name, mem) ∧
      StringAt mem p.param (toLower name) ∧ mem.drop (p.data + 1) = text := by
  obtain ⟨mem, hlower, hstored, hbehind⟩ := lowerIn_name h.prefixed hname h.ends h.at_.inside
  exact ⟨mem, hlower, hstored, hbehind.trans (drop_succ h.at_.text)⟩

theorem pvalueIn_token (h : mem.drop data = value ++ c :: rest) (hne : value ≠ [])
    (hvalue : ∀ x ∈ value, tchar x) (hc : ¬tchar c) :
    pvalueIn mem data = .found (data, mem, data + value.length) := by
  have htoken := tokenIn_text h hne hvalue hc
  obtain ⟨a, as, rfl⟩ := List.exists_cons_of_ne_nil hne
  have hquote : a ≠ 34 := (tchar_ne a (hvalue a List.mem_cons_self)).2.2.2.2.2.2
  unfold pvalueIn
  rw [getElem?_of_drop h]
  dsimp only
  rw [if_neg hquote, htoken]

theorem pvalueIn_quote (h : mem.drop data = 34 :: c :: rest) :
    pvalueIn mem data = .found (data + 1, mem.set (data + 1) 0, data + 2) := by
  have hinside : data + 1 < mem.length :=
    (List.getElem?_eq_some_iff.mp (getElem?_of_drop (drop_succ h))).1
  unfold pvalueIn
  rw [getElem?_of_drop h]
  dsimp only
  rw [if_pos rfl, quotedString_open (getElem?_of_drop h), if_neg (Nat.not_le.mpr hinside)]

/-- Memory behind a place that is written. -/
theorem drop_set {n : ℕ} (hn : data < n) : (mem.set data c).drop n = mem.drop n :=
  List.drop_set_of_lt hn

/-- The parser in state 7, with the parameter that is to be completed. -/
structure RangeParser.Ready (p q : RangeParser) (name value text : List UInt8) : Prop where
  goes : p.Goes q
  state : q.state = .completed
  char : text.head? = some q.c
  inside : q.data < q.mem.length
  behind : q.mem.drop (q.data + 1) = text.tail
  m : q.m = p.m
  i : q.i = p.i
  name : q.Kept q.param name
  value : q.complete.Kept q.value value

theorem RangeParser.Ready.resting (h : p.Ready q name value text) : q.complete.Resting text where
  state := rfl
  char := h.char
  here := Or.inr (List.getElem?_set_self h.inside)
  behind := by
    show (q.mem.set q.data 0).drop (q.data + 1) = text.tail
    rw [drop_set (Nat.lt_succ_self _), h.behind]

theorem RangeParser.Ready.leads (h : p.Ready q name value text) :
    Passes.Leads RangeParser.pass p q.complete :=
  (Passes.Leads.step h.goes.pass).trans (.step (RangeParser.Goes.completed h.state).pass)

theorem RangeParser.Ready.holds (h : p.Ready q name value text)
    (hp : p.Holds type sub params quality) (hroom : params.length < 4) :
    q.complete.Holds type sub (params ++ [(name, value)]) quality := by
  have hq : q.Holds type sub params quality :=
    Silent.holds ⟨.step h.goes.pass, h.m, h.i⟩ hp
  exact hq.complete h.state hroom h.name h.value

/-- A value that is a token. -/
theorem RangeParser.Named.token (h : p.Named name (value ++ c :: rest))
    (hname : ∀ x ∈ name, tchar x) (hother : toLower name ≠ [113]) (hne : value ≠ [])
    (hvalue : ∀ x ∈ value, tchar x) (hc : ¬tchar c) :
    ∃ q, p.Ready q (toLower name) value (c :: rest) := by
  obtain ⟨mem, hlower, hstored, hbehind⟩ := h.lower hname
  have hchar := getElem?_of_drop (drop_behind hbehind)
  have hgoes : p.Goes { p with
      mem := mem, value := p.data + 1, data := p.data + 1 + value.length, state := .completed,
      c := c } := .value h.at_.state h.at_.head hlower hother
    (pvalueIn_token hbehind hne hvalue hc) hchar
  have hinside := (List.getElem?_eq_some_iff.mp hchar).1
  have hends : p.param + (toLower name).length = p.data := by
    rw [length_toLower, h.ends]
  refine ⟨_, hgoes, rfl, rfl, hinside, drop_succ (drop_behind hbehind), rfl, rfl,
    ⟨hstored, ?_, RangeState.noConfusion, RangeState.noConfusion⟩,
    ⟨stored_token ⟨_, hbehind.symm⟩ rfl hinside, Nat.le_refl _, RangeState.noConfusion,
      RangeState.noConfusion⟩⟩
  dsimp only
  omega

/-- What stands behind an opening quote is taken for the end of the value, and the character behind
it for what follows. -/
theorem RangeParser.Named.quote (h : p.Named name (34 :: d :: c :: rest))
    (hname : ∀ x ∈ name, tchar x) (hother : toLower name ≠ [113]) :
    ∃ q, p.Ready q (toLower name) [] (c :: rest) := by
  obtain ⟨mem, hlower, hstored, hbehind⟩ := h.lower hname
  have hlast : (mem.set (p.data + 2) 0).drop (p.data + 3) = c :: rest := by
    rw [drop_set (Nat.lt_succ_self _)]
    exact drop_succ (drop_succ hbehind)
  have hchar := getElem?_of_drop hlast
  have hgoes : p.Goes { p with
      mem := mem.set (p.data + 2) 0, value := p.data + 2, data := p.data + 3, state := .completed,
      c := c } := .value h.at_.state h.at_.head hlower hother (pvalueIn_quote hbehind) hchar
  have hinside := (List.getElem?_eq_some_iff.mp hchar).1
  have hroom : p.data + 2 < mem.length := by
    rw [List.length_set] at hinside
    exact Nat.lt_of_succ_lt hinside
  have hends : p.param + (toLower name).length = p.data := by
    rw [length_toLower, h.ends]
  refine ⟨_, hgoes, rfl, rfl, hinside, drop_succ hlast, rfl, rfl,
    ⟨hstored.set_zero ?_, ?_, RangeState.noConfusion, RangeState.noConfusion⟩,
    ⟨(stored_token List.nil_prefix rfl hroom).set_zero ?_, ?_, RangeState.noConfusion,
      RangeState.noConfusion⟩⟩
  · omega
  · dsimp only
    omega
  · exact Nat.le_succ _
  · exact Nat.le_succ _

/-- A q-value. -/
theorem RangeParser.Named.weight {v : QValue} (h : p.Named name (v.bytes ++ c :: rest))
    (hname : ∀ x ∈ name, tchar x) (hq : toLower name = [113]) (hc : ¬tchar c)
    (hp : p.Holds type sub params quality) :
    ∃ q, Passes.Leads RangeParser.pass p q ∧ q.Resting (c :: rest) ∧
      q.Holds type sub params v.thousandths := by
  obtain ⟨mem, hlower, hstored, hbehind⟩ := h.lower hname
  rw [hq] at hlower
  have hnext := drop_behind hbehind
  have hchar := getElem?_of_drop hnext
  have hgoes : p.Goes { p with
      mem := mem, m := { p.m with quality := v.thousandths },
      data := p.data + 1 + v.bytes.length, state := .parameter, c := c } :=
    .quality h.at_.state h.at_.head hlower (qvalueIn_bytes hc hbehind) hchar
  obtain ⟨places, hplaces, hread⟩ := hp.places
  refine ⟨_, .step hgoes.pass, RangeParser.At.resting ⟨rfl, hnext, hchar⟩, hp.type.goes hgoes,
    hp.sub.goes hgoes, ⟨places, hplaces, forall₂_kept (fun _ _ hs => hs.goes hgoes) hread⟩, hp.i,
    rfl⟩

/-! ## An element -/

/-- The type is read, and the NUL behind it is written. -/
theorem RangeParser.At.typed (h : p.At .type (type ++ 47 :: (sub ++ c :: rest))) (hm : p.m = {})
    (hi : p.i = 0) (hne : type ≠ []) (htype : ∀ x ∈ type, tchar x) (hne' : sub ≠ [])
    (hsub : ∀ x ∈ sub, tchar x) (hc : ¬tchar c) :
    ∃ q, (∀ r, Passes.Ends RangeParser.pass p r ↔ Passes.Ends RangeParser.pass q r) ∧
      q.Resting (c :: rest) ∧ q.Holds (type ++ 47 :: sub) sub [] 1000 := by
  obtain ⟨t, ts, rfl⟩ := List.exists_cons_of_ne_nil hne
  obtain ⟨s, ss, rfl⟩ := List.exists_cons_of_ne_nil hne'
  have ht := tchar_ne t (htype t List.mem_cons_self)
  have hslash := drop_behind h.text
  have hbehind := drop_succ hslash
  have hend := drop_behind hbehind
  have hchar := getElem?_of_drop hend
  have hgoes₁ : p.Goes { p with
      m := { p.m with type := p.data, quality := 1000 }, data := p.data + (t :: ts).length,
      state := .slash, c := 47 } := by
    refine .type h.state ?_ ?_ (tokenIn_text h.text hne htype (by decide)) (getElem?_of_drop hslash)
    · rw [h.head]
      exact ht.1
    · rw [h.head]
      exact not_or.mpr ⟨ht.2.1, ht.2.2.1⟩
  have hgoes₂ : RangeParser.Goes { p with
      m := { p.m with type := p.data, quality := 1000 }, data := p.data + (t :: ts).length,
      state := .slash, c := 47 } { p with
      m := { p.m with type := p.data, quality := 1000 }, data := p.data + (t :: ts).length + 1,
      state := .subtype, c := s } := .slash rfl rfl (getElem?_of_drop hbehind)
  have hgoes₃ : RangeParser.Goes { p with
      m := { p.m with type := p.data, quality := 1000 }, data := p.data + (t :: ts).length + 1,
      state := .subtype, c := s } { p with
      m := { p.m with
        type := p.data, quality := 1000, sub := p.data + (t :: ts).length + 1 },
      data := p.data + (t :: ts).length + 1 + (s :: ss).length, state := .subtypeEnd, c := c } :=
    .subtype rfl (tokenIn_text hbehind hne' hsub hc) hchar
  have hinside := (List.getElem?_eq_some_iff.mp hchar).1
  refine ⟨{ p with
    mem := p.mem.set (p.data + (t :: ts).length + 1 + (s :: ss).length) 0
    m := { p.m with type := p.data, quality := 1000, sub := p.data + (t :: ts).length + 1 }
    data := p.data + (t :: ts).length + 1 + (s :: ss).length, state := .parameter, c := c },
    fun r => ?_, ⟨rfl, rfl, Or.inr (List.getElem?_set_self hinside), ?_⟩, ?_⟩
  · have hleads := ((Passes.Leads.step hgoes₁.pass).trans (.step hgoes₂.pass)).trans
      (.step hgoes₃.pass)
    refine (hleads.ends).trans (Passes.ends_congr ?_)
    rw [RangeParser.Rests.pass (Or.inr ⟨rfl, rfl⟩), RangeParser.Rests.pass (Or.inl ⟨rfl, rfl⟩)]
  · rw [drop_set (Nat.lt_succ_self _)]
    exact drop_succ hend
  · have hbegins : t :: ts ++ 47 :: (s :: ss) <+: p.mem.drop p.data := by
      rw [h.text]
      exact ⟨c :: rest, List.append_assoc _ _ _⟩
    have hends : p.data + (t :: ts ++ 47 :: (s :: ss)).length =
        p.data + (t :: ts).length + 1 + (s :: ss).length := by
      have hcons : (47 :: (s :: ss)).length = (s :: ss).length + 1 := List.length_cons
      rw [List.length_append, hcons]
      omega
    refine ⟨⟨stored_token hbegins ?_ hinside, ?_, RangeState.noConfusion,
      RangeState.noConfusion⟩, ⟨stored_token ⟨_, hbehind.symm⟩ rfl hinside, Nat.le_refl _,
        RangeState.noConfusion, RangeState.noConfusion⟩, ⟨[], ?_, .nil⟩, hi, rfl⟩
    · exact hends
    · exact hends.le
    · show p.m.param = _
      rw [hm]
      rfl

/-- Blanks, a semicolon, blanks, and the name of a parameter. -/
theorem RangeParser.Resting.named {before after : List UInt8}
    (h : p.Resting (before ++ 59 :: (after ++ (name ++ 61 :: text))))
    (hbefore : ∀ x ∈ before, hws x) (hafter : ∀ x ∈ after, hws x) (hne : name ≠ [])
    (hname : ∀ x ∈ name, tchar x) : ∃ q, Silent p q ∧ q.Named name text := by
  obtain ⟨p₁, hquiet₁, hp₁⟩ := h.passed hbefore
  obtain ⟨b, bs, hb⟩ := List.exists_cons_of_ne_nil (l := after ++ (name ++ 61 :: text))
    (List.append_ne_nil_of_right_ne_nil _ (List.append_ne_nil_of_left_ne_nil hne _))
  rw [hb] at hp₁
  obtain ⟨p₂, hquiet₂, hp₂⟩ := hp₁.semicolon
  rw [← hb] at hp₂
  obtain ⟨q, hquiet₃, hq⟩ := hp₂.named hafter hne hname
  exact ⟨q, (hquiet₁.trans hquiet₂).trans hquiet₃, hq⟩

/-- **One item** behind a media range. -/
theorem RangeParser.Holds.item {x : SpacedItem} (h : p.Holds type sub params quality)
    (hrest : p.Resting (x.bytes ++ c :: rest)) (hc : ¬tchar c) (hplain : x.item.plain)
    (hroom : params.length + x.item.text?.toList.length ≤ 4) :
    ∃ q, Passes.Leads RangeParser.pass p q ∧ q.Resting (c :: rest) ∧
      q.Holds type sub (params ++ x.item.text?.toList) (x.item.quality quality) := by
  obtain ⟨before, after, item⟩ := x
  have hassoc : SpacedItem.bytes ⟨before, after, item⟩ ++ c :: rest =
      before.chars ++ 59 :: (after.chars ++ (item.bytes ++ c :: rest)) := by
    unfold SpacedItem.bytes
    rw [List.append_assoc, List.cons_append, List.append_assoc]
  rw [hassoc] at hrest
  cases item with
  | parameter x =>
    have hbytes : (RangeItem.parameter x).bytes ++ c :: rest =
        x.name.chars ++ 61 :: (x.value.bytes ++ c :: rest) := by
      unfold RangeItem.bytes
      rw [List.append_assoc, List.cons_append]
    rw [hbytes] at hrest
    obtain ⟨p₁, hquiet, hnamed⟩ := hrest.named before.blank after.blank x.name.nonempty
      x.name.tchars
    have hready : ∃ q, p₁.Ready q (toLower x.name.chars) x.value.text (c :: rest) := by
      cases hvalue : x.value with
      | token t =>
        rw [hvalue] at hnamed
        exact hnamed.token x.name.tchars x.other t.nonempty t.tchars hc
      | quoted chars =>
        have hnil : chars = [] := by
          have hempty : x.value.plain := hplain
          rw [hvalue] at hempty
          exact List.isEmpty_iff.mp hempty
        rw [hvalue, hnil] at hnamed
        rw [hnil]
        exact hnamed.quote x.name.tchars x.other
    obtain ⟨q, hq⟩ := hready
    exact ⟨q.complete, hquiet.leads.trans hq.leads, hq.resting,
      hq.holds (hquiet.holds h) (Nat.lt_of_succ_le hroom)⟩
  | weight upper v =>
    have hbytes : (RangeItem.weight upper v).bytes ++ c :: rest =
        [if upper then 81 else 113] ++ 61 :: (v.bytes ++ c :: rest) := rfl
    rw [hbytes] at hrest
    have hname : ∀ x ∈ [if upper then (81 : UInt8) else 113], tchar x := by
      cases upper <;> decide
    have hq : toLower [if upper then (81 : UInt8) else 113] = [113] := by
      cases upper <;> decide
    obtain ⟨p₁, hquiet, hnamed⟩ := hrest.named before.blank after.blank (List.cons_ne_nil _ _) hname
    obtain ⟨q, hleads, hresting, hholds⟩ := hnamed.weight hname hq hc (hquiet.holds h)
    refine ⟨q, hquiet.leads.trans hleads, hresting, ?_⟩
    rw [show (RangeItem.weight upper v).text?.toList = [] from rfl, List.append_nil]
    exact hholds

/-- An item begins with what is not in a token. -/
theorem spaced_head (items : List SpacedItem) (rest : List UInt8) (hc : ¬tchar c) :
    ∃ d tail, items.flatMap SpacedItem.bytes ++ c :: rest = d :: tail ∧ ¬tchar d := by
  cases items with
  | nil => exact ⟨c, rest, rfl, hc⟩
  | cons x items =>
    obtain ⟨⟨before, hbefore⟩, after, item⟩ := x
    cases before with
    | nil => exact ⟨59, _, rfl, by decide⟩
    | cons b bs =>
      refine ⟨b, _, rfl, fun hb => (tchar_ne b hb).2.1 ?_⟩
      exact hbefore b List.mem_cons_self

/-- **The items** behind a media range. -/
theorem RangeParser.Holds.items {items : List SpacedItem} (h : p.Holds type sub params quality)
    (hrest : p.Resting (items.flatMap SpacedItem.bytes ++ c :: rest)) (hc : ¬tchar c)
    (hplain : ∀ x ∈ items, x.item.plain)
    (hroom : params.length + (items.filterMap fun x => x.item.text?).length ≤ 4) :
    ∃ q, Passes.Leads RangeParser.pass p q ∧ q.Resting (c :: rest) ∧
      q.Holds type sub (params ++ items.filterMap fun x => x.item.text?)
        (items.foldl (fun q x => x.item.quality q) quality) := by
  induction items generalizing p params quality with
  | nil =>
    refine ⟨p, .refl p, hrest, ?_⟩
    rw [List.filterMap_nil, List.append_nil]
    exact h
  | cons x items ih =>
    obtain ⟨hx, hplain⟩ := List.forall_mem_cons.mp hplain
    have htexts : (x :: items).filterMap (fun x => x.item.text?) =
        x.item.text?.toList ++ items.filterMap fun x => x.item.text? := by
      rw [List.filterMap_cons]
      cases x.item.text? with
      | none => rfl
      | some t => rfl
    rw [htexts, List.length_append] at hroom
    obtain ⟨d, tail, htail, hd⟩ := spaced_head items rest hc
    rw [List.flatMap_cons, List.append_assoc, htail] at hrest
    obtain ⟨p₁, hleads₁, hresting₁, hholds₁⟩ := h.item hrest hd hx (by omega)
    rw [← htail] at hresting₁
    obtain ⟨q, hleads₂, hresting₂, hholds₂⟩ := ih hholds₁ hresting₁ hplain (by
      rw [List.length_append]
      omega)
    refine ⟨q, hleads₁.trans hleads₂, hresting₂, ?_⟩
    rw [htexts, ← List.append_assoc]
    exact hholds₂

/-- What stands behind a quoted value that is not empty, for the parser. -/
theorem RangeParser.Resting.null (h : p.Resting (c :: rest)) (hc : tchar c ∨ c = 34 ∨ c = 92) :
    Passes.Ends RangeParser.pass p .null := by
  have hneither : c ≠ 44 ∧ c ≠ 0 ∧ ¬hws c ∧ c ≠ 59 := by
    rcases hc with hc | rfl | rfl
    · have hne := tchar_ne c hc
      exact ⟨hne.2.2.1, hne.1, hne.2.1, hne.2.2.2.2.1⟩
    · decide
    · decide
  obtain ⟨hcomma, hzero, hblank, hsemicolon⟩ := hneither
  refine .last ?_
  rw [RangeParser.Rests.pass (Or.inl ⟨h.state, rfl⟩)]
  unfold parameterPass
  dsimp only
  rw [h.head, if_neg hcomma, if_neg hzero, if_neg hblank, if_neg hsemicolon]

/-- **A quoted value that is not empty** ends the list of media ranges. -/
theorem RangeParser.Resting.quoted {x : SpacedItem}
    (hrest : p.Resting (x.bytes ++ c :: rest)) (hplain : ¬x.item.plain)
    (htext : ∀ v ∈ x.item.text?, ∀ c ∈ v.2, tchar c) :
    Passes.Ends RangeParser.pass p .null := by
  obtain ⟨before, after, item⟩ := x
  cases item with
  | weight upper v => exact absurd rfl hplain
  | parameter x =>
    have hassoc : SpacedItem.bytes ⟨before, after, .parameter x⟩ ++ c :: rest =
        before.chars ++ 59 ::
          (after.chars ++ (x.name.chars ++ 61 :: (x.value.bytes ++ c :: rest))) := by
      unfold SpacedItem.bytes RangeItem.bytes
      rw [List.append_assoc, List.cons_append, List.append_assoc, List.append_assoc,
        List.cons_append]
    rw [hassoc] at hrest
    obtain ⟨p₁, hquiet, hnamed⟩ := hrest.named before.blank after.blank x.name.nonempty
      x.name.tchars
    have hvalue : ¬x.value.plain := hplain
    have htchars : ∀ c ∈ x.value.text, tchar c := htext _ rfl
    cases hquoted : x.value with
    | token t =>
      rw [hquoted] at hvalue
      exact absurd rfl hvalue
    | quoted chars =>
      rw [hquoted] at hnamed hvalue htchars
      cases chars with
      | nil => exact absurd rfl hvalue
      | cons a chars =>
        -- The second character behind the quote follows the value.
        obtain ⟨b, d, tail, htail, hd⟩ : ∃ b d tail,
            (ParameterValue.quoted (a :: chars)).bytes ++ c :: rest = 34 :: b :: d :: tail ∧
              (tchar d ∨ d = 34 ∨ d = 92) := by
          obtain ⟨ha, hchars⟩ := List.forall_mem_cons.mp htchars
          have hbytes : (ParameterValue.quoted (a :: chars)).bytes ++ c :: rest =
              34 :: (a.bytes ++ (chars.flatMap QuotedChar.bytes ++ 34 :: c :: rest)) := by
            show 34 :: ((a :: chars).flatMap QuotedChar.bytes ++ [34] ++ c :: rest) = _
            rw [List.flatMap_cons, List.append_assoc, List.append_assoc]
            rfl
          rw [hbytes]
          cases a with
          | pair b hb => exact ⟨92, b, _, rfl, Or.inl ha⟩
          | text b hb =>
            cases chars with
            | nil => exact ⟨b, 34, _, rfl, Or.inr (Or.inl rfl)⟩
            | cons a' chars =>
              have ha' := (List.forall_mem_cons.mp hchars).1
              cases a' with
              | text d hd => exact ⟨b, d, _, rfl, Or.inl ha'⟩
              | pair d hd => exact ⟨b, 92, _, rfl, Or.inr (Or.inr rfl)⟩
        rw [htail] at hnamed
        obtain ⟨q, hq⟩ := hnamed.quote x.name.tchars x.other
        rw [hquiet.leads.ends, hq.leads.ends]
        exact hq.resting.null hd

/-- What stands behind an element, and what is left for the next one. -/
inductive Parted : List UInt8 → List UInt8 → Prop
  | comma (next : List UInt8) : Parted (44 :: next) next
  | nul (rest : List UInt8) : Parted (0 :: rest) (0 :: rest)

theorem paramTexts_slots {places : List (ℕ × ℕ)}
    (h : List.Forall₂ (fun s t => p.Kept s.1 t.1 ∧ p.Kept s.2 t.2) places params)
    (hzero : ∀ t ∈ params, (∀ x ∈ t.1, x ≠ 0) ∧ ∀ x ∈ t.2, x ≠ 0) (n : ℕ) :
    paramTexts p.mem (places.flatMap (fun s => [some s.1, some s.2]) ++ List.replicate n none) =
      some params := by
  induction h with
  | nil =>
    cases n with
    | zero => rfl
    | succ n => rfl
  | @cons s t places params hst _ ih =>
    obtain ⟨ht, hzero⟩ := List.forall_mem_cons.mp hzero
    rw [List.flatMap_cons, List.append_assoc]
    show paramTexts p.mem (some s.1 :: some s.2 ::
      (places.flatMap (fun s => [some s.1, some s.2]) ++ List.replicate n none)) = _
    rw [paramTexts, hst.1.stored.read ht.1, Option.bind_some, hst.2.stored.read ht.2,
      Option.bind_some, ih hzero]
    rfl

/-- What is held is what a caller reads. -/
theorem RangeParser.Holds.read (h : p.Holds type sub params quality) (htype : ∀ x ∈ type, x ≠ 0)
    (hsub : ∀ x ∈ sub, x ≠ 0)
    (hzero : ∀ t ∈ params, (∀ x ∈ t.1, x ≠ 0) ∧ ∀ x ∈ t.2, x ≠ 0) :
    p.m.text p.mem = some ⟨type, sub, params, quality⟩ := by
  obtain ⟨places, hplaces, hread⟩ := h.places
  unfold MediaType.text
  rw [h.type.stored.read htype, Option.bind_some, h.sub.stored.read hsub, Option.bind_some,
    hplaces, slots, paramTexts_slots hread hzero, h.quality]
  rfl

theorem ne_zero_of_tchar (h : ∀ x ∈ text, tchar x) : ∀ x ∈ text, x ≠ 0 :=
  fun x hx => (tchar_ne x (h x hx)).1

theorem MediaRange.type_ne_zero (e : MediaRange) : ∀ x ∈ e.text.type, x ≠ 0 := by
  intro x hx
  rcases List.mem_append.mp hx with hx | hx
  · exact ne_zero_of_tchar e.type.tchars x hx
  · rcases List.mem_cons.mp hx with rfl | hx
    · decide
    · exact ne_zero_of_tchar e.sub.tchars x hx

theorem MediaRange.params_ne_zero {e : MediaRange} (hplain : ∀ x ∈ e.items, x.item.plain) :
    ∀ t ∈ e.text.params, (∀ x ∈ t.1, x ≠ 0) ∧ ∀ x ∈ t.2, x ≠ 0 := by
  intro t ht
  obtain ⟨x, hx, htext⟩ := List.mem_filterMap.mp ht
  have hitem := hplain x hx
  cases hx' : x.item with
  | weight upper v =>
    rw [hx'] at htext
    cases htext
  | parameter y =>
    rw [hx'] at htext hitem
    cases htext
    refine ⟨ne_zero_of_tchar (tchar_toLower y.name.tchars), ?_⟩
    have hvalue : y.value.plain := hitem
    cases hv : y.value with
    | token t => exact ne_zero_of_tchar t.tchars
    | quoted chars =>
      rw [hv] at hvalue
      rw [List.isEmpty_iff.mp hvalue]
      exact fun c hc => absurd hc List.not_mem_nil

/-- The end of an element. -/
theorem RangeParser.Resting.parted {tail next : List UInt8} (h : p.Resting tail)
    (hparted : Parted tail next) :
    ∃ data, Passes.Ends RangeParser.pass p (.found p.m p.mem data) ∧ p.mem.drop data = next ∧
      p.data ≤ data := by
  have hpass : p.pass = { p with mem := p.mem, state := .parameter }.parameterPass :=
    RangeParser.Rests.pass (Or.inl ⟨h.state, rfl⟩)
  unfold parameterPass at hpass
  dsimp only at hpass
  cases hparted with
  | comma =>
    rw [h.head, if_pos rfl] at hpass
    exact ⟨p.data + 1, .last hpass, h.behind, Nat.le_succ _⟩
  | nul rest =>
    rw [h.head, if_neg (by decide), if_pos rfl] at hpass
    have hhere : p.mem[p.data]? = some 0 := by
      rcases h.here with hhere | hhere
      · rw [hhere, h.head]
      · exact hhere
    obtain ⟨hinside, hzero⟩ := List.getElem?_eq_some_iff.mp hhere
    refine ⟨p.data, .last hpass, ?_, Nat.le_refl _⟩
    rw [List.drop_eq_getElem_cons hinside, hzero, h.behind]
    rfl

theorem Parted.head {tail next : List UInt8} (h : Parted tail next) :
    ∃ c rest, tail = c :: rest ∧ ¬tchar c := by
  cases h with
  | comma => exact ⟨44, next, rfl, by decide⟩
  | nul rest => exact ⟨0, rest, rfl, by decide⟩

/-- Blanks in front of it. -/
theorem Parted.blanks_head {tail next : List UInt8} (h : Parted tail next) (trail : Blanks) :
    ∃ c rest, trail.chars ++ tail = c :: rest ∧ ¬tchar c := by
  obtain ⟨trail, htrail⟩ := trail
  cases trail with
  | nil => exact h.head
  | cons b bs => exact ⟨b, _, rfl, fun hb => (tchar_ne b hb).2.1 (htrail b List.mem_cons_self)⟩

theorem MediaRange.bytes_append (e : MediaRange) (text : List UInt8) :
    e.bytes ++ text =
      e.type.chars ++ 47 :: (e.sub.chars ++ (e.items.flatMap SpacedItem.bytes ++ text)) := by
  unfold MediaRange.bytes
  rw [List.append_assoc, List.cons_append, List.append_assoc]

/-- **A plain element** is returned. -/
theorem RangeParser.At.element {e : MediaRange} {trail : Blanks} {tail next : List UInt8}
    (h : p.At .type (e.bytes ++ (trail.chars ++ tail))) (hm : p.m = {}) (hi : p.i = 0)
    (hparted : Parted tail next) (hplain : e.Plain) :
    ∃ m mem data, Passes.Ends RangeParser.pass p (.found m mem data) ∧ mem.drop data = next ∧
      m.text mem = some e.text ∧ StringAt mem m.type e.text.type ∧
      m.type + e.text.type.length ≤ data := by
  obtain ⟨c, rest, hbehind, hc⟩ := hparted.blanks_head trail
  rw [hbehind, e.bytes_append] at h
  obtain ⟨d, more, hmore, hd⟩ := spaced_head e.items rest hc
  rw [hmore] at h
  obtain ⟨p₁, hends₁, hresting₁, hholds₁⟩ := h.typed hm hi e.type.nonempty e.type.tchars
    e.sub.nonempty e.sub.tchars hd
  rw [← hmore] at hresting₁
  obtain ⟨p₂, hleads₂, hresting₂, hholds₂⟩ := hholds₁.items hresting₁ hc hplain.1 (by
    rw [List.length_nil, Nat.zero_add]
    exact hplain.2)
  obtain ⟨a, as, ha, -⟩ := hparted.head
  rw [← hbehind, ha] at hresting₂
  obtain ⟨p₃, hquiet₃, hresting₃⟩ := hresting₂.passed trail.blank
  rw [← ha] at hresting₃
  have hholds₃ := hquiet₃.holds hholds₂
  rw [List.nil_append] at hholds₃
  obtain ⟨data, hends, hnext, hle⟩ := hresting₃.parted hparted
  refine ⟨p₃.m, p₃.mem, data, ?_, hnext, ?_, hholds₃.type.stored, ?_⟩
  · rw [hends₁, hleads₂.ends, hquiet₃.leads.ends]
    exact hends
  · exact hholds₃.read e.type_ne_zero (ne_zero_of_tchar e.sub.tchars)
      (MediaRange.params_ne_zero hplain.1)
  · exact Nat.le_trans hholds₃.type.behind hle

/-- **An element that is not plain** is not returned, if its parameters might be. -/
theorem RangeParser.At.not_plain {e : MediaRange} {trail : Blanks} {tail next : List UInt8}
    (h : p.At .type (e.bytes ++ (trail.chars ++ tail))) (hm : p.m = {}) (hi : p.i = 0)
    (hparted : Parted tail next) (hplain : ¬e.Plain) (hlength : e.text.params.length ≤ 4)
    (htchars : ∀ v ∈ e.text.params, ∀ x ∈ v.2, tchar x) :
    Passes.Ends RangeParser.pass p .null := by
  obtain ⟨x, hx⟩ : ∃ x, e.items.find? (fun x => !x.item.plain) = some x := by
    rw [← Option.isSome_iff_exists, List.find?_isSome]
    by_contra hnone
    refine hplain ⟨fun x hx => ?_, hlength⟩
    by_contra hbad
    exact hnone ⟨x, hx, by rw [Bool.not_eq_true']; exact Bool.eq_false_of_not_eq_true hbad⟩
  obtain ⟨hbad, good, more, hitems, hgood⟩ := List.find?_eq_some_iff_append.mp hx
  have hsplit : e.items.flatMap SpacedItem.bytes ++ (trail.chars ++ tail) =
      good.flatMap SpacedItem.bytes ++
        (x.bytes ++ (more.flatMap SpacedItem.bytes ++ (trail.chars ++ tail))) := by
    rw [hitems, List.flatMap_append, List.flatMap_cons, List.append_assoc, List.append_assoc]
  obtain ⟨c, rest, hbehind, hc⟩ := hparted.blanks_head trail
  obtain ⟨d, more', hmore, hd⟩ := spaced_head more rest hc
  obtain ⟨a, as, hfirst, ha⟩ := spaced_head [x] more' hd
  obtain ⟨b, bs, hall, hb⟩ := spaced_head good as ha
  rw [List.flatMap_cons, List.flatMap_nil, List.append_nil] at hfirst
  rw [e.bytes_append, hsplit, hbehind, hmore, hfirst, hall] at h
  obtain ⟨p₁, hends₁, hresting₁, hholds₁⟩ := h.typed hm hi e.type.nonempty e.type.tchars
    e.sub.nonempty e.sub.tchars hb
  rw [← hall] at hresting₁
  have htexts : e.text.params = good.filterMap (fun x => x.item.text?) ++
      (x :: more).filterMap fun x => x.item.text? := by
    show e.items.filterMap _ = _
    rw [hitems, List.filterMap_append]
  obtain ⟨p₂, hleads₂, hresting₂, -⟩ := hholds₁.items hresting₁ ha
    (fun y hy => by
      have hy := hgood y hy
      rwa [Bool.not_not] at hy)
    (by
      rw [htexts, List.length_append] at hlength
      rw [List.length_nil, Nat.zero_add]
      omega)
  rw [← hfirst] at hresting₂
  rw [hends₁, hleads₂.ends]
  refine hresting₂.quoted ?_ fun v hv => htchars v ?_
  · rw [Bool.not_eq_true'] at hbad
    rw [hbad]
    exact Bool.false_ne_true
  · exact List.mem_filterMap.mpr ⟨x, hitems ▸ List.mem_append_right _ List.mem_cons_self, hv⟩

/-! ## A call -/

theorem length_of_ends {m : MediaType} (h : Passes.Ends RangeParser.pass p (.found m mem data)) :
    mem.length = p.mem.length := by
  have hresult := h.result (fun q => q.mem.length = p.mem.length)
    (fun r => ∀ m mem data, r = .found m mem data → mem.length = p.mem.length)
    (fun s t hs hpass => (RangeParser.Goes.of_pass hpass).length.trans hs)
    (by
      rintro s _ hs hpass m mem data rfl
      exact (RangeParser.found_of_pass hpass).1.length.trans hs) rfl
  exact hresult m mem data rfl

/-- A call, in front of what is not passed over. -/
theorem mediaRange_over {pre : List UInt8} (h : mem.drop data = pre ++ c :: rest)
    (hpre : ∀ x ∈ pre, hws x ∨ x = 44) :
    ∃ p : RangeParser, p.At .type (c :: rest) ∧ p.m = {} ∧ p.i = 0 ∧ p.mem.length = mem.length ∧
      ∀ r, mediaRange mem data = some r ↔ Passes.Ends RangeParser.pass p r := by
  obtain ⟨d, tail, hd⟩ := List.exists_cons_of_ne_nil
    (List.append_ne_nil_of_right_ne_nil pre (List.cons_ne_nil c rest))
  have hchar := getElem?_of_drop (h.trans hd)
  have hat : RangeParser.At { mem := mem, c := d, data := data } .type (pre ++ c :: rest) :=
    ⟨rfl, h, hchar⟩
  obtain ⟨p, hquiet, hp⟩ := hat.passed hpre
  have hlength : p.mem.length = mem.length :=
    hquiet.leads.invariant (fun q => q.mem.length = mem.length)
      (fun s t hs hpass => (RangeParser.Goes.of_pass hpass).length.trans hs) rfl
  refine ⟨p, hp, hquiet.m, hquiet.i, hlength, fun r => ?_⟩
  rw [mediaRange_iff hchar, hquiet.leads.ends]

/-- What a call makes of an element. -/
structure Returned (mem : List UInt8) (data : ℕ) (e : MediaRange) (next : List UInt8) : Prop where
  plain : e.Plain → ∃ m mem' data', mediaRange mem data = some (.found m mem' data') ∧
    mem'.length = mem.length ∧ mem'.drop data' = next ∧ m.text mem' = some e.text ∧
    StringAt mem' m.type e.text.type ∧ m.type + e.text.type.length ≤ data'
  not_plain : ¬e.Plain → e.text.params.length ≤ 4 → (∀ v ∈ e.text.params, ∀ x ∈ v.2, tchar x) →
    mediaRange mem data = some .null

theorem acceptValue_parted (x : ListElement) (elements : List ListElement) :
    ∃ tail, acceptValue (x :: elements) ++ [0] = x.bytes ++ tail ∧
      Parted tail (acceptValue elements ++ [0]) := by
  cases elements with
  | nil => exact ⟨[0], rfl, .nul []⟩
  | cons y elements =>
    refine ⟨44 :: (acceptValue (y :: elements) ++ [0]), ?_, .comma _⟩
    show x.bytes ++ 44 :: acceptValue (y :: elements) ++ [0] = _
    rw [List.append_assoc, List.cons_append]

theorem Parted.commas {tail next : List UInt8} (h : Parted tail next) :
    ∃ commas, tail = commas ++ next ∧ ∀ x ∈ commas, x = 44 := by
  cases h with
  | comma => exact ⟨[44], rfl, fun x hx => List.mem_singleton.mp hx⟩
  | nul rest => exact ⟨[], rfl, fun x hx => absurd hx List.not_mem_nil⟩

/-- **The next call** finds the next element that is not empty, or the NUL. -/
theorem next_range {elements : List ListElement} (pre : List UInt8)
    (h : mem.drop data = pre ++ (acceptValue elements ++ [0]))
    (hpre : ∀ x ∈ pre, hws x ∨ x = 44) :
    (ranges elements = [] ∧ mediaRange mem data = some (.ended (mem.length - 1))) ∨
    ∃ e elements', ranges elements = e :: ranges elements' ∧
      elements'.length < elements.length ∧ Returned mem data e (acceptValue elements' ++ [0]) := by
  induction elements generalizing pre with
  | nil =>
    obtain ⟨p, hp, -, -, hlength, hcall⟩ := mediaRange_over h hpre
    refine Or.inl ⟨rfl, (hcall _).mpr (.last ?_)⟩
    have hdata := congrArg List.length hp.text
    rw [List.length_drop, List.length_singleton, hlength] at hdata
    unfold RangeParser.pass
    rw [hp.state]
    dsimp only
    unfold RangeParser.typePass
    rw [if_pos hp.head, show p.data = mem.length - 1 by omega]
  | cons x elements ih =>
    obtain ⟨tail, htail, hparted⟩ := acceptValue_parted x elements
    rw [htail] at h
    obtain ⟨before, range⟩ := x
    cases range with
    | none =>
      obtain ⟨commas, hcommas, hmem⟩ := hparted.commas
      have hbytes : ListElement.bytes ⟨before, none⟩ = before.chars := List.append_nil _
      rw [hbytes, hcommas, ← List.append_assoc, ← List.append_assoc] at h
      rcases ih (pre ++ before.chars ++ commas) h (by
        intro c hc
        rcases List.mem_append.mp hc with hc | hc
        · rcases List.mem_append.mp hc with hc | hc
          · exact hpre c hc
          · exact Or.inl (before.blank c hc)
        · exact Or.inr (hmem c hc)) with ⟨hnone, hended⟩ | ⟨e, elements', hranges, hless, hreturned⟩
      · exact Or.inl ⟨hnone, hended⟩
      · exact Or.inr ⟨e, elements', hranges, Nat.lt_succ_of_lt hless, hreturned⟩
    | some r =>
      obtain ⟨e, trail⟩ := r
      have hbytes : ListElement.bytes ⟨before, some (e, trail)⟩ ++ tail =
          before.chars ++ (e.bytes ++ (trail.chars ++ tail)) := by
        show before.chars ++ (e.bytes ++ trail.chars) ++ tail = _
        rw [List.append_assoc, List.append_assoc]
      obtain ⟨c, rest, hc⟩ := List.exists_cons_of_ne_nil (l := e.bytes ++ (trail.chars ++ tail)) (by
        rw [e.bytes_append]
        exact List.append_ne_nil_of_left_ne_nil e.type.nonempty _)
      rw [hbytes, ← List.append_assoc, hc] at h
      obtain ⟨p, hp, hm, hi, hlength, hcall⟩ := mediaRange_over h (by
        intro c hc
        rcases List.mem_append.mp hc with hc | hc
        · exact hpre c hc
        · exact Or.inl (before.blank c hc))
      rw [← hc] at hp
      refine Or.inr ⟨e, elements, rfl, Nat.lt_succ_self _, ?_, ?_⟩
      · intro hplain
        obtain ⟨m, mem', data', hends, hnext, htext, hstored, hle⟩ :=
          hp.element hm hi hparted hplain
        exact ⟨m, mem', data', (hcall _).mpr hends, (length_of_ends hends).trans hlength, hnext,
          htext, hstored, hle⟩
      · intro hplain hfour htchars
        exact (hcall _).mpr (hp.not_plain hm hi hparted hplain hfour htchars)

/-! ## Successive calls -/

/-- **Successive calls** return the elements if and only if all of them are plain. -/
theorem mediaRanges_iff {fuel : ℕ} {elements : List ListElement} (hfuel : elements.length < fuel)
    (h : mem.drop data = acceptValue elements ++ [0]) :
    mediaRanges fuel mem data = some ((ranges elements).map MediaRange.text, mem.length - 1) ↔
      ∀ e ∈ ranges elements, e.Plain := by
  induction fuel generalizing mem data elements with
  | zero => exact absurd hfuel (Nat.not_lt_zero _)
  | succ fuel ih =>
    rcases next_range [] h (fun x hx => absurd hx List.not_mem_nil) with
      ⟨hnone, hended⟩ | ⟨e, elements', hranges, hless, hreturned⟩
    · rw [mediaRanges, hended, hnone]
      exact iff_of_true rfl fun e he => absurd he List.not_mem_nil
    · rw [hranges, List.forall_mem_cons, List.map_cons]
      by_cases hplain : e.Plain
      · obtain ⟨m, mem', data', hcall, hlength, hnext, htext, -⟩ := hreturned.plain hplain
        have hrest := ih (by omega) hnext
        rw [mediaRanges, hcall]
        dsimp only
        rw [htext, Option.bind_some, and_iff_right hplain, ← hrest, hlength,
          Option.map_eq_some_iff]
        constructor
        · rintro ⟨⟨texts, last⟩, hread, heq⟩
          obtain ⟨htexts, hlast⟩ := Prod.mk.inj heq
          obtain rfl : texts = _ := (List.cons.inj htexts).2
          obtain rfl : last = _ := hlast
          exact hread
        · intro hread
          exact ⟨_, hread, rfl⟩
      · refine iff_of_false (fun hread => ?_) fun hall => hplain hall.1
        rw [mediaRanges] at hread
        cases hcall : mediaRange mem data with
        | none =>
          rw [hcall] at hread
          cases hread
        | some r =>
          rw [hcall] at hread
          cases r with
          | outside => cases hread
          | null => cases hread
          | ended data => cases (Option.some.inj hread)
          | found m mem' data' =>
            obtain ⟨texts, htexts, hmap⟩ := Option.bind_eq_some_iff.mp hread
            obtain ⟨⟨more, last⟩, -, heq⟩ := Option.map_eq_some_iff.mp hmap
            obtain rfl : texts = e.text := (List.cons.inj (Prod.mk.inj heq).1).1
            obtain ⟨hfour, htchars⟩ := mediaRange_params hcall htexts
            rw [hreturned.not_plain hplain hfour htchars] at hcall
            cases Option.some.inj hcall

/-! ## The selection -/

theorem lowerIn_stored {s : ℕ} (h : StringAt mem s text) (htext : ∀ x ∈ text, x ≠ 0) :
    ∃ mem', lowerIn mem s = some (toLower text, mem') ∧ mem'.length = mem.length ∧
      ∀ n, s + text.length ≤ n → mem'.drop n = mem.drop n := by
  have hlower : lowerIn mem s =
      some (toLower text, mem.take s ++ toLower text ++ mem.drop (s + text.length)) := by
    unfold lowerIn
    rw [h.read htext, Option.map_some]
  have hinside : s ≤ mem.length := by
    have hle := h.length_le
    rw [List.length_append, List.length_singleton, List.length_drop] at hle
    omega
  have hfront : (mem.take s ++ toLower text).length = s + text.length := by
    rw [List.length_append, List.length_take, length_toLower, Nat.min_eq_left hinside]
  refine ⟨_, hlower, lowerIn_length hlower, fun n hn => ?_⟩
  rw [List.drop_append, List.drop_eq_nil_of_le (by omega), List.nil_append, hfront,
    List.drop_drop, Nat.add_sub_cancel' hn]

/-- The type that is selected, from that before the elements and its quality. -/
def pick : ℕ → ℕ → List MediaRange → ℕ
  | type, _, [] => type
  | type, quality, e :: es =>
    if e.supported ∧ quality < e.text.quality then pick e.index e.text.quality es
    else pick type quality es

/-- **`select_media`**, when all elements are plain. -/
theorem selectLoop_plain {fuel type quality : ℕ} {elements : List ListElement}
    (hfuel : elements.length < fuel) (h : mem.drop data = acceptValue elements ++ [0])
    (hplain : ∀ e ∈ ranges elements, e.Plain) :
    selectLoop fuel mem data type quality = some (pick type quality (ranges elements)) := by
  induction fuel generalizing mem data elements type quality with
  | zero => exact absurd hfuel (Nat.not_lt_zero _)
  | succ fuel ih =>
    rcases next_range [] h (fun x hx => absurd hx List.not_mem_nil) with
      ⟨hnone, hended⟩ | ⟨e, elements', hranges, hless, hreturned⟩
    · rw [selectLoop, hended, hnone]
      rfl
    · rw [hranges] at hplain ⊢
      obtain ⟨he, hplain⟩ := List.forall_mem_cons.mp hplain
      obtain ⟨m, mem', data', hcall, -, hnext, htext, hstored, hle⟩ := hreturned.plain he
      obtain ⟨mem'', hlower, -, hbehind⟩ := lowerIn_stored hstored e.type_ne_zero
      have hrange : seRange mem' m.type = some (e.index, mem'') := by
        unfold seRange
        rw [hlower]
        rfl
      have hquality : m.quality = e.text.quality := by
        obtain ⟨type, -, htext⟩ := Option.bind_eq_some_iff.mp htext
        obtain ⟨sub, -, htext⟩ := Option.bind_eq_some_iff.mp htext
        obtain ⟨params, -, htext⟩ := Option.map_eq_some_iff.mp htext
        exact congrArg MediaText.quality htext
      rw [← hbehind data' hle] at hnext
      rw [selectLoop, hcall]
      dsimp only
      rw [hrange, Option.bind_some, pick, hquality]
      by_cases hbetter : e.index ≤ 2 ∧ quality < e.text.quality
      · rw [if_pos hbetter, if_pos ⟨decide_eq_true hbetter.1, hbetter.2⟩]
        exact ih (by omega) hnext hplain
      · rw [if_neg hbetter, if_neg fun h => hbetter ⟨of_decide_eq_true h.1, h.2⟩]
        exact ih (by omega) hnext hplain

end

section
variable {es : List MediaRange} {type quality : ℕ}

/-- How the type is selected. -/
theorem pick_cases (type quality : ℕ) (es : List MediaRange) :
    (pick type quality es = type ∧ ∀ x ∈ es, x.supported → x.text.quality ≤ quality) ∨
    ∃ before e after, es = before ++ e :: after ∧ e.supported ∧ quality < e.text.quality ∧
      pick type quality es = e.index ∧
      (∀ x ∈ before, x.supported → x.text.quality < e.text.quality) ∧
      ∀ x ∈ after, x.supported → x.text.quality ≤ e.text.quality := by
  induction es generalizing type quality with
  | nil => exact Or.inl ⟨rfl, fun x hx => absurd hx List.not_mem_nil⟩
  | cons e es ih =>
    rw [pick]
    by_cases he : e.supported ∧ quality < e.text.quality
    · rw [if_pos he]
      rcases ih e.index e.text.quality with
        ⟨hpick, hall⟩ | ⟨before, x, after, rfl, hx, hless, hpick, hbefore, hafter⟩
      · exact Or.inr ⟨[], e, es, rfl, he.1, he.2, hpick, fun x hx => absurd hx List.not_mem_nil,
          hall⟩
      · refine Or.inr ⟨e :: before, x, after, rfl, hx, he.2.trans hless, hpick, ?_, hafter⟩
        exact List.forall_mem_cons.mpr ⟨fun _ => hless, hbefore⟩
    · rw [if_neg he]
      have hle : e.supported → e.text.quality ≤ quality :=
        fun hsupported => Nat.not_lt.mp fun hless => he ⟨hsupported, hless⟩
      rcases ih type quality with
        ⟨hpick, hall⟩ | ⟨before, x, after, rfl, hx, hless, hpick, hbefore, hafter⟩
      · exact Or.inl ⟨hpick, List.forall_mem_cons.mpr ⟨hle, hall⟩⟩
      · refine Or.inr ⟨e :: before, x, after, rfl, hx, hless, hpick, ?_, hafter⟩
        exact List.forall_mem_cons.mpr ⟨fun h => (hle h).trans_lt hless, hbefore⟩

/-- **The selection is right** unless a type of quality zero would have to be selected. -/
theorem selected_pick_iff : Selected es (pick seXml 0 es) ↔ DefaultListed es := by
  rcases pick_cases seXml 0 es with
    ⟨hpick, hall⟩ | ⟨before, e, after, rfl, he, hless, hpick, hbefore, hafter⟩
  · rw [hpick]
    constructor
    · intro hselected
      refine Or.inr fun e he => ?_
      rcases hselected with ⟨before, x, after, rfl, hx, htype, hbefore, -⟩ | ⟨hnone, -⟩
      · have hzero := hall x (List.mem_append_right _ List.mem_cons_self) hx
        have hfirst : (before ++ x :: after).find? MediaRange.supported = some x := by
          refine List.find?_eq_some_iff_append.mpr ⟨hx, before, after, rfl, fun y hy => ?_⟩
          by_contra hy'
          rw [Bool.not_eq_true', Bool.not_eq_false] at hy'
          have := hbefore y hy hy'
          omega
        obtain rfl := Option.some.inj (hfirst.symm.trans he)
        exact htype.symm
      · exact absurd (List.find?_some he) (hnone e (List.mem_of_find?_eq_some he))
    · rintro (⟨e, he, hsupported, hpos⟩ | hfirst)
      · exact absurd (hall e he hsupported) (Nat.not_le.mpr hpos)
      · cases hfind : es.find? MediaRange.supported with
        | none => exact Or.inr ⟨fun x hx => List.find?_eq_none.mp hfind x hx, rfl⟩
        | some e =>
          obtain ⟨hsupported, before, after, rfl, hbefore⟩ := List.find?_eq_some_iff_append.mp hfind
          refine Or.inl ⟨before, e, after, rfl, hsupported, (hfirst e hfind).symm, ?_, ?_⟩
          · intro x hx hx'
            have hnot := hbefore x hx
            rw [hx'] at hnot
            cases hnot
          · intro x hx hx'
            have hzero := hall x (List.mem_append_right _ (List.mem_cons_of_mem _ hx)) hx'
            omega
  · rw [hpick]
    refine iff_of_true ?_ ?_
    · exact Or.inl ⟨before, e, after, rfl, he, rfl, hbefore, hafter⟩
    · exact Or.inl ⟨e, List.mem_append_right _ List.mem_cons_self, he, hless⟩

theorem length_le_acceptValue (elements : List ListElement) :
    elements.length ≤ (acceptValue elements).length + 1 := by
  induction elements with
  | nil => exact Nat.zero_le _
  | cons x elements ih =>
    cases elements with
    | nil => exact Nat.le_add_left 1 _
    | cons y elements =>
      show _ ≤ (x.bytes ++ 44 :: acceptValue (y :: elements)).length + 1
      have hcomma : (44 :: acceptValue (y :: elements)).length =
          (acceptValue (y :: elements)).length + 1 := List.length_cons
      rw [List.length_append, hcomma, List.length_cons]
      omega

/-- **Exactly which lists of media ranges are read.** -/
theorem rangesRead_iff (elements : List ListElement) :
    RangesRead elements ↔
      (∀ e ∈ ranges elements, e.Plain) ∧ DefaultListed (ranges elements) := by
  have hfuel : elements.length < (acceptValue elements).length + 2 :=
    Nat.lt_succ_of_le (length_le_acceptValue elements)
  have hread : mediaRanges ((acceptValue elements).length + 2) (acceptValue elements ++ [0]) 0 =
      some ((ranges elements).map MediaRange.text, (acceptValue elements ++ [0]).length - 1) ↔
        ∀ e ∈ ranges elements, e.Plain := mediaRanges_iff hfuel rfl
  rw [List.length_append, List.length_singleton, Nat.add_sub_cancel] at hread
  unfold RangesRead
  rw [hread]
  refine and_congr_right fun hplain => ?_
  have hselect : selectMedia (acceptValue elements) = some (pick seXml 0 (ranges elements)) :=
    selectLoop_plain hfuel rfl hplain
  rw [hselect, ← selected_pick_iff]
  constructor
  · rintro ⟨type, htype, hselected⟩
    rwa [Option.some.inj htype]
  · intro hselected
    exact ⟨_, rfl, hselected⟩

/-- `a/b;x="y"` -/
def quotedElement : ListElement where
  before := ⟨[], by decide⟩
  range := some (⟨⟨[97], by decide, by decide⟩, ⟨[98], by decide, by decide⟩,
    [⟨⟨[], by decide⟩, ⟨[], by decide⟩, .parameter ⟨⟨[120], by decide, by decide⟩,
      .quoted [.text 121 (by decide)], by decide⟩⟩]⟩, ⟨[], by decide⟩)

/-- A quoted value ends the list. -/
theorem not_rangesRead : ¬∀ elements, RangesRead elements := by
  intro h
  have hread : mediaRanges 11 (acceptValue [quotedElement] ++ [0]) 0 =
      some ([⟨[97, 47, 98], [98], [([120], [121])], 1000⟩], 9) := (h [quotedElement]).1
  exact absurd hread (by decide)

end

end SeClient
