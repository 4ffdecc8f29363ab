import Mathlib.Data.List.TakeWhile
import SeClient.HttpLines
import SeClient.Passes

/-!
# URI queries

`parse_query` of `query.c` reads fields of a letter, an equal sign and a number, with `&` between
them.  Behind an `&` any character is taken for a letter, the NUL as well, and a number is narrowed
when it is stored.
-/

namespace SeClient

/-! ## `parse_query` -/

/-- The value of an `int64_t`, in two's complement. -/
def toInt64 (x : ℤ) : ℤ := x.bmod (2 ^ 64)

/-- `Query`, with the defaults of `parse_query`. -/
structure Query where
  after : ℤ := 0
  start : ℕ := 0
  limit : ℕ := 1
deriving DecidableEq, Repr

/-- The states 0 to 5. -/
inductive QueryState
  | start | letter | equals | firstDigit | number | done
deriving DecidableEq, Repr

/-- The variables of `parse_query`; memory ends with the NUL of the query. -/
structure QueryParser where
  mem : List UInt8
  query : ℕ := 0
  state : QueryState := .start
  p : UInt8 := 0
  x : ℤ := 0
  q : Query := {}
deriving DecidableEq, Repr

/-- What `parse_query` returns, and what it leaves in the fields; `outside` is a read behind the
NUL. -/
inductive QueryResult
  | outside
  | returned (accepted : Bool) (q : Query)
deriving DecidableEq, Repr

namespace QueryParser

/-- `switch (p)` -/
def store (s : QueryParser) : Option Query :=
  if s.p = 97 then some { s.q with after := s.x }
  else if s.p = 108 then some { s.q with limit := (s.x % 2 ^ 8).toNat }
  else if s.p = 115 then some { s.q with start := (s.x % 2 ^ 16).toNat }
  else none

/-- A pass of `parse_query`. -/
def pass (s : QueryParser) : QueryParser ⊕ QueryResult :=
  match s.mem[s.query]? with
  | none => .inr .outside
  | some c =>
    match s.state with
    | .start =>
      if c = 0 then .inr (.returned true s.q)
      else .inl { s with p := c, state := .equals, query := s.query + 1 }
    | .letter => .inl { s with p := c, state := .equals, query := s.query + 1 }
    | .equals =>
      if c ≠ 61 then .inr (.returned false s.q)
      else .inl { s with state := .firstDigit, query := s.query + 1 }
    | .firstDigit =>
      if digit c then
        .inl { s with x := (c.toNat : ℤ) - 48, state := .number, query := s.query + 1 }
      else .inr (.returned false s.q)
    | .number =>
      if c = 38 then
        match s.store with
        | none => .inr (.returned false s.q)
        | some q => .inl { s with q := q, state := .letter, query := s.query + 1 }
      else if c = 0 then
        match s.store with
        | none => .inr (.returned false s.q)
        | some q => .inl { s with q := q, state := .done }
      else if digit c then
        .inl { s with x := toInt64 (s.x * 10 + ((c.toNat : ℤ) - 48)), query := s.query + 1 }
      else .inr (.returned false s.q)
    | .done => .inr (.returned true s.q)

end QueryParser

/-- `parse_query`, with a query; each pass but the last two goes on by one character. -/
def parseQuery (query : CString) : Option QueryResult :=
  Passes.loop QueryParser.pass (query.length + 4) { mem := query ++ [0] }

/-! ## Fields -/

/-- The names of fields. -/
inductive QueryKey
  | after | limit | start
deriving DecidableEq

def QueryKey.letter : QueryKey → UInt8
  | after => 97
  | limit => 108
  | start => 115

/-- What an `int64_t`, a `uint8_t` or a `uint16_t` has room for. -/
def QueryKey.bound : QueryKey → ℕ
  | after => 2 ^ 63
  | limit => 2 ^ 8
  | start => 2 ^ 16

/-- A field, with any number. -/
structure QueryField where
  key : QueryKey
  digits : CString
  nonempty : digits ≠ []
  decimals : ∀ c ∈ digits, digit c
deriving DecidableEq

namespace QueryField

def bytes (x : QueryField) : CString := x.key.letter :: 61 :: x.digits

def value (x : QueryField) : ℕ := decimal x.digits

def Fits (x : QueryField) : Prop := x.value < x.key.bound

/-- The field is set to its value. -/
def set (q : Query) (x : QueryField) : Query :=
  match x.key with
  | .after => { q with after := x.value }
  | .limit => { q with limit := x.value }
  | .start => { q with start := x.value }

end QueryField

/-- Fields, with `&` between them. -/
def queryText : List QueryField → CString
  | [] => []
  | [x] => x.bytes
  | x :: fields => x.bytes ++ 38 :: queryText fields

/-- **A query is read**: `parse_query` comes to an end without a read behind the NUL and accepts the
query if it is a list of fields that fit, with their values in `Query` then. -/
def QueryRead (query : CString) : Prop :=
  ∃ accepted q, parseQuery query = some (.returned accepted q) ∧
    (accepted = true ↔ ∃ fields, query = queryText fields ∧ ∀ x ∈ fields, x.Fits) ∧
    ∀ fields, query = queryText fields → (∀ x ∈ fields, x.Fits) →
      q = fields.foldl QueryField.set {}

/-- The last field is followed by one more `&`. -/
def Overrun (query : CString) : Prop := ∃ fields, fields ≠ [] ∧ query = queryText fields ++ [38]

/-- A number does not fit. -/
def Narrowed (query : CString) : Prop :=
  ∃ fields, query = queryText fields ∧ ∃ x ∈ fields, ¬x.Fits

/-! ## Texts of fields -/

section
variable {fields fields' : List QueryField} {x y : QueryField} {c : UInt8}
  {query text rest : List UInt8}

/-- What stands behind a field. -/
def queryTail : List QueryField → CString
  | [] => []
  | fields => 38 :: queryText fields

theorem queryText_cons (x : QueryField) (fields : List QueryField) :
    queryText (x :: fields) = x.bytes ++ queryTail fields := by
  cases fields with
  | nil => exact (List.append_nil _).symm
  | cons y fields => rfl

theorem queryTail_cons (h : fields ≠ []) : queryTail fields = 38 :: queryText fields := by
  obtain ⟨y, fields, rfl⟩ := List.exists_cons_of_ne_nil h
  rfl

/-- The next character is not a digit. -/
def EndsNumber (text : List UInt8) : Prop := ∀ c rest, text = c :: rest → ¬digit c

theorem endsNumber_cons (h : ¬digit c) : EndsNumber (c :: rest) := by
  intro d tail heq
  obtain ⟨rfl, -⟩ := List.cons.inj heq
  exact h

theorem endsNumber_tail (fields : List QueryField) : EndsNumber (queryTail fields) := by
  cases fields with
  | nil => exact fun _ _ h => nomatch h
  | cons x fields => exact endsNumber_cons (by decide)

theorem takeWhile_digits {ds : CString} (hds : ∀ d ∈ ds, digit d) (h : EndsNumber text) :
    (ds ++ text).takeWhile digit = ds := by
  rw [List.takeWhile_append_of_pos hds]
  cases text with
  | nil => exact List.append_nil ds
  | cons c rest =>
    rw [List.takeWhile_cons_of_neg (h c rest rfl)]
    exact List.append_nil ds

theorem QueryKey.letter_injective {k k' : QueryKey} (h : k.letter = k'.letter) : k = k' := by
  cases k <;> cases k' <;> first | rfl | exact absurd h (by decide)

/-- **The text tells the fields.** -/
theorem queryText_injective (h : queryText fields = queryText fields') : fields = fields' := by
  induction fields generalizing fields' with
  | nil =>
    cases fields' with
    | nil => rfl
    | cons y fields' =>
      rw [queryText_cons] at h
      cases h
  | cons x fields ih =>
    cases fields' with
    | nil =>
      rw [queryText_cons] at h
      cases h
    | cons y fields' =>
      rw [queryText_cons, queryText_cons] at h
      obtain ⟨hletter, hrest⟩ := List.cons.inj h
      have hdigits : x.digits ++ queryTail fields = y.digits ++ queryTail fields' :=
        (List.cons.inj hrest).2
      have hequal : x.digits = y.digits := by
        rw [← takeWhile_digits x.decimals (endsNumber_tail fields),
          ← takeWhile_digits y.decimals (endsNumber_tail fields'), hdigits]
      rw [hequal] at hdigits
      have htail := List.append_cancel_left hdigits
      have hkey := QueryKey.letter_injective hletter
      have hxy : x = y := by
        cases x
        cases y
        cases hkey
        cases hequal
        rfl
      have hfields : fields = fields' := by
        cases fields with
        | nil =>
          cases fields' with
          | nil => rfl
          | cons y fields' => cases htail
        | cons x fields =>
          cases fields' with
          | nil => cases htail
          | cons y fields' => exact ih (List.cons.inj htail).2
      rw [hxy, hfields]

/-! ## Runs -/

variable {s : QueryParser} {state : QueryState} {r : QueryResult} {q : Query}

/-- The parser is in a state in front of a text. -/
structure QueryParser.At (s : QueryParser) (state : QueryState) (text : List UInt8) : Prop where
  state : s.state = state
  text : s.mem.drop s.query = text

theorem toInt64_of_lt {n : ℕ} (h : n < 2 ^ 63) : toInt64 n = n :=
  Int.bmod_eq_of_le (by omega) (by omega)

theorem toInt64_digit (y d : ℤ) : toInt64 (toInt64 y * 10 + d) = toInt64 (y * 10 + d) := by
  unfold toInt64
  rw [← Int.bmod_add_bmod, Int.bmod_mul_bmod, Int.bmod_add_bmod]

/-- The value of a digit. -/
theorem digit_value (hc : digit c) (n : ℕ) :
    ((n * 10 + (c.toNat - 48) : ℕ) : ℤ) = n * 10 + ((c.toNat : ℤ) - 48) := by
  have hle : 48 ≤ c.toNat := UInt8.le_iff_toNat_le.mp (of_decide_eq_true hc).1
  omega

theorem digit_ne : ∀ c : UInt8, digit c → c ≠ 38 ∧ c ≠ 0 := by
  apply forall_byte
  decide +kernel

/-- The letter of a field. -/
theorem QueryParser.pass_letter (hstate : s.state = .start ∨ s.state = .letter) (hc : c ≠ 0)
    (htext : s.mem.drop s.query = c :: rest) :
    s.pass = .inl { s with p := c, state := .equals, query := s.query + 1 } := by
  unfold pass
  rw [getElem?_of_drop htext]
  rcases hstate with hstate | hstate
  · rw [hstate]
    exact if_neg hc
  · rw [hstate]

theorem QueryParser.At.pass_equals (h : s.At .equals (61 :: rest)) :
    s.pass = .inl { s with state := .firstDigit, query := s.query + 1 } := by
  unfold pass
  rw [getElem?_of_drop h.text, h.state]
  rfl

theorem QueryParser.At.pass_firstDigit (h : s.At .firstDigit (c :: rest)) (hc : digit c) :
    s.pass = .inl { s with
      x := (c.toNat : ℤ) - 48, state := .number, query := s.query + 1 } := by
  unfold pass
  rw [getElem?_of_drop h.text, h.state]
  exact if_pos hc

theorem QueryParser.At.pass_number (h : s.At .number (c :: rest)) (hc : digit c) :
    s.pass = .inl { s with
      x := toInt64 (s.x * 10 + ((c.toNat : ℤ) - 48)), query := s.query + 1 } := by
  obtain ⟨hand, hzero⟩ := digit_ne c hc
  unfold pass
  rw [getElem?_of_drop h.text, h.state]
  dsimp only
  rw [if_neg hand, if_neg hzero, if_pos hc]

/-- **Digits** make a number, modulo `2 ^ 64`. -/
theorem QueryParser.At.number {ds : CString} (before : CString) (h : s.At .number (ds ++ rest))
    (hds : ∀ d ∈ ds, digit d) (hx : s.x = toInt64 (decimal before)) :
    ∃ s', Passes.Leads pass s s' ∧ s'.At .number rest ∧
      s'.x = toInt64 (decimal (before ++ ds)) ∧ s'.p = s.p ∧ s'.q = s.q := by
  induction ds generalizing s before with
  | nil => exact ⟨s, .refl s, h, by rw [List.append_nil, hx], rfl, rfl⟩
  | cons d ds ih =>
    obtain ⟨hd, hds⟩ := List.forall_mem_cons.mp hds
    have hbehind : s.mem.drop (s.query + 1) = ds ++ rest := drop_succ h.text
    obtain ⟨s', hleads, hat, hx', hp, hq⟩ := ih (before ++ [d])
      (s := { s with x := toInt64 (s.x * 10 + ((d.toNat : ℤ) - 48)), query := s.query + 1 })
      ⟨h.state, hbehind⟩ hds (by
        dsimp only
        rw [hx, toInt64_digit, decimal_append, digit_value hd])
    refine ⟨s', (Passes.Leads.step (h.pass_number hd)).trans hleads, hat, ?_, hp, hq⟩
    rw [hx', List.append_assoc]
    rfl

/-- **A letter, an equal sign and digits** are read. -/
theorem QueryParser.field {ds : CString} (hstate : s.state = .start ∨ s.state = .letter)
    (hc : c ≠ 0) (hne : ds ≠ []) (hds : ∀ d ∈ ds, digit d)
    (htext : s.mem.drop s.query = c :: 61 :: (ds ++ rest)) :
    ∃ s', Passes.Leads pass s s' ∧ s'.At .number rest ∧ s'.p = c ∧
      s'.x = toInt64 (decimal ds) ∧ s'.q = s.q := by
  obtain ⟨d, ds, rfl⟩ := List.exists_cons_of_ne_nil hne
  obtain ⟨hd, hds⟩ := List.forall_mem_cons.mp hds
  have hequals : s.mem.drop (s.query + 1) = 61 :: d :: (ds ++ rest) := drop_succ htext
  have hfirst : s.mem.drop (s.query + 1 + 1) = d :: (ds ++ rest) := drop_succ hequals
  have hmore : s.mem.drop (s.query + 1 + 1 + 1) = ds ++ rest := drop_succ hfirst
  have hvalue : (d.toNat : ℤ) - 48 = toInt64 (decimal [d]) := by
    have hsmall := d.toNat_lt
    have hdecimal : decimal [d] = 0 * 10 + (d.toNat - 48) := rfl
    rw [toInt64_of_lt (by omega), hdecimal, digit_value hd]
    omega
  have h₁ := pass_letter hstate hc htext
  have h₂ := At.pass_equals (s := { s with p := c, state := .equals, query := s.query + 1 })
    ⟨rfl, hequals⟩
  have h₃ := At.pass_firstDigit (s := { s with
    p := c, state := .firstDigit, query := s.query + 1 + 1 }) ⟨rfl, hfirst⟩ hd
  obtain ⟨s', hleads, hat, hx, hp, hq⟩ := At.number [d] (s := { s with
    p := c, x := (d.toNat : ℤ) - 48, state := .number, query := s.query + 1 + 1 + 1 })
    ⟨rfl, hmore⟩ hds hvalue
  exact ⟨s', ((Passes.Leads.step h₁).trans (.step h₂)).trans ((Passes.Leads.step h₃).trans hleads),
    hat, hp, hx, hq⟩

theorem QueryKey.letter_ne (k : QueryKey) : k.letter ≠ 0 := by
  cases k <;> decide

/-- **A field is stored**, with its value if that fits. -/
theorem QueryParser.store_field (hp : s.p = x.key.letter) (hx : s.x = toInt64 x.value) :
    ∃ q, s.store = some q ∧ (x.Fits → q = x.set s.q) := by
  unfold QueryField.Fits QueryField.set store
  rw [hp, hx]
  cases x.key with
  | after =>
    refine ⟨_, rfl, fun hfits => ?_⟩
    rw [toInt64_of_lt hfits]
  | limit =>
    refine ⟨_, rfl, fun hfits => ?_⟩
    change x.value < 2 ^ 8 at hfits
    rw [toInt64_of_lt (by omega), Int.emod_eq_of_lt (by omega) (by omega), Int.toNat_natCast]
  | start =>
    refine ⟨_, rfl, fun hfits => ?_⟩
    change x.value < 2 ^ 16 at hfits
    rw [toInt64_of_lt (by omega), Int.emod_eq_of_lt (by omega) (by omega), Int.toNat_natCast]

/-- The number is followed by the NUL. -/
theorem QueryParser.At.number_end (h : s.At .number [0]) (hq : s.store = some q) :
    Passes.Ends pass s (.returned true q) := by
  have hstored : s.pass = .inl { s with q := q, state := .done } := by
    unfold pass
    rw [getElem?_of_drop h.text, h.state]
    dsimp only
    rw [if_neg (by decide), if_pos rfl, hq]
  have hdone : QueryParser.pass { s with q := q, state := .done } = .inr (.returned true q) := by
    unfold pass
    rw [getElem?_of_drop h.text]
  exact .next hstored (.last hdone)

/-- The number is followed by `&`. -/
theorem QueryParser.At.number_and (h : s.At .number (38 :: rest)) (hq : s.store = some q) :
    s.pass = .inl { s with q := q, state := .letter, query := s.query + 1 } := by
  unfold pass
  rw [getElem?_of_drop h.text, h.state]
  dsimp only
  rw [if_pos rfl, hq]

/-- **A list of fields** is accepted, and with fields that fit it is read. -/
theorem fields_read (hne : fields ≠ []) (hstate : s.state = .start ∨ s.state = .letter)
    (htext : s.mem.drop s.query = queryText fields ++ [0]) :
    ∃ q, Passes.Ends QueryParser.pass s (.returned true q) ∧
      ((∀ x ∈ fields, x.Fits) → q = fields.foldl QueryField.set s.q) := by
  induction fields generalizing s with
  | nil => exact absurd rfl hne
  | cons x fields ih =>
    rw [queryText_cons, List.append_assoc] at htext
    obtain ⟨s', hleads, hat, hp, hx, hq⟩ :=
      QueryParser.field hstate x.key.letter_ne x.nonempty x.decimals htext
    obtain ⟨q, hstore, hset⟩ := QueryParser.store_field hp hx
    by_cases hlast : fields = []
    · subst hlast
      refine ⟨q, hleads.ends.mpr (hat.number_end hstore), fun hfits => ?_⟩
      rw [hset (hfits x List.mem_cons_self), hq]
      rfl
    · rw [queryTail_cons hlast] at hat
      have hbehind : s'.mem.drop (s'.query + 1) = queryText fields ++ [0] := drop_succ hat.text
      obtain ⟨q', hends, hread⟩ := ih hlast (s := { s' with
        q := q, state := .letter, query := s'.query + 1 }) (Or.inr rfl) hbehind
      refine ⟨q', hleads.ends.mpr (.next (hat.number_and hstore) hends), fun hfits => ?_⟩
      obtain ⟨hfit, hfits⟩ := List.forall_mem_cons.mp hfits
      rw [hread hfits, List.foldl_cons, hset hfit, hq]

/-- **One more `&`** lets the parser pass the NUL. -/
theorem fields_overrun (hne : fields ≠ []) (hstate : s.state = .start ∨ s.state = .letter)
    (htext : s.mem.drop s.query = queryText fields ++ [38, 0]) :
    Passes.Ends QueryParser.pass s .outside := by
  induction fields generalizing s with
  | nil => exact absurd rfl hne
  | cons x fields ih =>
    rw [queryText_cons, List.append_assoc] at htext
    obtain ⟨s', hleads, hat, hp, hx, hq⟩ :=
      QueryParser.field hstate x.key.letter_ne x.nonempty x.decimals htext
    obtain ⟨q, hstore, -⟩ := QueryParser.store_field hp hx
    refine hleads.ends.mpr ?_
    by_cases hlast : fields = []
    · subst hlast
      have hnul : s'.mem.drop (s'.query + 1) = [0] := drop_succ hat.text
      have hend : s'.mem.drop (s'.query + 1 + 1) = [] := drop_succ hnul
      have hletter : QueryParser.pass { s' with
            q := q, state := .letter, query := s'.query + 1 } =
          .inl { s' with q := q, state := .equals, p := 0, query := s'.query + 1 + 1 } := by
        unfold QueryParser.pass
        rw [getElem?_of_drop hnul]
      have houtside : QueryParser.pass { s' with
          q := q, state := .equals, p := 0, query := s'.query + 1 + 1 } = .inr .outside := by
        unfold QueryParser.pass
        rw [← List.head?_drop, hend]
        rfl
      exact .next (hat.number_and hstore) (.next hletter (.last houtside))
    · rw [queryTail_cons hlast] at hat
      have hbehind : s'.mem.drop (s'.query + 1) = queryText fields ++ [38, 0] := drop_succ hat.text
      exact .next (hat.number_and hstore) (ih hlast (s := { s' with
        q := q, state := .letter, query := s'.query + 1 }) (Or.inr rfl) hbehind)

/-- Anything but an equal sign behind the letter. -/
theorem QueryParser.At.refuse_equals (h : s.At .equals (c :: rest)) (hc : c ≠ 61) :
    s.pass = .inr (.returned false s.q) := by
  unfold pass
  rw [getElem?_of_drop h.text, h.state]
  exact if_pos hc

/-- Anything but a digit behind the equal sign. -/
theorem QueryParser.At.refuse_firstDigit (h : s.At .firstDigit (c :: rest)) (hc : ¬digit c) :
    s.pass = .inr (.returned false s.q) := by
  unfold pass
  rw [getElem?_of_drop h.text, h.state]
  exact if_neg hc

/-- Anything but a digit behind a number, and what ends a number that has no field. -/
theorem QueryParser.At.refuse_number (h : s.At .number (c :: rest)) (hc : ¬digit c)
    (hstore : c = 38 ∨ c = 0 → s.store = none) : s.pass = .inr (.returned false s.q) := by
  unfold pass
  rw [getElem?_of_drop h.text, h.state]
  dsimp only
  by_cases hand : c = 38
  · rw [if_pos hand, hstore (Or.inl hand)]
  · rw [if_neg hand]
    by_cases hzero : c = 0
    · rw [if_pos hzero, hstore (Or.inr hzero)]
    · rw [if_neg hzero, if_neg hc]

theorem QueryParser.letter_of_store (h : s.store = some q) : ∃ k : QueryKey, s.p = k.letter := by
  unfold store at h
  split_ifs at h with hafter hlimit hstart
  · exact ⟨.after, hafter⟩
  · exact ⟨.limit, hlimit⟩
  · exact ⟨.start, hstart⟩

/-- **Anything else** is refused. -/
theorem query_cases (hne : text ≠ []) (hzero : 0 ∉ text)
    (hstate : s.state = .start ∨ s.state = .letter) (htext : s.mem.drop s.query = text ++ [0]) :
    (∃ fields, fields ≠ [] ∧ text = queryText fields) ∨ Overrun text ∨
      ∃ q, Passes.Ends QueryParser.pass s (.returned false q) := by
  induction hn : text.length using Nat.strong_induction_on generalizing s text with
  | h n ih =>
  obtain ⟨k, t, rfl⟩ := List.exists_cons_of_ne_nil hne
  have hk : k ≠ 0 := fun h => hzero (h ▸ List.mem_cons_self)
  have h₁ := QueryParser.pass_letter hstate hk htext
  have hequals : s.mem.drop (s.query + 1) = t ++ [0] := drop_succ htext
  -- an equal sign is to follow the letter
  obtain ⟨t, rfl⟩ | hrefuse : (∃ t', t = 61 :: t') ∨ ∃ c rest, t ++ [0] = c :: rest ∧ c ≠ 61 := by
    cases t with
    | nil => exact Or.inr ⟨0, [], rfl, by decide⟩
    | cons e t =>
      by_cases he : e = 61
      · exact Or.inl ⟨t, by rw [he]⟩
      · exact Or.inr ⟨e, t ++ [0], rfl, he⟩
  swap
  · obtain ⟨c, rest, hc, hne⟩ := hrefuse
    rw [hc] at hequals
    exact Or.inr (Or.inr ⟨_, .next h₁ (.last (QueryParser.At.refuse_equals ⟨rfl, hequals⟩ hne))⟩)
  -- and digits the equal sign
  have hfirst : s.mem.drop (s.query + 1 + 1) = t ++ [0] := drop_succ hequals
  have hsplit := List.takeWhile_append_dropWhile (p := digit) (l := t)
  have hdigits : ∀ d ∈ t.takeWhile digit, digit d := fun d hd => List.mem_takeWhile_imp hd
  have htail : ∀ c rest, t.dropWhile digit ++ [0] = c :: rest → ¬digit c := by
    intro c rest heq
    cases hdrop : t.dropWhile digit with
    | nil =>
      rw [hdrop] at heq
      obtain ⟨rfl, -⟩ := List.cons.inj heq
      decide
    | cons d ds =>
      rw [hdrop] at heq
      obtain ⟨rfl, -⟩ := List.cons.inj heq
      have hnot := List.head?_dropWhile_not digit t
      rw [hdrop] at hnot
      exact Bool.eq_false_iff.mp hnot
  generalize t.takeWhile digit = ds at hsplit hdigits
  generalize t.dropWhile digit = tail at hsplit htail
  subst hsplit
  rw [List.append_assoc] at hfirst
  rw [List.cons_append, List.append_assoc] at hequals
  by_cases hds : ds = []
  · subst hds
    obtain ⟨c, rest, hc⟩ := List.exists_cons_of_ne_nil
      (List.append_ne_nil_of_right_ne_nil tail (List.cons_ne_nil 0 []))
    have h₂ := QueryParser.At.pass_equals (s := { s with
      p := k, state := .equals, query := s.query + 1 }) ⟨rfl, hequals⟩
    rw [List.nil_append, hc] at hfirst
    have h₃ := QueryParser.At.refuse_firstDigit (s := { s with
      p := k, state := .firstDigit, query := s.query + 1 + 1 }) ⟨rfl, hfirst⟩ (htail c rest hc)
    exact Or.inr (Or.inr ⟨_, .next h₁ (.next h₂ (.last h₃))⟩)
  obtain ⟨s', hleads, hat, hp, -⟩ := QueryParser.field hstate hk hds hdigits
    (htext.trans (by rw [List.cons_append, List.cons_append, List.append_assoc]))
  have hrefuse : ∀ {c rest}, tail ++ [0] = c :: rest → (c = 38 ∨ c = 0 → s'.store = none) →
      ∃ q, Passes.Ends QueryParser.pass s (.returned false q) := by
    intro c rest hc hstore
    rw [hc] at hat
    exact ⟨_, hleads.ends.mpr (.last (hat.refuse_number (htail c rest hc) hstore))⟩
  cases tail with
  | nil =>
    cases hstore : s'.store with
    | none => exact Or.inr (Or.inr (hrefuse rfl fun _ => hstore))
    | some q =>
      obtain ⟨key, hkey⟩ := QueryParser.letter_of_store hstore
      refine Or.inl ⟨[⟨key, ds, hds, hdigits⟩], List.cons_ne_nil _ _, ?_⟩
      rw [← hp, hkey, List.append_nil]
      rfl
  | cons c tail =>
    have hc : c ≠ 0 := fun h => hzero (h ▸ List.mem_cons_of_mem _
      (List.mem_cons_of_mem _ (List.mem_append_right _ List.mem_cons_self)))
    by_cases hand : c = 38
    · subst hand
      cases hstore : s'.store with
      | none => exact Or.inr (Or.inr (hrefuse rfl fun _ => hstore))
      | some q =>
        obtain ⟨key, hkey⟩ := QueryParser.letter_of_store hstore
        have hbytes : k :: 61 :: (ds ++ 38 :: tail) =
            QueryField.bytes ⟨key, ds, hds, hdigits⟩ ++ 38 :: tail := by
          rw [← hp, hkey]
          rfl
        rw [hbytes]
        by_cases hlast : tail = []
        · subst hlast
          exact Or.inr (Or.inl ⟨[⟨key, ds, hds, hdigits⟩], List.cons_ne_nil _ _, rfl⟩)
        have hbehind : s'.mem.drop (s'.query + 1) = tail ++ [0] := drop_succ hat.text
        have hmore : ∀ {fields : List QueryField}, fields ≠ [] →
            queryText (⟨key, ds, hds, hdigits⟩ :: fields) =
              QueryField.bytes ⟨key, ds, hds, hdigits⟩ ++ 38 :: queryText fields := by
          intro fields hfields
          rw [queryText_cons, queryTail_cons hfields]
        rcases ih tail.length (by
            rw [← hn, List.length_cons, List.length_cons, List.length_append, List.length_cons]
            omega) hlast (fun h => hzero (List.mem_cons_of_mem _ (List.mem_cons_of_mem _
              (List.mem_append_right _ (List.mem_cons_of_mem _ h)))))
            (s := { s' with q := q, state := .letter, query := s'.query + 1 }) (Or.inr rfl)
            hbehind rfl with
          ⟨fields, hfields, rfl⟩ | ⟨fields, hfields, rfl⟩ | ⟨q', hends⟩
        · exact Or.inl ⟨⟨key, ds, hds, hdigits⟩ :: fields, List.cons_ne_nil _ _,
            (hmore hfields).symm⟩
        · refine Or.inr (Or.inl ⟨⟨key, ds, hds, hdigits⟩ :: fields, List.cons_ne_nil _ _, ?_⟩)
          rw [hmore hfields, List.append_assoc]
          rfl
        · exact Or.inr (Or.inr ⟨q', hleads.ends.mpr (.next (hat.number_and hstore) hends)⟩)
    · refine Or.inr (Or.inr (hrefuse rfl ?_))
      rintro (h | h)
      · exact absurd h hand
      · exact absurd h hc

/-! ## The end of the loop -/

/-- The passes that are left, at most. -/
def QueryParser.left (s : QueryParser) : ℕ :=
  s.mem.length - s.query + if s.state = .done then 0 else 1

theorem QueryParser.left_lt {s' : QueryParser} (h : s.pass = .inl s') : s'.left < s.left := by
  unfold pass at h
  cases hc : s.mem[s.query]? with
  | none =>
    rw [hc] at h
    cases h
  | some c =>
    have hinside := (List.getElem?_eq_some_iff.mp hc).1
    have hahead : ∀ t : QueryParser, t.mem = s.mem → t.query = s.query + 1 → s.state ≠ .done →
        t.left < s.left := by
      intro t hmem hquery hstate
      unfold left
      rw [hmem, hquery, if_neg hstate]
      split_ifs <;> omega
    rw [hc] at h
    dsimp only at h
    split at h <;> rename_i hstate
    · split_ifs at h
      cases h
      exact hahead _ rfl rfl (by rw [hstate]; exact QueryState.noConfusion)
    · cases h
      exact hahead _ rfl rfl (by rw [hstate]; exact QueryState.noConfusion)
    · split_ifs at h
      cases h
      exact hahead _ rfl rfl (by rw [hstate]; exact QueryState.noConfusion)
    · split_ifs at h
      cases h
      exact hahead _ rfl rfl (by rw [hstate]; exact QueryState.noConfusion)
    · have hnumber : s.state ≠ .done := by
        rw [hstate]
        exact QueryState.noConfusion
      split_ifs at h
      · split at h
        · cases h
        · cases h
          exact hahead _ rfl rfl hnumber
      · split at h
        · cases h
        · cases h
          unfold left
          rw [if_pos rfl, if_neg hnumber]
          exact Nat.lt_succ_self _
      · cases h
        exact hahead _ rfl rfl hnumber
    · cases h

/-- **`parse_query` ends**, and how is what `Ends` says. -/
theorem parseQuery_iff : parseQuery query = some r ↔
    Passes.Ends QueryParser.pass { mem := query ++ [0] } r := by
  refine Passes.loop_eq_some_iff QueryParser.left (fun _ _ => QueryParser.left_lt) ?_
  show (query ++ [0]).length - 0 + 1 < query.length + 4
  rw [List.length_append, List.length_singleton]
  omega

end

theorem queryText_ne {fields : List QueryField} (h : fields ≠ []) : queryText fields ≠ [] := by
  obtain ⟨x, fields, rfl⟩ := List.exists_cons_of_ne_nil h
  rw [queryText_cons]
  exact List.cons_ne_nil _ _

/-- **A query is read** exactly when it is not a list of fields with one more `&` or with a number
that does not fit. -/
theorem queryRead_iff (query : CString) (hzero : 0 ∉ query) :
    QueryRead query ↔ ¬Overrun query ∧ ¬Narrowed query := by
  by_cases hempty : query = []
  · subst hempty
    have hnone : ∀ fields : List QueryField, [] = queryText fields → fields = [] := by
      intro fields h
      by_contra hne
      exact queryText_ne hne h.symm
    constructor
    · intro _
      refine ⟨?_, ?_⟩
      · rintro ⟨fields, -, h⟩
        exact absurd h.symm (List.append_ne_nil_of_right_ne_nil _ (List.cons_ne_nil _ _))
      · rintro ⟨fields, h, x, hx, -⟩
        rw [hnone fields h] at hx
        exact absurd hx List.not_mem_nil
    · intro _
      refine ⟨true, {}, rfl, ⟨fun _ => ⟨[], rfl, ?_⟩, fun _ => rfl⟩, fun fields h _ => ?_⟩
      · exact fun x hx => absurd hx List.not_mem_nil
      · rw [hnone fields h]
        rfl
  have hlist : ∀ fields, query = queryText fields → ∃ q,
      parseQuery query = some (.returned true q) ∧
        ((∀ x ∈ fields, x.Fits) → q = fields.foldl QueryField.set {}) := by
    rintro fields rfl
    have hne : fields ≠ [] := by
      rintro rfl
      exact hempty rfl
    obtain ⟨q, hends, hread⟩ := fields_read (s := { mem := queryText fields ++ [0] }) hne
      (Or.inl rfl) rfl
    exact ⟨q, parseQuery_iff.mpr hends, hread⟩
  have hbeyond : Overrun query → parseQuery query = some .outside := by
    rintro ⟨fields, hne, rfl⟩
    refine parseQuery_iff.mpr (fields_overrun hne (Or.inl rfl) ?_)
    exact List.append_assoc _ _ _
  constructor
  · rintro ⟨accepted, q, hparse, haccepted, -⟩
    refine ⟨fun hoverrun => ?_, ?_⟩
    · rw [hbeyond hoverrun] at hparse
      cases hparse
    · rintro ⟨fields, rfl, x, hx, hlarge⟩
      obtain ⟨q', htrue, -⟩ := hlist fields rfl
      rw [hparse] at htrue
      obtain ⟨rfl, -⟩ := QueryResult.returned.inj (Option.some.inj htrue)
      obtain ⟨fields', heq, hfits⟩ := haccepted.mp rfl
      obtain rfl := queryText_injective heq
      exact hlarge (hfits x hx)
  · rintro ⟨hoverrun, hnarrowed⟩
    have hfits : ∀ fields, query = queryText fields → ∀ x ∈ fields, x.Fits := by
      intro fields h x hx
      by_contra hlarge
      exact hnarrowed ⟨fields, h, x, hx, hlarge⟩
    rcases query_cases (s := { mem := query ++ [0] }) hempty hzero (Or.inl rfl) rfl with
      ⟨fields, -, h⟩ | h | ⟨q, hends⟩
    · obtain ⟨q, hparse, hread⟩ := hlist fields h
      refine ⟨true, q, hparse, ⟨fun _ => ⟨fields, h, hfits fields h⟩, fun _ => rfl⟩, ?_⟩
      intro fields' h' _
      obtain rfl := queryText_injective (h.symm.trans h')
      exact hread (hfits fields h)
    · exact absurd h hoverrun
    · have hparse := parseQuery_iff.mpr hends
      refine ⟨false, q, hparse, ⟨fun h => absurd h (by decide), ?_⟩, ?_⟩
      · rintro ⟨fields, h, -⟩
        obtain ⟨q', htrue, -⟩ := hlist fields h
        rw [hparse] at htrue
        cases htrue
      · intro fields h _
        obtain ⟨q', htrue, -⟩ := hlist fields h
        rw [hparse] at htrue
        cases htrue

/-- With `l=256`, the limit is 0. -/
theorem not_queryRead_limit : ¬QueryRead [108, 61, 50, 53, 54] := by
  intro h
  refine ((queryRead_iff [108, 61, 50, 53, 54] (by decide)).mp h).2 ?_
  exact ⟨[⟨.limit, [50, 53, 54], by decide, by decide⟩], rfl, _, List.mem_singleton_self _,
    show ¬256 < 2 ^ 8 by decide⟩

/-- With `a=1&`, the parser reads behind the NUL. -/
theorem not_queryRead : ¬QueryRead [97, 61, 49, 38] := by
  rintro ⟨accepted, q, hparse, -⟩
  have houtside : parseQuery [97, 61, 49, 38] = some .outside := by decide
  rw [houtside] at hparse
  cases hparse

end SeClient
