import SeClient.HttpLines
import SeClient.Passes

/-!
# Media ranges

`media_range` of `http_parse.c` splits a header value in place: NULs end the type and the
parameters, while the character that a NUL has replaced is still in `c`.  `quoted_string` begins at
the opening quote, takes it for the closing one and goes on two characters behind it.

Memory ends with the NUL of the header value; an access behind it is `outside`.
-/

namespace SeClient

/-! ## `http_parse.c` -/

/-- What a function that returns a pointer or NULL makes of memory. -/
inductive Scanned (α : Type)
  | outside
  | null
  | found (a : α)

/-- `vchar` -/
def vchar (c : UInt8) : Bool := 33 ≤ c ∧ c ≤ 126

/-- `qdtext`; a `char` is signed, so that `obs_text` holds of none. -/
def qdtext (c : UInt8) : Bool := hws c ∨ c = 33 ∨ (35 ≤ c ∧ c ≤ 91) ∨ (93 ≤ c ∧ c ≤ 126)

/-- How many characters are passed over by `while (p (*data)) data++`. -/
def passOver (p : UInt8 → Bool) : List UInt8 → Option ℕ
  | [] => none
  | c :: data => if p c then (passOver p data).map (· + 1) else some 0

/-- The characters before a NUL. -/
def cString : List UInt8 → Option CString
  | [] => none
  | c :: data => if c = 0 then some [] else (cString data).map (c :: ·)

/-- `to_lower`: the string, and memory. -/
def lowerIn (mem : List UInt8) (s : ℕ) : Option (CString × List UInt8) :=
  (cString (mem.drop s)).map fun text =>
    (toLower text, mem.take s ++ toLower text ++ mem.drop (s + text.length))

/-- `ows` -/
def owsIn (mem : List UInt8) (data : ℕ) : Option ℕ :=
  (passOver hws (mem.drop data)).map (data + ·)

/-- `token` -/
def tokenIn (mem : List UInt8) (data : ℕ) : Scanned ℕ :=
  match passOver tchar (mem.drop data) with
  | none => .outside
  | some n => if n = 0 then .null else .found (data + n)

/-- The loop of `quoted_string`. -/
def quotedLoop : ℕ → List UInt8 → ℕ → ℕ → Scanned (List UInt8 × ℕ)
  | 0, _, _, _ => .outside
  | fuel + 1, mem, q, data =>
    match mem[data]? with
    | none => .outside
    | some c =>
      if c = 0 then .null
      else if mem.length ≤ q then .outside
      else if c = 92 then
        match mem[data + 1]? with
        | none => .outside
        | some t =>
          if hws t || vchar t then quotedLoop fuel (mem.set q t) (q + 1) (data + 2) else .null
      else if c = 34 then .found (mem.set q 0, data + 2)
      else if qdtext c then quotedLoop fuel (mem.set q c) (q + 1) (data + 1)
      else .null

/-- `quoted_string`; its value is at `data + 1`. -/
def quotedString (mem : List UInt8) (data : ℕ) : Scanned (List UInt8 × ℕ) :=
  quotedLoop (mem.length + 1) mem (data + 1) data

/-- `pvalue`: the value, memory, and what follows. -/
def pvalueIn (mem : List UInt8) (data : ℕ) : Scanned (ℕ × List UInt8 × ℕ) :=
  match mem[data]? with
  | none => .outside
  | some c =>
    if c = 34 then
      match quotedString mem data with
      | .outside => .outside
      | .null => .null
      | .found (mem, next) => .found (data + 1, mem, next)
    else
      match tokenIn mem data with
      | .outside => .outside
      | .null => .null
      | .found next => .found (data, mem, next)

/-- The loops of `qvalue`: `n` digits at most, then zeros. -/
def fraction (mem : List UInt8) : ℕ → ℕ → ℕ → Option (ℕ × ℕ)
  | 0, f, data => mem[data]?.map fun _ => (f, data)
  | n + 1, f, data =>
    match mem[data]? with
    | none => none
    | some c =>
      if digit c then fraction mem n (f * 10 + (c.toNat - 48)) (data + 1)
      else some (f * 10 ^ (n + 1), data)

/-- `qvalue`: the quality and what follows. -/
def qvalueIn (mem : List UInt8) (data : ℕ) : Scanned (ℕ × ℕ) :=
  match mem[data]? with
  | none => .outside
  | some c =>
    if c = 48 ∨ c = 49 then
      let q := if c = 48 then 0 else 1000
      match mem[data + 1]? with
      | none => .outside
      | some d =>
        if d = 46 then
          match fraction mem 3 0 (data + 2) with
          | none => .outside
          | some (f, next) => if q = 1000 ∧ f ≠ 0 then .null else .found (q + f, next)
        else .found (q, data + 1)
    else .null

/-- `MediaType`, with places in memory. -/
structure MediaType where
  type : ℕ := 0
  sub : ℕ := 0
  param : List (Option ℕ) := List.replicate 8 none
  quality : ℕ := 0

/-- The states 0 to 7 of `media_range`. -/
inductive RangeState
  | type | slash | subtype | subtypeEnd | parameter | parameterName | parameterValue | completed
deriving DecidableEq

/-- The variables of `media_range`. -/
structure RangeParser where
  mem : List UInt8
  state : RangeState := .type
  c : UInt8
  i : ℕ := 0
  data : ℕ
  param : ℕ := 0
  value : ℕ := 0
  m : MediaType := {}

/-- What `media_range` returns; `ended` is the NULL that it returns at a NUL in front of a type. -/
inductive RangeResult
  | outside
  | null
  | ended (data : ℕ)
  | found (m : MediaType) (mem : List UInt8) (data : ℕ)

namespace RangeParser

/-- `c = *data` -/
def goOn (p : RangeParser) : RangeParser ⊕ RangeResult :=
  match p.mem[p.data]? with
  | none => .inr .outside
  | some c => .inl { p with c := c }

/-- State 0. -/
def typePass (p : RangeParser) : RangeParser ⊕ RangeResult :=
  if p.c = 0 then .inr (.ended p.data)
  else if hws p.c ∨ p.c = 44 then { p with data := p.data + 1 }.goOn
  else
    match tokenIn p.mem p.data with
    | .outside => .inr .outside
    | .null => .inr .null
    | .found next => { p with
        m := { p.m with type := p.data, quality := 1000 }, data := next, state := .slash }.goOn

/-- State 1. -/
def slashPass (p : RangeParser) : RangeParser ⊕ RangeResult :=
  if p.c = 47 then { p with data := p.data + 1, state := .subtype }.goOn else .inr .null

/-- State 2. -/
def subtypePass (p : RangeParser) : RangeParser ⊕ RangeResult :=
  match tokenIn p.mem p.data with
  | .outside => .inr .outside
  | .null => .inr .null
  | .found next =>
    { p with m := { p.m with sub := p.data }, data := next, state := .subtypeEnd }.goOn

/-- State 4. -/
def parameterPass (p : RangeParser) : RangeParser ⊕ RangeResult :=
  if p.c = 44 then .inr (.found p.m p.mem (p.data + 1))
  else if p.c = 0 then .inr (.found p.m p.mem p.data)
  else if hws p.c then { p with data := p.data + 1 }.goOn
  else if p.c = 59 then { p with state := .parameterName, data := p.data + 1 }.goOn
  else .inr .null

/-- State 5. -/
def namePass (p : RangeParser) : RangeParser ⊕ RangeResult :=
  match owsIn p.mem p.data with
  | none => .inr .outside
  | some data =>
    match tokenIn p.mem data with
    | .outside => .inr .outside
    | .null => .inr .null
    | .found next => { p with param := data, data := next, state := .parameterValue }.goOn

/-- State 6. -/
def valuePass (p : RangeParser) : RangeParser ⊕ RangeResult :=
  if p.c = 61 then
    match lowerIn (p.mem.set p.data 0) p.param with
    | none => .inr .outside
    | some (name, mem) =>
      if name = [113] then
        match qvalueIn mem (p.data + 1) with
        | .outside => .inr .outside
        | .null => .inr .null
        | .found (q, next) => { p with
            mem := mem, m := { p.m with quality := q }, data := next, state := .parameter }.goOn
      else
        match pvalueIn mem (p.data + 1) with
        | .outside => .inr .outside
        | .null => .inr .null
        | .found (value, mem, next) =>
          { p with mem := mem, value := value, data := next, state := .completed }.goOn
  else .inr .null

/-- State 7. -/
def completedPass (p : RangeParser) : RangeParser ⊕ RangeResult :=
  .inl { p with
    mem := p.mem.set p.data 0
    m := { p.m with param := (p.m.param.set p.i (some p.param)).set (p.i + 1) (some p.value) }
    i := (p.i + 2) &&& 7
    state := .parameter }

/-- A pass of `media_range`; state 3 falls through to state 4. -/
def pass (p : RangeParser) : RangeParser ⊕ RangeResult :=
  match p.state with
  | .type => p.typePass
  | .slash => p.slashPass
  | .subtype => p.subtypePass
  | .subtypeEnd => { p with mem := p.mem.set p.data 0, state := .parameter }.parameterPass
  | .parameter => p.parameterPass
  | .parameterName => p.namePass
  | .parameterValue => p.valuePass
  | .completed => p.completedPass

end RangeParser

/-- `media_range`; a pass goes on by one character at least, or completes a parameter. -/
def mediaRange (mem : List UInt8) (data : ℕ) : Option RangeResult :=
  match mem[data]? with
  | none => some .outside
  | some c => Passes.loop RangeParser.pass (2 * mem.length + 2) { mem := mem, c := c, data := data }

/-! ## Callers -/

/-- What a caller reads of a media type. -/
structure MediaText where
  type : CString
  sub : CString
  params : List (CString × CString)
  quality : ℕ
deriving DecidableEq

/-- The parameters before the first NULL. -/
def paramTexts (mem : List UInt8) : List (Option ℕ) → Option (List (CString × CString))
  | some name :: some value :: params =>
    (cString (mem.drop name)).bind fun n => (cString (mem.drop value)).bind fun v =>
      (paramTexts mem params).map ((n, v) :: ·)
  | _ => some []

def MediaType.text (m : MediaType) (mem : List UInt8) : Option MediaText :=
  (cString (mem.drop m.type)).bind fun type => (cString (mem.drop m.sub)).bind fun sub =>
    (paramTexts mem m.param).map fun params => ⟨type, sub, params, m.quality⟩

/-- Successive calls of `media_range`, and the place of the NUL at which they end. -/
def mediaRanges : ℕ → List UInt8 → ℕ → Option (List MediaText × ℕ)
  | 0, _, _ => none
  | fuel + 1, mem, data =>
    match mediaRange mem data with
    | some (.found m mem data) =>
      (m.text mem).bind fun text => (mediaRanges fuel mem data).map fun r => (text :: r.1, r.2)
    | some (.ended data) => some ([], data)
    | _ => none

/-- `se_ranges` -/
def seRanges : List CString :=
  [chars ['a', 'p', 'p', 'l', 'i', 'c', 'a', 't', 'i', 'o', 'n', '/', 's', 'e', 'p', '-',
      'e', 'x', 'i'],
    chars ['a', 'p', 'p', 'l', 'i', 'c', 'a', 't', 'i', 'o', 'n', '/', 's', 'e', 'p', '+',
      'x', 'm', 'l'],
    chars ['a', 'p', 'p', 'l', 'i', 'c', 'a', 't', 'i', 'o', 'n', '/', 'x', 'm', 'l'],
    chars ['a', 'p', 'p', 'l', 'i', 'c', 'a', 't', 'i', 'o', 'n', '/', '*'],
    chars ['*', '/', '*']]

/-- `SE_XML` -/
def seXml : ℕ := 1

/-- `se_range`: the index, and memory. -/
def seRange (mem : List UInt8) (range : ℕ) : Option (ℕ × List UInt8) :=
  (lowerIn mem range).map fun r => (stringIndex r.1 seRanges, r.2)

/-- The loop of `select_media`. -/
def selectLoop : ℕ → List UInt8 → ℕ → ℕ → ℕ → Option ℕ
  | 0, _, _, _, _ => none
  | fuel + 1, mem, range, type, quality =>
    match mediaRange mem range with
    | some (.found m mem range) =>
      (seRange mem m.type).bind fun r =>
        if r.1 ≤ 2 ∧ quality < m.quality then selectLoop fuel r.2 range r.1 m.quality
        else selectLoop fuel r.2 range type quality
    | some (.ended _) => some type
    | some .null => some type
    | _ => none

/-- `select_media`, with a header value. -/
def selectMedia (value : CString) : Option ℕ :=
  selectLoop (value.length + 2) (value ++ [0]) 0 seXml 0

/-! ## What a pass can do -/

section
variable {p q : RangeParser} {mem mem' : List UInt8} {s n data next : ℕ} {c : UInt8}
  {text name rest : CString}

/-- Memory in state 4, and in state 3 with the NUL behind the type. -/
def RangeParser.Rests (p : RangeParser) (mem : List UInt8) : Prop :=
  p.state = .parameter ∧ mem = p.mem ∨ p.state = .subtypeEnd ∧ mem = p.mem.set p.data 0

/-- **A pass that goes on.** -/
inductive RangeParser.Goes (p : RangeParser) : RangeParser → Prop
  | passed {c : UInt8} (hstate : p.state = .type) (hblank : hws p.c ∨ p.c = 44)
    (h : p.mem[p.data + 1]? = some c) : p.Goes { p with data := p.data + 1, c := c }
  | type {next : ℕ} {c : UInt8} (hstate : p.state = .type) (hzero : p.c ≠ 0)
    (hblank : ¬(hws p.c ∨ p.c = 44)) (htoken : tokenIn p.mem p.data = .found next)
    (h : p.mem[next]? = some c) : p.Goes { p with
      m := { p.m with type := p.data, quality := 1000 }, data := next, state := .slash, c := c }
  | slash {c : UInt8} (hstate : p.state = .slash) (hslash : p.c = 47)
    (h : p.mem[p.data + 1]? = some c) :
    p.Goes { p with data := p.data + 1, state := .subtype, c := c }
  | subtype {next : ℕ} {c : UInt8} (hstate : p.state = .subtype)
    (htoken : tokenIn p.mem p.data = .found next) (h : p.mem[next]? = some c) :
    p.Goes { p with
      m := { p.m with sub := p.data }, data := next, state := .subtypeEnd, c := c }
  | blank {mem : List UInt8} {c : UInt8} (hstate : p.Rests mem) (hblank : hws p.c)
    (h : mem[p.data + 1]? = some c) :
    p.Goes { p with mem := mem, data := p.data + 1, state := .parameter, c := c }
  | semicolon {mem : List UInt8} {c : UInt8} (hstate : p.Rests mem) (hc : p.c = 59)
    (h : mem[p.data + 1]? = some c) :
    p.Goes { p with mem := mem, data := p.data + 1, state := .parameterName, c := c }
  | name {data next : ℕ} {c : UInt8} (hstate : p.state = .parameterName)
    (hows : owsIn p.mem p.data = some data) (htoken : tokenIn p.mem data = .found next)
    (h : p.mem[next]? = some c) :
    p.Goes { p with param := data, data := next, state := .parameterValue, c := c }
  | quality {mem : List UInt8} {q next : ℕ} {c : UInt8} (hstate : p.state = .parameterValue)
    (hc : p.c = 61) (hname : lowerIn (p.mem.set p.data 0) p.param = some ([113], mem))
    (hq : qvalueIn mem (p.data + 1) = .found (q, next)) (h : mem[next]? = some c) :
    p.Goes { p with
      mem := mem, m := { p.m with quality := q }, data := next, state := .parameter, c := c }
  | value {name : CString} {mem mem' : List UInt8} {value next : ℕ} {c : UInt8}
    (hstate : p.state = .parameterValue) (hc : p.c = 61)
    (hname : lowerIn (p.mem.set p.data 0) p.param = some (name, mem)) (hweight : name ≠ [113])
    (hvalue : pvalueIn mem (p.data + 1) = .found (value, mem', next))
    (h : mem'[next]? = some c) :
    p.Goes { p with mem := mem', value := value, data := next, state := .completed, c := c }
  | completed (hstate : p.state = .completed) :
    p.Goes { p with
      mem := p.mem.set p.data 0
      m := { p.m with param := (p.m.param.set p.i (some p.param)).set (p.i + 1) (some p.value) }
      i := (p.i + 2) &&& 7
      state := .parameter }

theorem RangeParser.goOn_inl (h : p.goOn = .inl q) :
    ∃ c, p.mem[p.data]? = some c ∧ q = { p with c := c } := by
  unfold goOn at h
  cases hc : p.mem[p.data]? with
  | none =>
    rw [hc] at h
    cases h
  | some c =>
    rw [hc] at h
    exact ⟨c, rfl, (Sum.inl.inj h).symm⟩

theorem RangeParser.goOn_some (h : p.mem[p.data]? = some c) : p.goOn = .inl { p with c := c } := by
  unfold goOn
  rw [h]

theorem RangeParser.Goes.of_parameterPass (hstate : p.Rests mem)
    (h : { p with mem := mem, state := .parameter }.parameterPass = .inl q) : p.Goes q := by
  unfold parameterPass at h
  split_ifs at h with hcomma hzero hblank hsemicolon
  · obtain ⟨c, hc, rfl⟩ := goOn_inl h
    exact .blank hstate hblank hc
  · obtain ⟨c, hc, rfl⟩ := goOn_inl h
    exact .semicolon hstate hsemicolon hc

/-- **The cases of a pass that goes on** are complete. -/
theorem RangeParser.Goes.of_pass (h : p.pass = .inl q) : p.Goes q := by
  unfold pass at h
  split at h <;> rename_i hstate
  · unfold typePass at h
    split_ifs at h with hzero hblank
    · obtain ⟨c, hc, rfl⟩ := goOn_inl h
      exact .passed hstate hblank hc
    · split at h
      · cases h
      · cases h
      · rename_i next htoken
        obtain ⟨c, hc, rfl⟩ := goOn_inl h
        exact .type hstate hzero hblank htoken hc
  · unfold slashPass at h
    split_ifs at h with hslash
    obtain ⟨c, hc, rfl⟩ := goOn_inl h
    exact .slash hstate hslash hc
  · unfold subtypePass at h
    split at h
    · cases h
    · cases h
    · rename_i next htoken
      obtain ⟨c, hc, rfl⟩ := goOn_inl h
      exact .subtype hstate htoken hc
  · exact .of_parameterPass (Or.inr ⟨hstate, rfl⟩) h
  · refine .of_parameterPass (Or.inl ⟨hstate, rfl⟩) ?_
    rw [← hstate]
    exact h
  · unfold namePass at h
    split at h
    · cases h
    · rename_i data hows
      split at h
      · cases h
      · cases h
      · rename_i next htoken
        obtain ⟨c, hc, rfl⟩ := goOn_inl h
        exact .name hstate hows htoken hc
  · unfold valuePass at h
    split_ifs at h with hequal
    split at h
    · cases h
    · rename_i name mem hname
      split_ifs at h with hweight
      · split at h
        · cases h
        · cases h
        · rename_i quality next hq
          obtain ⟨c, hc, rfl⟩ := goOn_inl h
          exact .quality hstate hequal (hweight ▸ hname) hq hc
      · split at h
        · cases h
        · cases h
        · rename_i value mem' next hvalue
          obtain ⟨c, hc, rfl⟩ := goOn_inl h
          exact .value hstate hequal hname hweight hvalue hc
  · unfold completedPass at h
    obtain rfl := Sum.inl.inj h
    exact .completed hstate

/-- Blanks, NULs and what separates are not tokens. -/
theorem hws_ne (hblank : hws c) : c ≠ 0 ∧ c ≠ 44 := by
  unfold hws at hblank
  rcases of_decide_eq_true hblank with rfl | rfl
  · exact ⟨by decide, by decide⟩
  · exact ⟨by decide, by decide⟩

theorem RangeParser.Rests.pass (hstate : p.Rests mem) :
    p.pass = { p with mem := mem, state := .parameter }.parameterPass := by
  unfold RangeParser.pass
  rcases hstate with ⟨hstate, rfl⟩ | ⟨hstate, rfl⟩
  · rw [hstate]
    dsimp only
    rw [← hstate]
  · rw [hstate]

/-- What `Goes` says can be done is done. -/
theorem RangeParser.Goes.pass (hgoes : p.Goes q) : p.pass = .inl q := by
  cases hgoes with
  | passed hstate hblank h =>
    have hzero : p.c ≠ 0 := by
      rcases hblank with hblank | hcomma
      · exact (hws_ne hblank).1
      · rw [hcomma]
        decide
    unfold RangeParser.pass
    rw [hstate]
    dsimp only
    unfold typePass
    rw [if_neg hzero, if_pos hblank, goOn_some h, hstate]
  | type hstate hzero hblank htoken h =>
    unfold RangeParser.pass
    rw [hstate]
    dsimp only
    unfold typePass
    rw [if_neg hzero, if_neg hblank, htoken]
    exact goOn_some h
  | slash hstate hslash h =>
    unfold RangeParser.pass
    rw [hstate]
    dsimp only
    unfold slashPass
    rw [if_pos hslash]
    exact goOn_some h
  | subtype hstate htoken h =>
    unfold RangeParser.pass
    rw [hstate]
    dsimp only
    unfold subtypePass
    rw [htoken]
    exact goOn_some h
  | blank hstate hblank h =>
    rw [hstate.pass]
    unfold parameterPass
    rw [if_neg (hws_ne hblank).2, if_neg (hws_ne hblank).1, if_pos hblank]
    exact goOn_some h
  | semicolon hstate hc h =>
    rw [hstate.pass]
    unfold parameterPass
    have hcomma : p.c ≠ 44 := by rw [hc]; decide
    have hzero : p.c ≠ 0 := by rw [hc]; decide
    have hblank : ¬hws p.c := by rw [hc]; decide
    rw [if_neg hcomma, if_neg hzero, if_neg hblank, if_pos hc]
    exact goOn_some h
  | name hstate hows htoken h =>
    unfold RangeParser.pass
    rw [hstate]
    dsimp only
    unfold namePass
    rw [hows]
    dsimp only
    rw [htoken]
    exact goOn_some h
  | quality hstate hc hname hq h =>
    unfold RangeParser.pass
    rw [hstate]
    dsimp only
    unfold valuePass
    rw [if_pos hc, hname]
    dsimp only
    rw [if_pos rfl, hq]
    exact goOn_some h
  | value hstate hc hname hweight hvalue h =>
    unfold RangeParser.pass
    rw [hstate]
    dsimp only
    unfold valuePass
    rw [if_pos hc, hname]
    dsimp only
    rw [if_neg hweight, hvalue]
    exact goOn_some h
  | completed hstate =>
    unfold RangeParser.pass
    rw [hstate]
    rfl

/-- **A media type is returned** in state 4 only. -/
theorem RangeParser.found_of_pass {m : MediaType} (h : p.pass = .inr (.found m mem data)) :
    p.Rests mem ∧ m = p.m ∧ (p.c = 44 ∧ data = p.data + 1 ∨ p.c = 0 ∧ data = p.data) := by
  have hgo : ∀ {p : RangeParser}, p.goOn ≠ .inr (.found m mem data) := by
    intro p hp
    unfold goOn at hp
    split at hp
    · cases hp
    · cases hp
  have hrests : ∀ {mem'}, p.Rests mem' → p.Rests mem ∧ m = p.m ∧
      (p.c = 44 ∧ data = p.data + 1 ∨ p.c = 0 ∧ data = p.data) := by
    intro mem' hstate
    rw [hstate.pass] at h
    unfold parameterPass at h
    split_ifs at h with hcomma hzero hblank hsemicolon
    · cases h
      exact ⟨hstate, rfl, Or.inl ⟨hcomma, rfl⟩⟩
    · cases h
      exact ⟨hstate, rfl, Or.inr ⟨hzero, rfl⟩⟩
    · exact absurd h hgo
    · exact absurd h hgo
    · cases h
  unfold RangeParser.pass at h
  split at h <;> rename_i hstate
  · unfold typePass at h
    split_ifs at h
    · cases h
    · exact absurd h hgo
    · split at h
      · cases h
      · cases h
      · exact absurd h hgo
  · unfold slashPass at h
    split_ifs at h
    · exact absurd h hgo
    · cases h
  · unfold subtypePass at h
    split at h
    · cases h
    · cases h
    · exact absurd h hgo
  · exact hrests (Or.inr ⟨hstate, rfl⟩)
  · exact hrests (Or.inl ⟨hstate, rfl⟩)
  · unfold namePass at h
    split at h
    · cases h
    · split at h
      · cases h
      · cases h
      · exact absurd h hgo
  · unfold valuePass at h
    split_ifs at h
    · split at h
      · cases h
      · split_ifs at h
        · split at h
          · cases h
          · cases h
          · exact absurd h hgo
        · split at h
          · cases h
          · cases h
          · exact absurd h hgo
    · cases h
  · cases h

/-! ## Characters and strings -/

theorem passOver_some {chars : UInt8 → Bool} {l : List UInt8} (h : passOver chars l = some n) :
    ∃ text c rest, l = text ++ c :: rest ∧ text.length = n ∧ (∀ x ∈ text, chars x) ∧ ¬chars c := by
  induction l generalizing n with
  | nil => cases h
  | cons c l ih =>
    unfold passOver at h
    split_ifs at h with hc
    · obtain ⟨k, hk, rfl⟩ := Option.map_eq_some_iff.mp h
      obtain ⟨text, d, rest, rfl, rfl, htext, hd⟩ := ih hk
      refine ⟨c :: text, d, rest, rfl, rfl, ?_, hd⟩
      exact List.forall_mem_cons.mpr ⟨hc, htext⟩
    · exact ⟨[], c, l, rfl, Option.some.inj h, fun x hx => absurd hx List.not_mem_nil, hc⟩

theorem passOver_text {chars : UInt8 → Bool} (htext : ∀ x ∈ text, chars x) (hc : ¬chars c) :
    passOver chars (text ++ c :: rest) = some text.length := by
  induction text with
  | nil => exact if_neg hc
  | cons d text ih =>
    obtain ⟨hd, htext⟩ := List.forall_mem_cons.mp htext
    rw [List.cons_append, passOver, if_pos hd, ih htext]
    rfl

theorem cString_text (htext : ∀ x ∈ text, x ≠ 0) : cString (text ++ 0 :: rest) = some text := by
  induction text with
  | nil => rfl
  | cons d text ih =>
    obtain ⟨hd, htext⟩ := List.forall_mem_cons.mp htext
    rw [List.cons_append, cString, if_neg hd, ih htext]
    rfl

theorem cString_some {l : List UInt8} (h : cString l = some text) :
    ∃ rest, l = text ++ 0 :: rest := by
  induction l generalizing text with
  | nil => cases h
  | cons c l ih =>
    unfold cString at h
    split_ifs at h with hc
    · obtain rfl := Option.some.inj h
      exact ⟨l, by rw [hc]; rfl⟩
    · obtain ⟨text, htext, rfl⟩ := Option.map_eq_some_iff.mp h
      obtain ⟨rest, rfl⟩ := ih htext
      exact ⟨rest, rfl⟩

theorem tokenIn_some (h : tokenIn mem data = .found next) :
    ∃ text c rest, mem.drop data = text ++ c :: rest ∧ next = data + text.length ∧ text ≠ [] ∧
      (∀ x ∈ text, tchar x) ∧ ¬tchar c := by
  unfold tokenIn at h
  split at h
  · cases h
  · rename_i n hn
    split_ifs at h with hzero
    obtain ⟨text, c, rest, hdrop, rfl, htext, hc⟩ := passOver_some hn
    cases h
    exact ⟨text, c, rest, hdrop, rfl, fun h => hzero (congrArg List.length h), htext, hc⟩

theorem tokenIn_text (hdrop : mem.drop data = text ++ c :: rest) (hne : text ≠ [])
    (htext : ∀ x ∈ text, tchar x) (hc : ¬tchar c) :
    tokenIn mem data = .found (data + text.length) := by
  unfold tokenIn
  rw [hdrop, passOver_text htext hc]
  exact if_neg fun h => hne (List.length_eq_zero_iff.mp h)

theorem owsIn_le (h : owsIn mem data = some next) : data ≤ next := by
  obtain ⟨n, -, rfl⟩ := Option.map_eq_some_iff.mp h
  exact Nat.le_add_right _ _

theorem lt_of_drop {l : List UInt8} (h : mem.drop data = l) (hl : l ≠ []) : data < mem.length := by
  by_contra hle
  rw [List.drop_eq_nil_of_le (Nat.not_lt.mp hle)] at h
  exact hl h.symm

theorem fraction_le {f f' : ℕ} (h : fraction mem n f data = some (f', next)) : data ≤ next := by
  induction n generalizing f data with
  | zero =>
    obtain ⟨c, -, heq⟩ := Option.map_eq_some_iff.mp h
    exact Nat.le_of_eq (Prod.mk.inj heq).2
  | succ n ih =>
    unfold fraction at h
    split at h
    · cases h
    · split_ifs at h
      · exact Nat.le_of_succ_le (ih h)
      · exact Nat.le_of_eq (Prod.mk.inj (Option.some.inj h)).2

theorem qvalueIn_lt {quality : ℕ} (h : qvalueIn mem data = .found (quality, next)) :
    data < next := by
  unfold qvalueIn at h
  split at h
  · cases h
  rename_i c hc
  by_cases hdigit : c = 48 ∨ c = 49
  · rw [if_pos hdigit] at h
    dsimp only at h
    generalize (if c = 48 then 0 else 1000) = q at h
    split at h
    · cases h
    · split_ifs at h
      · split at h
        · cases h
        · rename_i f next' hf
          have hle := fraction_le hf
          split_ifs at h
          cases h
          omega
      · cases h
        exact Nat.lt_succ_self _
  · rw [if_neg hdigit] at h
    cases h

/-- `quoted_string` takes the opening quote for the closing one. -/
theorem quotedString_open (h : mem[data]? = some 34) :
    quotedString mem data =
      if mem.length ≤ data + 1 then .outside else .found (mem.set (data + 1) 0, data + 2) := by
  unfold quotedString quotedLoop
  rw [h]
  dsimp only
  rw [if_neg (by decide)]
  by_cases hend : mem.length ≤ data + 1
  · rw [if_pos hend, if_pos hend]
  · rw [if_neg hend, if_neg hend, if_neg (by decide), if_pos rfl]

/-- A value is a token, or a quote that is followed by the end of the empty value. -/
theorem pvalueIn_some {value : ℕ} (h : pvalueIn mem data = .found (value, mem', next)) :
    (mem[data]? = some 34 ∧ data + 1 < mem.length ∧ value = data + 1 ∧
      mem' = mem.set (data + 1) 0 ∧ next = data + 2) ∨
    tokenIn mem data = .found next ∧ value = data ∧ mem' = mem := by
  unfold pvalueIn at h
  split at h
  · cases h
  · rename_i c hc
    split_ifs at h with hquote
    · rw [hquote] at hc
      rw [quotedString_open hc] at h
      by_cases hend : mem.length ≤ data + 1
      · rw [if_pos hend] at h
        cases h
      · rw [if_neg hend] at h
        cases h
        exact Or.inl ⟨hc, Nat.not_le.mp hend, rfl, rfl, rfl⟩
    · split at h
      · cases h
      · cases h
      · rename_i next' htoken
        cases h
        exact Or.inr ⟨htoken, rfl, rfl⟩

theorem lowerIn_some (h : lowerIn mem s = some (name, mem')) :
    ∃ text rest, mem.drop s = text ++ 0 :: rest ∧ name = toLower text ∧
      mem' = mem.take s ++ (toLower text ++ 0 :: rest) := by
  obtain ⟨text, htext, heq⟩ := Option.map_eq_some_iff.mp h
  obtain ⟨rfl, rfl⟩ := Prod.mk.inj heq
  obtain ⟨rest, hrest⟩ := cString_some htext
  refine ⟨text, rest, hrest, rfl, ?_⟩
  rw [← List.drop_drop, hrest, List.drop_left, List.append_assoc]

theorem length_toLower (text : CString) : (toLower text).length = text.length := List.length_map _

theorem lowerIn_length (h : lowerIn mem s = some (name, mem')) : mem'.length = mem.length := by
  obtain ⟨text, rest, hdrop, -, rfl⟩ := lowerIn_some h
  have hsplit := congrArg List.length (List.take_append_drop s mem)
  rw [hdrop, List.length_append, List.length_append] at hsplit
  rw [List.length_append, List.length_append, length_toLower]
  exact hsplit

/-- Memory in front of a string stays as it is. -/
theorem lowerIn_front {i : ℕ} (h : lowerIn mem s = some (name, mem')) (hi : i < s) :
    mem'[i]? = mem[i]? := by
  obtain ⟨text, rest, hdrop, -, rfl⟩ := lowerIn_some h
  have hs := lt_of_drop hdrop (List.append_ne_nil_of_right_ne_nil _ (List.cons_ne_nil _ _))
  have htake : i < (mem.take s).length := by
    rw [List.length_take]
    omega
  rw [List.getElem?_append_left htake, List.getElem?_take_of_lt hi]

/-! ## Strings in memory -/

/-- A string and its NUL stand at a place of memory. -/
def StringAt (mem : List UInt8) (s : ℕ) (text : CString) : Prop := text ++ [0] <+: mem.drop s

theorem stored_text (hdrop : mem.drop s = text ++ 0 :: rest) : StringAt mem s text :=
  ⟨rest, by rw [hdrop, List.append_assoc]; rfl⟩

theorem StringAt.read (h : StringAt mem s text) (htext : ∀ x ∈ text, x ≠ 0) :
    cString (mem.drop s) = some text := by
  obtain ⟨rest, hrest⟩ := h
  rw [← hrest, List.append_assoc]
  exact cString_text htext

theorem stored_iff : StringAt mem s text ↔
    ∀ i (h : i < (text ++ [0]).length), mem[s + i]? = some ((text ++ [0])[i]) := by
  unfold StringAt
  rw [List.prefix_iff_getElem?]
  refine forall_congr' fun i => forall_congr' fun h => ?_
  rw [List.getElem?_drop]

theorem StringAt.congr (h : StringAt mem s text)
    (hmem : ∀ i, i ≤ s + text.length → mem'[i]? = mem[i]?) : StringAt mem' s text := by
  rw [stored_iff] at h ⊢
  intro i hi
  have hle : i ≤ text.length := by
    rw [List.length_append, List.length_singleton] at hi
    exact Nat.le_of_lt_succ hi
  rw [hmem _ (Nat.add_le_add_left hle s), h i hi]

/-- A NUL behind the string, or the one that ends it. -/
theorem StringAt.set_zero (h : StringAt mem s text) (hdata : s + text.length ≤ data) :
    StringAt (mem.set data 0) s text := by
  refine h.congr fun i hi => ?_
  by_cases heq : data = i
  · subst heq
    have hend : data = s + text.length := Nat.le_antisymm hi hdata
    have hlast := stored_iff.mp h text.length (by
      rw [List.length_append, List.length_singleton]
      exact Nat.lt_succ_self _)
    rw [List.getElem_append_right (Nat.le_refl _)] at hlast
    simp only [Nat.sub_self, List.getElem_cons_zero] at hlast
    rw [← hend] at hlast
    rw [hlast, List.getElem?_set_self (List.getElem?_eq_some_iff.mp hlast).1]
  · exact List.getElem?_set_ne heq

/-- A token gets its NUL. -/
theorem stored_token (hbegins : text <+: mem.drop s) (hdata : s + text.length = data)
    (hinside : data < mem.length) : StringAt (mem.set data 0) s text := by
  refine stored_iff.mpr fun i hi => ?_
  rw [List.length_append, List.length_singleton] at hi
  rcases Nat.lt_succ_iff_lt_or_eq.mp hi with hlt | rfl
  · have hchar := List.prefix_iff_getElem?.mp hbegins i hlt
    rw [List.getElem?_drop] at hchar
    rw [List.getElem?_set_ne (by omega), List.getElem_append_left hlt]
    exact hchar
  · rw [hdata, List.getElem?_set_self hinside, List.getElem_append_right (Nat.le_refl _)]
    simp only [Nat.sub_self, List.getElem_cons_zero]

/-- A string that no pass reaches any more. -/
structure RangeParser.Kept (p : RangeParser) (s : ℕ) (text : CString) : Prop where
  stored : StringAt p.mem s text
  behind : s + text.length ≤ p.data
  name : p.state = .parameterName → s + text.length < p.data
  value : p.state = .parameterValue → s + text.length < p.param

theorem RangeParser.Rests.stored (hstate : p.Rests mem) (h : StringAt p.mem s text)
    (hdata : s + text.length ≤ p.data) : StringAt mem s text := by
  rcases hstate with ⟨-, rfl⟩ | ⟨-, rfl⟩
  · exact h
  · exact h.set_zero hdata

theorem RangeParser.Rests.length (hstate : p.Rests mem) : mem.length = p.mem.length := by
  rcases hstate with ⟨-, rfl⟩ | ⟨-, rfl⟩
  · rfl
  · exact List.length_set

/-- **A pass keeps** such strings. -/
theorem RangeParser.Kept.goes (h : p.Kept s text) (hgoes : p.Goes q) : q.Kept s text := by
  obtain ⟨hstored, hbehind, hname, hvalue⟩ := h
  cases hgoes with
  | passed hstate hblank hc =>
    refine ⟨hstored, Nat.le_succ_of_le hbehind, ?_, ?_⟩
    · exact fun hq => absurd (hstate.symm.trans hq) RangeState.noConfusion
    · exact fun hq => absurd (hstate.symm.trans hq) RangeState.noConfusion
  | type hstate hzero hblank htoken hc =>
    obtain ⟨token, d, rest, -, rfl, -⟩ := tokenIn_some htoken
    exact ⟨hstored, Nat.le_add_right_of_le hbehind, RangeState.noConfusion, RangeState.noConfusion⟩
  | slash hstate hslash hc =>
    exact ⟨hstored, Nat.le_succ_of_le hbehind, RangeState.noConfusion, RangeState.noConfusion⟩
  | subtype hstate htoken hc =>
    obtain ⟨token, d, rest, -, rfl, -⟩ := tokenIn_some htoken
    exact ⟨hstored, Nat.le_add_right_of_le hbehind, RangeState.noConfusion, RangeState.noConfusion⟩
  | blank hstate hblank hc =>
    exact ⟨hstate.stored hstored hbehind, Nat.le_succ_of_le hbehind, RangeState.noConfusion,
      RangeState.noConfusion⟩
  | semicolon hstate hsemicolon hc =>
    exact ⟨hstate.stored hstored hbehind, Nat.le_succ_of_le hbehind,
      fun _ => Nat.lt_succ_of_le hbehind, RangeState.noConfusion⟩
  | name hstate hows htoken hc =>
    obtain ⟨token, d, rest, -, rfl, -⟩ := tokenIn_some htoken
    have hdata := owsIn_le hows
    have hfront := hname hstate
    refine ⟨hstored, ?_, RangeState.noConfusion, fun _ => ?_⟩
    · dsimp only
      omega
    · exact Nat.lt_of_lt_of_le hfront hdata
  | quality hstate hequal hlower hq hc =>
    have hnext := qvalueIn_lt hq
    refine ⟨?_, ?_, RangeState.noConfusion, RangeState.noConfusion⟩
    · refine (hstored.set_zero hbehind).congr fun i hi => ?_
      exact lowerIn_front hlower (Nat.lt_of_le_of_lt hi (hvalue hstate))
    · dsimp only
      omega
  | @value name mem mem' value next c hstate hequal hlower hweight hpvalue hc =>
    have hlowered : StringAt mem s text := by
      refine (hstored.set_zero hbehind).congr fun i hi => ?_
      exact lowerIn_front hlower (Nat.lt_of_le_of_lt hi (hvalue hstate))
    rcases pvalueIn_some hpvalue with ⟨-, -, rfl, rfl, rfl⟩ | ⟨htoken, rfl, rfl⟩
    · refine ⟨hlowered.set_zero ?_, ?_, RangeState.noConfusion, RangeState.noConfusion⟩
      · exact Nat.le_add_right_of_le (Nat.le_succ_of_le hbehind)
      · dsimp only
        omega
    · obtain ⟨token, d, rest, -, rfl, -⟩ := tokenIn_some htoken
      refine ⟨hlowered, ?_, RangeState.noConfusion, RangeState.noConfusion⟩
      dsimp only
      omega
  | completed hstate =>
    exact ⟨hstored.set_zero hbehind, hbehind, RangeState.noConfusion, RangeState.noConfusion⟩

theorem RangeParser.Kept.leads (h : p.Kept s text) (hleads : Passes.Leads pass p q) :
    q.Kept s text :=
  hleads.invariant (·.Kept s text) (fun _ _ hkept hpass => hkept.goes (.of_pass hpass)) h

/-! ## The end of the loop -/

theorem RangeParser.Goes.length (h : p.Goes q) : q.mem.length = p.mem.length := by
  cases h with
  | passed | type | slash | subtype | name => rfl
  | blank hstate _ _ => exact hstate.length
  | semicolon hstate _ _ => exact hstate.length
  | quality _ _ hlower _ _ => exact (lowerIn_length hlower).trans List.length_set
  | value _ _ hlower _ hvalue _ =>
    rcases pvalueIn_some hvalue with ⟨-, -, -, rfl, -⟩ | ⟨-, -, rfl⟩
    · exact List.length_set.trans ((lowerIn_length hlower).trans List.length_set)
    · exact (lowerIn_length hlower).trans List.length_set
  | completed => exact List.length_set

/-- The passes that are left, at most. -/
def RangeParser.left (p : RangeParser) : ℕ :=
  2 * (p.mem.length - p.data) + if p.state = .completed then 1 else 0

theorem tokenIn_lt (h : tokenIn mem data = .found next) : data < next := by
  obtain ⟨text, c, rest, -, rfl, hne, -⟩ := tokenIn_some h
  exact Nat.lt_add_of_pos_right (List.length_pos_iff.mpr hne)

/-- A pass goes on by one character at least, or completes a parameter. -/
theorem RangeParser.Goes.ahead (h : p.Goes q) :
    p.data < q.data ∧ q.data < q.mem.length ∨
      q.data = p.data ∧ p.state = .completed ∧ q.state = .parameter := by
  have hinside : ∀ {mem : List UInt8} {data : ℕ} {c : UInt8}, mem[data]? = some c →
      data < mem.length := fun h => (List.getElem?_eq_some_iff.mp h).1
  cases h with
  | passed _ _ h => exact Or.inl ⟨Nat.lt_succ_self _, hinside h⟩
  | type _ _ _ htoken h => exact Or.inl ⟨tokenIn_lt htoken, hinside h⟩
  | slash _ _ h => exact Or.inl ⟨Nat.lt_succ_self _, hinside h⟩
  | subtype _ htoken h => exact Or.inl ⟨tokenIn_lt htoken, hinside h⟩
  | blank _ _ h => exact Or.inl ⟨Nat.lt_succ_self _, hinside h⟩
  | semicolon _ _ h => exact Or.inl ⟨Nat.lt_succ_self _, hinside h⟩
  | name _ hows htoken h =>
    exact Or.inl ⟨Nat.lt_of_le_of_lt (owsIn_le hows) (tokenIn_lt htoken), hinside h⟩
  | quality _ _ _ hq h => exact Or.inl ⟨Nat.lt_of_succ_lt (qvalueIn_lt hq), hinside h⟩
  | value _ _ _ _ hvalue h =>
    rcases pvalueIn_some hvalue with ⟨-, -, -, -, rfl⟩ | ⟨htoken, -, -⟩
    · refine Or.inl ⟨?_, hinside h⟩
      dsimp only
      omega
    · exact Or.inl ⟨Nat.lt_of_succ_lt (tokenIn_lt htoken), hinside h⟩
  | completed hstate => exact Or.inr ⟨rfl, hstate, rfl⟩

theorem RangeParser.left_lt (h : p.pass = .inl q) : q.left < p.left := by
  have hgoes := Goes.of_pass h
  have hlength := hgoes.length
  unfold left
  rcases hgoes.ahead with ⟨hlt, hinside⟩ | ⟨hdata, hp, hq⟩
  · split_ifs <;> omega
  · rw [if_pos hp, hq, if_neg RangeState.noConfusion, hdata, hlength]
    exact Nat.lt_succ_self _

/-- **`media_range` ends**, and how is what `Ends` says. -/
theorem mediaRange_iff {r : RangeResult} (hc : mem[data]? = some c) :
    mediaRange mem data = some r ↔
      Passes.Ends RangeParser.pass { mem := mem, c := c, data := data } r := by
  unfold mediaRange
  rw [hc]
  refine Passes.loop_eq_some_iff RangeParser.left (fun _ _ => RangeParser.left_lt) ?_
  unfold RangeParser.left
  rw [if_neg RangeState.noConfusion]
  dsimp only
  omega

/-! ## The parameters of a media type -/

theorem tchar_ne : ∀ c : UInt8, tchar c → c ≠ 0 ∧ ¬hws c ∧ c ≠ 44 ∧ c ≠ 47 ∧ c ≠ 59 ∧ c ≠ 61 ∧
    c ≠ 34 := by
  apply forall_byte
  decide +kernel

theorem tchar_lower : ∀ c : UInt8, tchar c → tchar (if 65 ≤ c ∧ c ≤ 90 then c + 32 else c) := by
  apply forall_byte
  decide +kernel

theorem tchar_toLower (htext : ∀ x ∈ text, tchar x) : ∀ x ∈ toLower text, tchar x := by
  intro x hx
  obtain ⟨c, hc, rfl⟩ := List.mem_map.mp hx
  exact tchar_lower c (htext c hc)

/-- The name of a parameter gets its NUL and is turned to lower case. -/
theorem lowerIn_name (hbegins : text <+: mem.drop s) (htext : ∀ x ∈ text, tchar x)
    (hdata : s + text.length = data) (hinside : data < mem.length) :
    ∃ mem', lowerIn (mem.set data 0) s = some (toLower text, mem') ∧
      StringAt mem' s (toLower text) ∧ mem'.drop (data + 1) = mem.drop (data + 1) := by
  obtain ⟨tail, htail⟩ := hbegins
  have hlength := congrArg List.length htail
  rw [List.length_append, List.length_drop] at hlength
  obtain ⟨d, rest, rfl⟩ := List.exists_cons_of_ne_nil (l := tail) (by
    rintro rfl
    rw [List.length_nil] at hlength
    omega)
  have hfront : (mem.take s).length = s := by
    rw [List.length_take]
    omega
  have hmem : mem = mem.take s ++ (text ++ d :: rest) := by
    rw [htail, List.take_append_drop]
  generalize mem.take s = front at hfront hmem
  subst hmem
  have hset : (front ++ (text ++ d :: rest)).set data 0 = front ++ (text ++ 0 :: rest) := by
    rw [List.set_append_right _ _ (by omega), List.set_append_right _ _ (by omega), hfront,
      show data - s - text.length = 0 by omega]
    rfl
  have hdrop : ∀ l : List UInt8, (front ++ l).drop s = l := fun l => List.drop_left' hfront
  have hzero : ∀ x ∈ text, x ≠ 0 := fun x hx => (tchar_ne x (htext x hx)).1
  refine ⟨front ++ (toLower text ++ 0 :: rest), ?_, ?_, ?_⟩
  · unfold lowerIn
    rw [hset, hdrop, cString_text hzero, List.take_left' hfront, Option.map_some]
    rw [← List.drop_drop, hdrop, List.drop_left, List.append_assoc]
  · exact stored_text (hdrop _)
  · have hbehind : ∀ l c, l.length = text.length →
        (front ++ (l ++ c :: rest)).drop (data + 1) = rest := by
      intro l c hl
      rw [show data + 1 = s + (l.length + 1) by omega, ← List.drop_drop, hdrop, ← List.drop_drop,
        List.drop_left]
      rfl
    rw [hbehind _ _ (length_toLower text), hbehind _ _ rfl]

/-- What holds of the parameters in every pass, whatever the header value. -/
structure RangeParser.Sound (p : RangeParser) : Prop where
  inside : p.data < p.mem.length
  length : p.m.param.length = 8
  params : ∀ s, some s ∈ p.m.param → ∃ text, (∀ x ∈ text, tchar x) ∧ p.Kept s text
  name : p.state = .parameterValue →
    ∃ text, (∀ x ∈ text, tchar x) ∧ text <+: p.mem.drop p.param ∧ p.param + text.length = p.data
  completed : p.state = .completed →
    (∃ text, (∀ x ∈ text, tchar x) ∧ p.Kept p.param text) ∧
    ∃ text, (∀ x ∈ text, tchar x) ∧
      (p.Kept p.value text ∨ text <+: p.mem.drop p.value ∧ p.value + text.length = p.data)

/-- **A pass keeps** the parameters sound. -/
theorem RangeParser.Sound.goes (h : p.Sound) (hgoes : p.Goes q) : q.Sound := by
  have hlength := hgoes.length
  have hparams : ∀ s, some s ∈ p.m.param → ∃ text, (∀ x ∈ text, tchar x) ∧ q.Kept s text := by
    intro s hs
    obtain ⟨text, htext, hkept⟩ := h.params s hs
    exact ⟨text, htext, hkept.goes hgoes⟩
  have hinside : q.data < q.mem.length := by
    rcases hgoes.ahead with ⟨-, hin⟩ | ⟨hdata, -, -⟩
    · exact hin
    · rw [hlength, hdata]
      exact h.inside
  have hgoes' := hgoes
  cases hgoes with
  | passed hstate hblank hc =>
    refine ⟨hinside, h.length, hparams, ?_, ?_⟩
    · exact fun hq => absurd (hstate.symm.trans hq) RangeState.noConfusion
    · exact fun hq => absurd (hstate.symm.trans hq) RangeState.noConfusion
  | type hstate hzero hblank htoken hc =>
    exact ⟨hinside, h.length, hparams, RangeState.noConfusion, RangeState.noConfusion⟩
  | slash hstate hslash hc =>
    exact ⟨hinside, h.length, hparams, RangeState.noConfusion, RangeState.noConfusion⟩
  | subtype hstate htoken hc =>
    exact ⟨hinside, h.length, hparams, RangeState.noConfusion, RangeState.noConfusion⟩
  | blank hstate hblank hc =>
    exact ⟨hinside, h.length, hparams, RangeState.noConfusion, RangeState.noConfusion⟩
  | semicolon hstate hsemicolon hc =>
    exact ⟨hinside, h.length, hparams, RangeState.noConfusion, RangeState.noConfusion⟩
  | name hstate hows htoken hc =>
    refine ⟨hinside, h.length, hparams, fun _ => ?_, RangeState.noConfusion⟩
    obtain ⟨text, d, rest, hdrop, rfl, -, htext, -⟩ := tokenIn_some htoken
    exact ⟨text, htext, ⟨_, hdrop.symm⟩, rfl⟩
  | quality hstate hequal hlower hq hc =>
    exact ⟨hinside, h.length, hparams, RangeState.noConfusion, RangeState.noConfusion⟩
  | @value name mem mem' value next c hstate hequal hlower hweight hvalue hc =>
    refine ⟨hinside, h.length, hparams, RangeState.noConfusion, fun _ => ?_⟩
    obtain ⟨text, htext, hbegins, hdata⟩ := h.name hstate
    obtain ⟨lowered, hlower', hstored, -⟩ := lowerIn_name hbegins htext hdata h.inside
    rw [hlower] at hlower'
    obtain ⟨rfl, rfl⟩ := Prod.mk.inj (Option.some.inj hlower')
    have htoLower := length_toLower text
    rcases pvalueIn_some hvalue with ⟨-, hroom, rfl, rfl, rfl⟩ | ⟨htoken, rfl, rfl⟩
    · refine ⟨⟨_, tchar_toLower htext, hstored.set_zero ?_, ?_, RangeState.noConfusion,
        RangeState.noConfusion⟩, [], fun x hx => absurd hx List.not_mem_nil, Or.inl ⟨?_, ?_,
        RangeState.noConfusion, RangeState.noConfusion⟩⟩
      · omega
      · dsimp only
        omega
      · exact stored_token List.nil_prefix rfl hroom
      · exact Nat.le_succ _
    · obtain ⟨token, d, rest, hdrop, rfl, -, htoken', -⟩ := tokenIn_some htoken
      refine ⟨⟨_, tchar_toLower htext, hstored, ?_, RangeState.noConfusion,
        RangeState.noConfusion⟩, token, htoken', Or.inr ⟨⟨_, hdrop.symm⟩, rfl⟩⟩
      dsimp only
      omega
  | completed hstate =>
    obtain ⟨⟨name, hname, hkept⟩, value, hvalue, hvalueKept⟩ := h.completed hstate
    refine ⟨hinside, ?_, ?_, RangeState.noConfusion, RangeState.noConfusion⟩
    · rw [List.length_set, List.length_set]
      exact h.length
    · intro s hs
      rcases List.mem_or_eq_of_mem_set hs with hs | hs
      · rcases List.mem_or_eq_of_mem_set hs with hs | hs
        · exact hparams s hs
        · obtain rfl := Option.some.inj hs
          exact ⟨name, hname, hkept.goes hgoes'⟩
      · obtain rfl := Option.some.inj hs
        refine ⟨value, hvalue, ?_⟩
        rcases hvalueKept with hkept | ⟨hbegins, hdata⟩
        · exact hkept.goes hgoes'
        · exact ⟨stored_token hbegins hdata h.inside, Nat.le_of_eq hdata, RangeState.noConfusion,
            RangeState.noConfusion⟩

theorem paramTexts_some {params : List (Option ℕ)} {texts : List (CString × CString)}
    (h : paramTexts mem params = some texts) : 2 * texts.length ≤ params.length ∧
      ∀ v ∈ texts, ∃ s, some s ∈ params ∧ cString (mem.drop s) = some v.2 := by
  induction params using paramTexts.induct generalizing texts with
  | case1 name value params ih =>
    rw [paramTexts] at h
    obtain ⟨n, -, h⟩ := Option.bind_eq_some_iff.mp h
    obtain ⟨v, hv, h⟩ := Option.bind_eq_some_iff.mp h
    obtain ⟨texts, htexts, rfl⟩ := Option.map_eq_some_iff.mp h
    obtain ⟨hlength, hmem⟩ := ih htexts
    refine ⟨?_, List.forall_mem_cons.mpr ⟨⟨value, ?_, hv⟩, fun w hw => ?_⟩⟩
    · rw [List.length_cons, List.length_cons, List.length_cons]
      omega
    · exact List.mem_cons_of_mem _ List.mem_cons_self
    · obtain ⟨s, hs, htext⟩ := hmem w hw
      exact ⟨s, List.mem_cons_of_mem _ (List.mem_cons_of_mem _ hs), htext⟩
  | case2 params hpairs =>
    rw [paramTexts] at h
    · obtain rfl := Option.some.inj h
      exact ⟨Nat.zero_le _, fun v hv => absurd hv List.not_mem_nil⟩
    · exact hpairs

theorem getElem?_of_mediaRange {m : MediaType}
    (h : mediaRange mem data = some (.found m mem' next)) : ∃ c, mem[data]? = some c := by
  cases hc : mem[data]? with
  | some c => exact ⟨c, rfl⟩
  | none =>
    unfold mediaRange at h
    rw [hc] at h
    cases Option.some.inj h

/-- **Parameters are tokens**: whatever the header value, there are four at most in a media type,
and each value is made of token characters. -/
theorem mediaRange_params {m : MediaType} {texts : MediaText}
    (h : mediaRange mem data = some (.found m mem' next)) (htexts : m.text mem' = some texts) :
    texts.params.length ≤ 4 ∧ ∀ v ∈ texts.params, ∀ x ∈ v.2, tchar x := by
  obtain ⟨c, hc⟩ := getElem?_of_mediaRange h
  have hsound : RangeParser.Sound { mem := mem, c := c, data := data } := by
    refine ⟨(List.getElem?_eq_some_iff.mp hc).1, rfl, ?_, RangeState.noConfusion,
      RangeState.noConfusion⟩
    exact fun s hs => absurd (List.eq_of_mem_replicate hs) (Option.some_ne_none s)
  have hfound := ((mediaRange_iff hc).mp h).result RangeParser.Sound
    (fun r => ∀ m mem next, r = .found m mem next → m.param.length = 8 ∧
      ∀ s, some s ∈ m.param → ∃ text, (∀ x ∈ text, tchar x) ∧ StringAt mem s text)
    (fun _ _ hp hpass => hp.goes (.of_pass hpass))
    (by
      rintro p _ hp hpass m mem next rfl
      obtain ⟨hrests, rfl, -⟩ := RangeParser.found_of_pass hpass
      refine ⟨hp.length, fun s hs => ?_⟩
      obtain ⟨text, htext, hkept⟩ := hp.params s hs
      exact ⟨text, htext, hrests.stored hkept.stored hkept.behind⟩) hsound
  obtain ⟨hlength, hparams⟩ := hfound m mem' next rfl
  obtain ⟨type, -, htexts⟩ := Option.bind_eq_some_iff.mp htexts
  obtain ⟨sub, -, htexts⟩ := Option.bind_eq_some_iff.mp htexts
  obtain ⟨params, hread, rfl⟩ := Option.map_eq_some_iff.mp htexts
  obtain ⟨hpairs, hmem⟩ := paramTexts_some hread
  refine ⟨?_, fun v hv => ?_⟩
  · dsimp only
    omega
  · obtain ⟨s, hs, hv⟩ := hmem v hv
    obtain ⟨text, htext, hstored⟩ := hparams s hs
    rw [hstored.read fun x hx => (tchar_ne x (htext x hx)).1] at hv
    obtain rfl := Option.some.inj hv
    exact htext

end

end SeClient
