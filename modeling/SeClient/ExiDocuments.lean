import SeClient.ExiReading
import SeClient.FlagIsolation
import SeClient.MediaRanges
import SeClient.Reception

/-!
# EXI documents of a connection

`se_parse_init` and `parse_doc`, as `se_receive` calls them on the data of a body.  The parser of
EXI only reads, so that it is a `DocParser` as it stands; the one of XML writes into the data, and
is a parameter.

**Termination** (`ExiDocument.docLoop_isSome`): a pass of `parse_doc` reads a bit, leaves the stack
smaller, or comes nearer to the next event.
-/

namespace SeClient

/-! ## The cursor -/

namespace InBits
variable {p q : InBits} {sh : IntShift} {n : ℕ}

/-- The number of bits that are left. -/
def left (p : InBits) : ℕ := 8 * p.rest.length - p.bit

/-- The cursor has not moved back. -/
structure Onward (p q : InBits) : Prop where
  bit : q.bit < 8
  left : q.left ≤ p.left

theorem Onward.refl (hp : p.bit < 8) : Onward p p := ⟨hp, Nat.le_refl _⟩

theorem Onward.trans {r : InBits} (h : Onward p q) (h' : Onward q r) : Onward p r :=
  ⟨h'.bit, h'.left.trans h.left⟩

theorem Onward.truncate (hp : p.bit < 8) : Onward p p.truncate := ⟨hp, Nat.le_refl _⟩

/-- Bytes have been read, and the cursor is in front of another bit of the next one. -/
theorem Onward.drop {k bit : ℕ} (hbit : bit < 8) (h : p.bit ≤ 8 * k + bit) :
    Onward p { p with rest := p.rest.drop k, bit := bit } := by
  refine ⟨hbit, ?_⟩
  unfold InBits.left
  dsimp only
  rw [List.length_drop]
  omega

theorem drop_less {k bit : ℕ} (hlength : p.bit < 8 * p.rest.length) (h : p.bit < 8 * k + bit) :
    ({ p with rest := p.rest.drop k, bit := bit } : InBits).left < p.left := by
  unfold InBits.left
  dsimp only
  rw [List.length_drop]
  omega

theorem parseByte_onward (hp : p.bit < 8) : Onward p p.parseByte.2 := by
  unfold parseByte
  split_ifs
  · exact .truncate hp
  · exact .drop (k := 1) hp (by omega)
  · exact .truncate hp
  · exact .drop (k := 1) hp (by omega)

theorem parseBit_onward (hp : p.bit < 8) : Onward p p.parseBit.2 := by
  unfold parseBit
  dsimp only
  split_ifs with hlacks hlast
  · exact .truncate hp
  · exact .drop (Nat.zero_lt_succ 7) (by omega)
  · exact .drop (k := 0) (by omega) (by omega)

/-- A bit that is 1 has been read. -/
theorem parseBit_less (hp : p.bit < 8) (h : p.parseBit.1 ≠ 0) : p.parseBit.2.left < p.left := by
  unfold parseBit lacks at h ⊢
  dsimp only at h ⊢
  split_ifs at h ⊢ with hlacks hlast
  · exact absurd rfl h
  all_goals
    have hlength : ¬p.rest.length < 1 := fun hshort => hlacks (decide_eq_true hshort)
  · exact drop_less (by omega) (by omega)
  · exact drop_less (k := 0) (by omega) (by omega)

theorem parseBits_onward (hp : p.bit < 8) (n : ℕ) : Onward p (p.parseBits n).2 := by
  have hread : Onward p
      { p with rest := p.rest.drop ((p.bit + n) / 8), bit := (p.bit + n) % 8 } :=
    .drop (Nat.mod_lt _ (Nat.zero_lt_succ 7)) (by omega)
  unfold parseBits
  dsimp only
  split_ifs
  · exact .truncate hp
  · exact hread
  · exact .truncate hp
  · exact hread

/-- The bits of a number have been read, unless there are too few. -/
theorem parseBits_less (hn : 0 < n) (h : (p.parseBits n).2.truncated = false) :
    (p.parseBits n).2.left < p.left := by
  unfold parseBits lacks at h ⊢
  dsimp only at h ⊢
  split_ifs at h ⊢ with hbit hlacks hlacks
  · cases h
  · have hlength := mt decide_eq_true hlacks
    exact drop_less (by omega) (by omega)
  · cases h
  · have hlength := mt decide_eq_true hlacks
    exact drop_less (by omega) (by omega)

theorem parseUint_onward (sh : IntShift) (hp : p.bit < 8) : Onward p (p.parseUint sh).2 := by
  have hloop : ∀ fuel (p : InBits) x n, p.bit < 8 → Onward p (parseUintLoop sh fuel p x n).2 := by
    intro fuel
    induction fuel with
    | zero => exact fun p x n hp => .refl hp
    | succ fuel ih =>
      intro p x n hp
      have hbyte := parseByte_onward hp
      rw [parseUintLoop]
      dsimp only
      split_ifs
      · exact hbyte.trans (ih _ _ _ hbyte.bit)
      · exact hbyte
  exact hloop 10 p 0 0 hp

theorem parseInteger_onward (sh : IntShift) (hp : p.bit < 8) : Onward p (p.parseInteger sh).2 := by
  have hbit := parseBit_onward hp
  have huint := hbit.trans (parseUint_onward sh hbit.bit)
  unfold parseInteger
  dsimp only
  split_ifs
  · exact ⟨hp, Nat.le_refl _⟩
  · exact huint

theorem parseLiteral_onward {bytes : List UInt8} (hp : p.bit < 8)
    (h : p.parseLiteral sh n = some (bytes, q)) : Onward p q := by
  induction n generalizing p bytes q with
  | zero =>
    obtain ⟨-, rfl⟩ := Prod.mk.inj (Option.some.inj h)
    exact .refl hp
  | succ n ih =>
    have huint := parseUint_onward sh hp
    rw [parseLiteral] at h
    dsimp only at h
    split at h
    · cases h
    · obtain ⟨r, hr, heq⟩ := Option.map_eq_some_iff.mp h
      obtain ⟨-, rfl⟩ := Prod.mk.inj heq
      exact huint.trans (ih huint.bit hr)

theorem parseBytes_onward (hp : p.bit < 8) (m : ℕ) : Onward p (parseBytes m p).2 := by
  induction m generalizing p with
  | zero => exact .refl hp
  | succ m ih =>
    have hbyte := parseByte_onward hp
    rw [parseBytes]
    exact hbyte.trans (ih hbyte.bit)

theorem parseBinary_onward (hp : p.bit < 8) (n : ℕ) : Onward p (p.parseBinary sh n).rest := by
  have huint := parseUint_onward sh hp
  have hshort := huint.trans (.truncate huint.bit)
  have hread := huint.trans (parseBytes_onward huint.bit (p.parseUint sh).1.toNat)
  unfold parseBinary
  dsimp only
  split_ifs
  · exact huint
  · exact huint
  · exact hshort
  · exact hread
  · exact hshort
  · exact hread

end InBits

namespace ExiInput
open InBits
variable {p : ExiInput} {sh : IntShift} {name n : ℕ}

theorem parseCompactId_onward (hp : p.input.bit < 8) (t : Option StringTable) (n : ℕ) :
    Onward p.input (p.parseCompactId t n).2.input := by
  unfold parseCompactId
  cases t with
  | none => exact .refl hp
  | some t =>
    dsimp only
    have hbits := parseBits_onward hp (bitCount (t.strings.length - 1))
    split_ifs
    · exact .refl hp
    · exact hbits
    · unfold lookup
      split
      · exact hbits
      · split_ifs
        · exact hbits
        · exact hbits

theorem parseLiteralValue_onward {m : ℕ} {start : InBits} {s : Option CString} {q : ExiInput}
    (hp : Onward start p.input) (hstart : start.bit < 8)
    (h : p.parseLiteralValue sh start name n m = some (s, q)) : Onward start q.input := by
  unfold parseLiteralValue at h
  cases hm : p.input.exiUtf8Length 0 m with
  | truncated =>
    rw [hm] at h
    obtain ⟨-, rfl⟩ := Prod.mk.inj (Option.some.inj h)
    exact .truncate hstart
  | invalid =>
    rw [hm] at h
    obtain rfl := congrArg Prod.snd (Option.some.inj h)
    exact .refl hstart
  | done m =>
    rw [hm] at h
    dsimp only at h
    by_cases hroom : n ≠ 0 ∧ m ≥ n
    · rw [if_pos hroom] at h
      obtain rfl := congrArg Prod.snd (Option.some.inj h)
      exact hp
    · rw [if_neg hroom] at h
      cases hliteral : p.input.parseLiteral sh m with
      | none =>
        rw [hliteral] at h
        cases h
      | some r =>
        rw [hliteral] at h
        dsimp only at h
        by_cases hlong : (if n ≠ 0 then n else m + 1) ≤ r.1.length
        · rw [if_pos hlong] at h
          cases h
        · rw [if_neg hlong] at h
          obtain ⟨-, rfl⟩ := Prod.mk.inj (Option.some.inj h)
          exact hp.trans (parseLiteral_onward hp.bit hliteral)

/-- A string that its container holds. -/
theorem exiParseString_onward {s : Option CString} {q : ExiInput} (hp : p.input.bit < 8)
    (h : p.exiParseString sh name n = some (s, q)) : Onward p.input q.input := by
  have huint := parseUint_onward sh hp
  have hcompact : ∀ t, Onward p.input
      (({ p with input := (p.input.parseUint sh).2 } : ExiInput).parseCompactId t n).2.input :=
    fun t => huint.trans (parseCompactId_onward
      (p := { p with input := (p.input.parseUint sh).2 }) huint.bit t n)
  unfold exiParseString at h
  dsimp only at h
  by_cases htruncated : (p.input.parseUint sh).2.truncated = true
  · rw [if_pos htruncated] at h
    obtain ⟨-, rfl⟩ := Prod.mk.inj (Option.some.inj h)
    exact huint
  · rw [if_neg htruncated] at h
    split at h
    · obtain rfl := congrArg Prod.snd (Option.some.inj h)
      exact hcompact _
    · obtain rfl := congrArg Prod.snd (Option.some.inj h)
      exact hcompact _
    · exact parseLiteralValue_onward (p := { p with input := (p.input.parseUint sh).2 }) huint hp h

theorem storeString_onward (sh : IntShift) (name : ℕ) (hp : p.input.bit < 8) (n : ℕ) :
    Onward p.input (p.storeString sh name n).rest.input := by
  have huint := parseUint_onward sh hp
  unfold storeString
  split
  · unfold overrun
    dsimp only
    split
    · exact .refl hp
    · rename_i hliteral
      exact huint.trans (parseLiteral_onward huint.bit hliteral)
  · split
    · rename_i s q hstring
      have hread := exiParseString_onward (p := { p with invalid := false }) hp hstring
      exact ⟨hread.bit, hread.left⟩
    · exact .refl hp

/-- What the header leaves, where it is not `lost`. -/
theorem exiParseHeader_onward (sh : IntShift) (lost : ExiInput → ExiRead ExiInput)
    (hlost : ∀ p, (lost p).rest = p) (schemaId : CString) (hp : p.input.bit < 8) :
    Onward p.input (p.exiParseHeader sh lost schemaId).rest.input := by
  unfold exiParseHeader
  dsimp only
  have hmarked : Onward p.input (if p.input.rest.take 4 = [36, 69, 88, 73] then
      { p.input with rest := p.input.rest.drop 4 } else p.input) := by
    split_ifs
    · exact .drop (k := 4) hp (by omega)
    · exact .refl hp
  generalize (if p.input.rest.take 4 = [36, 69, 88, 73] then
      { p.input with rest := p.input.rest.drop 4 } else p.input) = input at hmarked ⊢
  have hversion := hmarked.trans (.drop (k := 1) hmarked.bit (by omega))
  generalize ({ input with rest := input.rest.drop 1 } : InBits) = options at hversion ⊢
  have hbits := hversion.trans (parseBits_onward hversion.bit 6)
  have huint := hbits.trans (parseUint_onward sh hbits.bit)
  split_ifs
  · exact ⟨hmarked.bit, hmarked.left⟩
  · rw [hlost]
    exact huint
  · split
    · rw [hlost]
      exact huint
    · rename_i hliteral
      have hliteral := huint.trans (parseLiteral_onward huint.bit hliteral)
      split_ifs
      · rw [hlost]
        exact hliteral
      · exact hliteral.trans (parseBit_onward hliteral.bit)
      · exact hliteral
  · exact huint
  · exact hversion

end ExiInput

theorem exiValue_onward (S : Schema) (sh : IntShift) (lost : ExiInput → ExiRead ExiInput) (i : ℕ)
    {p : ExiInput} (hp : p.input.bit < 8) :
    p.input.Onward (exiValue S (exiBits S sh lost) i p).rest.input := by
  have hstring := ExiInput.storeString_onward sh (S.seName i) hp
  have hinteger := InBits.parseInteger_onward sh hp
  have huint := InBits.parseUint_onward sh hp
  have hbyte := InBits.parseBits_onward hp 8
  unfold exiValue
  dsimp only
  cases (S.element i).xsType with
  | string => exact hstring _
  | boolean => exact InBits.parseBit_onward hp
  | hexBinary => exact InBits.parseBinary_onward hp _
  | anyURI => exact hstring 0
  | long => exact hinteger
  | int => exact hinteger
  | short => exact hinteger
  | byte => exact hbyte
  | ulong => exact huint
  | uint => exact huint
  | ushort => exact huint
  | ubyte => exact hbyte
  | null => exact .refl hp

/-! ## A pass -/

/-- `exi_parse_header` writes beyond its `schemaId`: no other return has both results. -/
def ExiInput.overlong (sh : IntShift) (p : ExiInput) : Bool :=
  let r := p.exiParseHeader sh (fun p => { ok := true, invalid := true, rest := p }) []
  r.ok && r.invalid

/-- A header that is not overlong is read whatever an overlong one does. -/
theorem exiParseHeader_congr {sh : IntShift} {p : ExiInput} (h : p.overlong sh = false)
    (lost lost' : ExiInput → ExiRead ExiInput) (schemaId : CString) :
    p.exiParseHeader sh lost schemaId = p.exiParseHeader sh lost' schemaId := by
  unfold ExiInput.overlong ExiInput.exiParseHeader at h
  unfold ExiInput.exiParseHeader
  dsimp only at h ⊢
  generalize (if p.input.rest.take 4 = [36, 69, 88, 73] then
      { p.input with rest := p.input.rest.drop 4 } else p.input) = input at h ⊢
  by_cases hshort : input.lacks 5 = true
  · simp only [if_pos hshort]
  simp only [if_neg hshort] at h ⊢
  by_cases hversion : input.byte 0 = 0xa0
  swap
  · simp only [if_neg hversion]
  simp only [if_pos hversion] at h ⊢
  generalize (({ input with rest := input.rest.drop 1 } : InBits).parseBits 6).2 = options at h ⊢
  generalize (options.parseUint sh).1.toNat % 2 ^ 32 = n at h ⊢
  -- The parameter is met only behind a length that makes the header overlong.
  by_cases hlong : n = 1 ∨ n ≥ 2 ^ 31
  · rw [if_pos hlong] at h
    cases h
  simp only [if_neg hlong] at h ⊢
  by_cases hsmall : n ≠ 0 ∧ n < 64
  swap
  · simp only [if_neg hsmall]
  simp only [if_pos hsmall] at h ⊢
  cases hliteral : (options.parseUint sh).2.parseLiteral sh (n - 2) with
  | none =>
    rw [hliteral] at h
    cases h
  | some r =>
    rw [hliteral] at h
    dsimp only at h ⊢
    by_cases hfull : r.1.length ≥ 64
    · rw [if_pos hfull] at h
      cases h
    · rw [if_neg hfull, if_neg hfull]

/-- What the parser of EXI reads from, where no header is overlong. -/
def exiData (S : Schema) (sh : IntShift) : ExiSource ExiInput :=
  exiSource S (exiBits S sh fun p => { ok := false, rest := p })

/-- The driver of `exi_parse_init`. -/
def exiDriver (S : Schema) (sh : IntShift) : ParserDriver (ExiParser ExiInput) :=
  exiParser S (exiData S sh)

/-- Only the first call of the driver reads the header. -/
theorem exiParser_header {ρ : Type} {S : Schema} (k : ExiBits ρ) (header : ρ → ExiRead ρ) :
    exiParser S (exiSource S { k with header := header }) =
      { exiParser S (exiSource S k) with
        parseStart := exiParseStart S { exiSource S k with header := header } } := rfl

/-- The weight of a state, for the passes up to the next event. -/
def ParserState.weight : ParserState → ℕ
  | .parseStart => 8
  | .parseElement => 7
  | .parseAttribute => 4
  | .parseNext | .parseValue => 3
  | .parseEnd => 2
  | .parseSequence | .sequenceEnd => 1
  | .parseInvalid | .beyond => 0

/-- The cursor of a front. -/
def Front.cursor (f : Front (ExiParser ExiInput)) : InBits := f.input.source.input

/-- A token that has not been taken yet. -/
def Front.pending (f : Front (ExiParser ExiInput)) : ℕ := if f.input.needToken then 0 else 5

namespace Parser
variable {S : Schema} {sh : IntShift} {p q : Parser (ExiParser ExiInput)}

/-- What is left of a document: an event is followed by six passes at most, without those that take
an element from the stack or a token that is there already. -/
def weight (p : Parser (ExiParser ExiInput)) : ℕ :=
  6 * p.cursor.left + 3 * p.stack.length + p.pending + p.state.weight

/-- The parser has a case for the state, and the cursor is in a byte. -/
structure InExi (p : Parser (ExiParser ExiInput)) : Prop where
  state : p.state ≠ .beyond
  bit : p.cursor.bit < 8

/-- A pass of EXI keeps the parser in order, and there is less left where it goes on. -/
def Fair (p : Parser (ExiParser ExiInput)) : ParseStep (ExiParser ExiInput) → Prop
  | .go q => q.InExi ∧ q.weight < p.weight
  | .stop q => q.InExi
  | .done q _ _ => q.InExi

end Parser

section Drivers
variable (S : Schema) (sh : IntShift) {f : Front (ExiParser ExiInput)} {n : ℕ}
open InBits

/-- An event has been read, or the cursor has not moved back. -/
theorem exiEvent_onward (hf : f.cursor.bit < 8) (n : ℕ) :
    f.cursor.Onward (exiEvent (exiData S sh) n f).2.cursor := by
  have hbits := parseBits_onward hf (bitCount n)
  unfold exiEvent
  dsimp only
  split_ifs
  · exact hbits
  · exact hbits
  · exact hbits

theorem exiEvent_state (hf : f.state ≠ .beyond) :
    (exiEvent (exiData S sh) n f).2.state ≠ .beyond := by
  unfold exiEvent
  dsimp only
  split_ifs
  · exact hf
  · exact ParserState.noConfusion
  · exact hf

theorem exiEvent_ok (h : (exiEvent (exiData S sh) n f).1 = true) :
    (exiEvent (exiData S sh) n f).2.cursor.left < f.cursor.left ∧
      (exiEvent (exiData S sh) n f).2.state = f.state ∧
      (exiEvent (exiData S sh) n f).2.pending = f.pending := by
  unfold exiEvent at h ⊢
  dsimp only at h ⊢
  split_ifs at h ⊢ with htruncated htoken
  have hn : 0 < n := by omega
  have hcount : 0 < bitCount n := by
    unfold bitCount
    rw [if_neg (Nat.pos_iff_ne_zero.mp hn)]
    exact Nat.succ_pos _
  exact ⟨parseBits_less hcount (Bool.eq_false_of_not_eq_true htruncated), rfl, rfl⟩

/-- What a reading function leaves in place of the state. -/
theorem exiRead_known {r : ExiRead ExiInput} (hstate : f.state ≠ .beyond) :
    (r.front f).state ≠ .beyond := by
  unfold ExiRead.front
  dsimp only
  split_ifs
  · exact ParserState.noConfusion
  · exact hstate

theorem exiParseStart_fair (hf : f.cursor.bit < 8) (hstate : f.state ≠ .beyond) :
    f.cursor.Onward (exiParseStart S (exiData S sh) f).2.cursor ∧
      (exiParseStart S (exiData S sh) f).2.state ≠ .beyond ∧
      ((exiParseStart S (exiData S sh) f).1 = true →
        (exiParseStart S (exiData S sh) f).2.pending = 0) := by
  have hheader := ExiInput.exiParseHeader_onward sh
    (fun p => { ok := false, rest := p }) (fun _ => rfl) S.schemaId hf
  have htype := hheader.trans (parseBits_onward hheader.bit (bitCount S.length))
  unfold exiParseStart
  dsimp only
  split_ifs
  · exact ⟨htype, exiRead_known hstate, fun _ => rfl⟩
  · exact ⟨htype, ParserState.noConfusion, False.elim⟩
  · exact ⟨hheader, exiRead_known hstate, False.elim⟩

/-- An event that is not one of the element. -/
theorem exiEvent_stops (h : (exiEvent (exiData S sh) n f).2.state ≠ f.state) :
    (exiEvent (exiData S sh) n f).2.state = .parseInvalid ∧
      (exiEvent (exiData S sh) n f).2.pending = f.pending := by
  unfold exiEvent at h ⊢
  dsimp only at h ⊢
  split_ifs at h ⊢
  · exact absurd rfl h
  · exact ⟨rfl, rfl⟩
  · exact absurd rfl h

/-- A token leads to an element, or to the end of one with another token. -/
theorem takeToken_fair (f : Front (ExiParser ExiInput)) :
    (takeToken S f).cursor = f.cursor ∧ (takeToken S f).state ≠ .beyond ∧
      (takeToken S f).pending + (takeToken S f).state.weight ≤ 7 := by
  refine ⟨rfl, ?_⟩
  unfold takeToken Front.pending
  by_cases hmore : (S.element (f.se + f.input.token)).n ≠ 0
  · simp [hmore, ParserState.weight]
  · simp [hmore, ParserState.weight]

theorem exiParseNext_fair (hf : f.cursor.bit < 8) (hstate : f.state = .parseNext)
    (stack : List StackItem) :
    f.cursor.Onward (exiParseNext S (exiData S sh) stack f).2.cursor ∧
      (exiParseNext S (exiData S sh) stack f).2.state ≠ .beyond ∧
      ((exiParseNext S (exiData S sh) stack f).1 = true →
        6 * (exiParseNext S (exiData S sh) stack f).2.cursor.left +
          (exiParseNext S (exiData S sh) stack f).2.pending +
          (exiParseNext S (exiData S sh) stack f).2.state.weight <
            6 * f.cursor.left + f.pending + 3) := by
  have hknown : f.state ≠ .beyond := hstate ▸ ParserState.noConfusion
  unfold exiParseNext
  dsimp only
  by_cases hn : (S.element f.se).n ≠ 0
  · rw [if_pos hn]
    by_cases htoken : f.input.needToken = true
    · rw [if_pos htoken]
      generalize (if (S.element f.se).min ≠ 0 then 1 else (S.element f.se).n) = n
      have hevent := exiEvent_onward S sh hf n
      by_cases hok : (exiEvent (exiData S sh) n f).1 = true
      · obtain ⟨hless, -, -⟩ := exiEvent_ok S sh hok
        obtain ⟨hcursor, htaken, hweight⟩ := takeToken_fair S (exiEvent (exiData S sh) n f).2
        rw [if_pos hok, hcursor]
        refine ⟨hevent, htaken, fun _ => ?_⟩
        dsimp only
        omega
      · rw [if_neg hok]
        exact ⟨hevent, exiEvent_state S sh hknown, fun h => absurd h Bool.false_ne_true⟩
    · obtain ⟨hcursor, htaken, hweight⟩ := takeToken_fair S f
      have hpending : f.pending = 5 := if_neg htoken
      rw [if_neg htoken, hcursor]
      refine ⟨.refl hf, htaken, fun _ => ?_⟩
      dsimp only
      omega
  · rw [if_neg hn]
    refine ⟨.refl hf, ParserState.noConfusion, fun _ => ?_⟩
    show 6 * f.cursor.left + f.pending + 2 < _ + 3
    omega

/-- An occurrence is next, or the end of the sequence leaves a token. -/
theorem exiParseSequence_fair (hf : f.cursor.bit < 8) (hstate : f.state = .parseSequence)
    (t : StackItem) :
    f.cursor.Onward (exiParseSequence S (exiData S sh) t f).2.cursor ∧
      (exiParseSequence S (exiData S sh) t f).2.state ≠ .beyond ∧
      ((exiParseSequence S (exiData S sh) t f).1 = true →
        (exiParseSequence S (exiData S sh) t f).2.cursor.left < f.cursor.left ∧
          (exiParseSequence S (exiData S sh) t f).2.pending = f.pending) ∧
      ((exiParseSequence S (exiData S sh) t f).2.state ≠ .parseSequence →
        6 * (exiParseSequence S (exiData S sh) t f).2.cursor.left +
          (exiParseSequence S (exiData S sh) t f).2.pending +
          (exiParseSequence S (exiData S sh) t f).2.state.weight <
            6 * f.cursor.left + f.pending + 1) := by
  have hknown : f.state ≠ .beyond := hstate ▸ ParserState.noConfusion
  unfold exiParseSequence
  dsimp only
  generalize (if t.count ≥ (S.element t.se).min then (S.element t.se).n else 1) = n
  have hevent := exiEvent_onward S sh hf n
  by_cases hok : (exiEvent (exiData S sh) n f).1 = true
  · obtain ⟨hless, hsame, hpending⟩ := exiEvent_ok S sh hok
    rw [if_pos hok]
    split_ifs
    · refine ⟨hevent, ParserState.noConfusion, False.elim, fun _ => ?_⟩
      -- A bit of the event pays for the token that the end leaves.
      show 6 * (exiEvent (exiData S sh) n f).2.cursor.left + 5 + 1 < _
      omega
    · exact ⟨hevent, exiEvent_state S sh hknown, fun _ => ⟨hless, hpending⟩,
        fun h => absurd (hsame.trans hstate) h⟩
  · rw [if_neg hok]
    refine ⟨hevent, exiEvent_state S sh hknown, fun h => absurd h Bool.false_ne_true, fun h => ?_⟩
    obtain ⟨hinvalid, hpending⟩ := exiEvent_stops S sh (fun hsame => h (hsame.trans hstate))
    rw [hinvalid, hpending]
    have hleft := hevent.left
    show 6 * (exiEvent (exiData S sh) n f).2.cursor.left + f.pending + 0 < _
    omega

/-- A value is read, or its element ends behind a bit. -/
theorem exiParseSimple_fair (hf : f.cursor.bit < 8) (hstate : f.state ≠ .beyond) :
    f.cursor.Onward (exiParseSimple (exiData S sh) f).2.2.cursor ∧
      (exiParseSimple (exiData S sh) f).2.2.state ≠ .beyond ∧
      6 * (exiParseSimple (exiData S sh) f).2.2.cursor.left +
        (exiParseSimple (exiData S sh) f).2.2.pending ≤ 6 * f.cursor.left + f.pending := by
  have hbit := parseBit_onward hf
  have hcode := hbit.trans (parseBits_onward hbit.bit 3)
  by_cases hend : f.cursor.parseBit.1 ≠ 0
  -- The bit of the end pays for its token.
  · have hless := parseBit_less hf hend
    have hleft := (parseBits_onward hbit.bit 3).left
    have hpending : ∀ f : Front (ExiParser ExiInput), f.pending ≤ 5 := by
      intro f
      unfold Front.pending
      split_ifs <;> omega
    have hsimple : (exiParseSimple (exiData S sh) f).2.2.cursor =
        (f.cursor.parseBit.2.parseBits 3).2 ∧
          (exiParseSimple (exiData S sh) f).2.2.state ≠ .beyond := by
      unfold exiParseSimple
      dsimp only
      rw [if_pos (show ((exiData S sh).bit f.input.source).1 ≠ 0 from hend)]
      split_ifs
      · exact ⟨rfl, ParserState.noConfusion⟩
      · exact ⟨rfl, hstate⟩
    have hlast := hpending (exiParseSimple (exiData S sh) f).2.2
    rw [hsimple.1]
    exact ⟨hcode, hsimple.2, by omega⟩
  · have hvalue := hbit.trans (exiValue_onward S sh (fun p => { ok := false, rest := p }) f.se
      (p := { f.input.source with input := f.cursor.parseBit.2 }) hbit.bit)
    unfold exiParseSimple
    dsimp only
    rw [if_neg (show ¬((exiData S sh).bit f.input.source).1 ≠ 0 from hend)]
    exact ⟨hvalue, exiRead_known hstate,
      Nat.add_le_add_right (Nat.mul_le_mul_left 6 hvalue.left) _⟩

/-- The end of an element is read, or has been read with its value. -/
theorem exiParseEnd_fair (hf : f.cursor.bit < 8) (hstate : f.state ≠ .beyond) (i : ℕ) :
    f.cursor.Onward (exiParseEnd (exiData S sh) i f).2.cursor ∧
      (exiParseEnd (exiData S sh) i f).2.state ≠ .beyond ∧
      (exiParseEnd (exiData S sh) i f).2.pending ≤ f.pending := by
  have hbit := parseBit_onward hf
  unfold exiParseEnd
  split_ifs with htoken
  · dsimp only
    split_ifs
    · exact ⟨hbit, ParserState.noConfusion, Nat.le_refl _⟩
    · exact ⟨hbit, hstate, Nat.le_refl _⟩
  · exact ⟨.refl hf, hstate, Nat.zero_le _⟩

end Drivers

namespace Parser
variable {S : Schema} {sh : IntShift} {p q : Parser (ExiParser ExiInput)}

theorem weight_eq {state : ParserState} (h : p.state = state) :
    p.weight = 6 * p.cursor.left + 3 * p.stack.length + p.pending + state.weight := by
  rw [← h]
  rfl

/-- An occurrence of an element is a value, or its first event is next. -/
theorem parseElement_fair (p : Parser (ExiParser ExiInput)) (se : ℕ) :
    (parseElement S p se).state ≠ .beyond ∧ (parseElement S p se).cursor = p.cursor ∧
      (parseElement S p se).weight =
        6 * p.cursor.left + 3 * p.stack.length + p.pending + 3 := by
  unfold parseElement
  split_ifs
  · exact ⟨ParserState.noConfusion, rfl, rfl⟩
  · exact ⟨ParserState.noConfusion, rfl, rfl⟩

theorem stepElement_fair (hp : p.InExi) (hstate : p.state = .parseElement) :
    p.Fair (stepElement S p) := by
  have hweight : p.weight = 6 * p.cursor.left + 3 * p.stack.length + p.pending + 7 :=
    weight_eq hstate
  -- The attributes of the element are next, or it takes 3 of the 7 to the stack with it.
  have hattribute : ∀ q : Parser (ExiParser ExiInput), q.state = .parseAttribute →
      q.cursor = p.cursor → q.stack = p.stack → q.pending = p.pending → p.Fair (.go q) := by
    intro q hq hcursor hstack hpending
    refine ⟨⟨hq ▸ ParserState.noConfusion, (congrArg InBits.bit hcursor).trans_lt hp.bit⟩, ?_⟩
    have hsmall : q.state.weight = 4 := congrArg ParserState.weight hq
    rw [hweight]
    unfold weight
    rw [hcursor, hstack, hpending, hsmall]
    omega
  have hpushed : ∀ (q : Parser (ExiParser ExiInput)) (t : StackItem), q.cursor = p.cursor →
      q.stack = t :: p.stack → q.pending = p.pending →
      p.Fair (.go (parseElement S q p.se)) := by
    intro q t hcursor hstack hpending
    obtain ⟨hknown, hsame, hless⟩ := parseElement_fair (S := S) q p.se
    refine ⟨⟨hknown, ?_⟩, ?_⟩
    · rw [hsame, hcursor]
      exact hp.bit
    · rw [hless, hweight, hcursor, hstack, hpending, List.length_cons]
      omega
  unfold stepElement
  dsimp only
  split_ifs
  · exact hattribute _ rfl rfl rfl rfl
  · exact hattribute _ rfl rfl rfl rfl
  · exact ⟨ParserState.noConfusion, hp.bit⟩
  all_goals exact hpushed _ _ rfl rfl rfl

theorem stepSequence_fair {t : StackItem} (hq : p.cursor.Onward q.cursor)
    (hless : q.cursor.left < p.cursor.left) (hstack : q.stack = p.stack)
    (hpending : q.pending = p.pending) : p.Fair (stepSequence S q t) := by
  have hgoes : ∀ r : Parser (ExiParser ExiInput), r.cursor = q.cursor → r.stack = q.stack →
      r.pending = q.pending → p.Fair (.go (parseElement S r t.se)) := by
    intro r hcursor hstack' hpending'
    obtain ⟨hknown, hsame, hweight⟩ := parseElement_fair (S := S) r t.se
    refine ⟨⟨hknown, ?_⟩, ?_⟩
    · rw [hsame, hcursor]
      exact hq.bit
    · rw [hweight, hcursor, hstack', hpending', hstack, hpending]
      unfold weight
      omega
  unfold stepSequence
  dsimp only
  split_ifs
  · exact hgoes _ rfl rfl rfl
  · exact hgoes _ rfl rfl rfl
  · exact ⟨ParserState.noConfusion, hq.bit⟩

theorem start_fair (hp : p.InExi) (hstate : p.state = .parseStart) :
    p.Fair (p.step S (exiDriver S sh)) := by
  obtain ⟨honward, hknown, hpending⟩ := exiParseStart_fair S sh hp.bit hp.state
  have hless := honward.left
  unfold step
  rw [hstate]
  dsimp only
  by_cases hok : (exiParseStart S (exiData S sh) p.toFront).1 = true
  · have hzero := hpending hok
    rw [if_pos (show ((exiDriver S sh).parseStart p.toFront).1 = true from hok)]
    refine ⟨⟨ParserState.noConfusion, honward.bit⟩, ?_⟩
    rw [weight_eq hstate]
    show 6 * (exiParseStart S (exiData S sh) p.toFront).2.cursor.left + 0 +
      (exiParseStart S (exiData S sh) p.toFront).2.pending + 7 < _ + 8
    omega
  · rw [if_neg (show ¬((exiDriver S sh).parseStart p.toFront).1 = true from hok)]
    exact ⟨hknown, honward.bit⟩

theorem next_fair (hp : p.InExi) (hstate : p.state = .parseNext) :
    p.Fair (p.step S (exiDriver S sh)) := by
  obtain ⟨honward, hknown, hless⟩ :=
    exiParseNext_fair S sh hp.bit hstate p.stack
  unfold step
  rw [hstate]
  dsimp only
  by_cases hok : (exiParseNext S (exiData S sh) p.stack p.toFront).1 = true
  · have hless := hless hok
    rw [if_pos (show ((exiDriver S sh).parseNext p.stack p.toFront).1 = true from hok)]
    refine ⟨⟨hknown, honward.bit⟩, ?_⟩
    rw [weight_eq hstate]
    show 6 * (exiParseNext S (exiData S sh) p.stack p.toFront).2.cursor.left +
      3 * p.stack.length + (exiParseNext S (exiData S sh) p.stack p.toFront).2.pending +
      (exiParseNext S (exiData S sh) p.stack p.toFront).2.state.weight < _ + 3
    omega
  · rw [if_neg (show ¬((exiDriver S sh).parseNext p.stack p.toFront).1 = true from hok)]
    exact ⟨hknown, honward.bit⟩

theorem attribute_fair (hp : p.InExi) (hstate : p.state = .parseAttribute) :
    p.Fair (p.step S (exiDriver S sh)) := by
  have honward : p.cursor.Onward (exiValue S (exiBits S sh fun p => { ok := false, rest := p })
      p.se p.input.source).rest.input := exiValue_onward S sh _ p.se hp.bit
  have hless := honward.left
  unfold step
  rw [hstate]
  dsimp only
  split_ifs
  · refine ⟨⟨ParserState.noConfusion, honward.bit⟩, ?_⟩
    rw [weight_eq hstate]
    show 6 * (exiValue S (exiBits S sh fun p => { ok := false, rest := p }) p.se
      p.input.source).rest.input.left + 3 * p.stack.length + p.pending + 3 < _ + 4
    omega
  · exact ⟨exiRead_known hp.state, honward.bit⟩

theorem value_fair (hp : p.InExi) (hstate : p.state = .parseValue) :
    p.Fair (p.step S (exiDriver S sh)) := by
  obtain ⟨honward, hknown, hless⟩ := exiParseSimple_fair S sh hp.bit hp.state
  unfold step
  rw [hstate]
  dsimp only
  split_ifs
  · refine ⟨⟨ParserState.noConfusion, honward.bit⟩, ?_⟩
    rw [weight_eq hstate]
    show 6 * (exiParseSimple (exiData S sh) p.toFront).2.2.cursor.left + 3 * p.stack.length +
      (exiParseSimple (exiData S sh) p.toFront).2.2.pending + 2 < _ + 3
    omega
  · exact ⟨hknown, honward.bit⟩

theorem end_fair (hp : p.InExi) (hstate : p.state = .parseEnd) :
    p.Fair (p.step S (exiDriver S sh)) := by
  cases hstack : p.stack with
  | nil =>
    unfold step
    rw [hstate]
    dsimp only
    rw [hstack]
    exact ⟨ParserState.noConfusion, hp.bit⟩
  | cons t stack =>
    obtain ⟨honward, hknown, hpending⟩ := exiParseEnd_fair S sh hp.bit hp.state t.se
    have hless := honward.left
    unfold step
    rw [hstate]
    dsimp only
    rw [hstack]
    dsimp only
    by_cases hok : (exiParseEnd (exiData S sh) t.se p.toFront).1 = true
    · rw [if_pos (show ((exiDriver S sh).parseEnd t.se p.toFront).1 = true from hok)]
      -- The element stays on the stack, at its next occurrence or at its end.
      have hgoes : ∀ q : Parser (ExiParser ExiInput), q.state.weight = 1 →
          q.cursor = (exiParseEnd (exiData S sh) t.se p.toFront).2.cursor →
          q.pending = (exiParseEnd (exiData S sh) t.se p.toFront).2.pending →
          q.stack.length = p.stack.length → q.weight < p.weight := by
        intro q hstate' hcursor hpending' hlength
        rw [weight_eq hstate]
        unfold weight
        rw [hstate', hcursor, hpending', hlength]
        show _ < 6 * p.cursor.left + 3 * p.stack.length + p.pending + 2
        omega
      by_cases hmore : (S.element t.se).unbounded = true ∨ t.count + 1 < (S.element t.se).max
      · rw [if_pos hmore]
        exact ⟨⟨ParserState.noConfusion, honward.bit⟩,
          hgoes _ rfl rfl rfl (congrArg List.length hstack).symm⟩
      · rw [if_neg hmore]
        exact ⟨⟨ParserState.noConfusion, honward.bit⟩,
          hgoes _ rfl rfl rfl (congrArg List.length hstack).symm⟩
    · rw [if_neg (show ¬((exiDriver S sh).parseEnd t.se p.toFront).1 = true from hok)]
      exact ⟨hknown, honward.bit⟩

theorem sequence_fair (hp : p.InExi) (hstate : p.state = .parseSequence) :
    p.Fair (p.step S (exiDriver S sh)) := by
  cases hstack : p.stack with
  | nil =>
    have hstep : p.step S (exiDriver S sh) = .stop p := by
      unfold step
      rw [hstate]
      dsimp only
      rw [hstack]
    rw [hstep]
    exact hp
  | cons t stack =>
    obtain ⟨honward, hknown, hmore, hends⟩ :=
      exiParseSequence_fair S sh hp.bit hstate t
    unfold step
    rw [hstate]
    dsimp only
    rw [hstack]
    dsimp only
    by_cases hok : (exiParseSequence S (exiData S sh) t p.toFront).1 = true
    · rw [if_pos (show ((exiDriver S sh).parseSequence t p.toFront).1 = true from hok)]
      obtain ⟨hless, hpending⟩ := hmore hok
      exact stepSequence_fair honward hless rfl hpending
    · rw [if_neg (show ¬((exiDriver S sh).parseSequence t p.toFront).1 = true from hok)]
      -- The function returns false where the data end, and where it has set the next state itself.
      by_cases hsame : (exiParseSequence S (exiData S sh) t p.toFront).2.state = .parseSequence
      · rw [if_pos (show (p.withFront ((exiDriver S sh).parseSequence t p.toFront).2).state =
          .parseSequence from hsame)]
        exact ⟨hknown, honward.bit⟩
      · rw [if_neg (show ¬(p.withFront ((exiDriver S sh).parseSequence t p.toFront).2).state =
          .parseSequence from hsame)]
        have hless := hends hsame
        refine ⟨⟨hknown, honward.bit⟩, ?_⟩
        rw [weight_eq hstate]
        show 6 * (exiParseSequence S (exiData S sh) t p.toFront).2.cursor.left +
          3 * p.stack.length + (exiParseSequence S (exiData S sh) t p.toFront).2.pending +
          (exiParseSequence S (exiData S sh) t p.toFront).2.state.weight < _ + 1
        omega

theorem sequenceEnd_fair (hp : p.InExi) (hstate : p.state = .sequenceEnd) :
    p.Fair (p.step S (exiDriver S sh)) := by
  cases hstack : p.stack with
  | nil =>
    have hstep : p.step S (exiDriver S sh) = .stop p := by
      unfold step
      rw [hstate]
      dsimp only
      rw [hstack]
    rw [hstep]
    exact hp
  | cons t stack =>
    have hlength : p.stack.length = stack.length + 1 := congrArg List.length hstack
    unfold step
    rw [hstate]
    dsimp only
    rw [hstack]
    refine ⟨⟨ParserState.noConfusion, hp.bit⟩, ?_⟩
    rw [weight_eq hstate, hlength]
    -- What is taken off the stack pays for the state behind it.
    show 6 * p.cursor.left + 3 * stack.length + p.pending + 3 < _ + 1
    omega

/-- Only the first pass calls `parse_start`. -/
theorem step_start {ρ : Type} {p : Parser ρ} {d : ParserDriver ρ}
    {parseStart : Front ρ → Bool × Front ρ}
    (h : p.state = .parseStart → parseStart p.toFront = d.parseStart p.toFront) :
    p.step S { d with parseStart := parseStart } = p.step S d := by
  unfold step
  cases hstate : p.state with
  | parseStart => simp only [h hstate]
  | _ => rfl

/-- **A pass of `parse_doc`** with the driver of EXI. -/
theorem step_fair (hp : p.InExi) : p.Fair (p.step S (exiDriver S sh)) := by
  cases hstate : p.state with
  | parseStart => exact start_fair hp hstate
  | parseElement =>
    have hstep : p.step S (exiDriver S sh) = stepElement S p := by
      unfold step
      rw [hstate]
    rw [hstep]
    exact stepElement_fair hp hstate
  | parseNext => exact next_fair hp hstate
  | parseAttribute => exact attribute_fair hp hstate
  | parseValue => exact value_fair hp hstate
  | parseEnd => exact end_fair hp hstate
  | parseSequence => exact sequence_fair hp hstate
  | sequenceEnd => exact sequenceEnd_fair hp hstate
  | parseInvalid =>
    have hstep : p.step S (exiDriver S sh) = .stop p := by
      unfold step
      rw [hstate]
    rw [hstep]
    exact hp
  | beyond => exact absurd hstate hp.state

end Parser

/-! ## Documents -/

/-- A parser of EXI between two calls. -/
structure ExiDocument where
  parser : Parser (ExiParser ExiInput)
  sound : parser.InExi

namespace ExiDocument
variable {S : Schema} {sh : IntShift} {p q : ExiDocument} {data : List UInt8}

/-- `exi_parse_init` -/
def exiParseInit (heap : Heap) : ExiDocument where
  parser :=
    { input := { source := ⟨⟨[], 0, false⟩, ⟨none, []⟩, [], false⟩ }
      heap := heap }
  sound := ⟨ParserState.noConfusion, Nat.zero_lt_succ 7⟩

/-- `exi_rebuffer` -/
def exiRebuffer (p : ExiDocument) (data : List UInt8) : ExiDocument where
  parser :=
    { p.parser with
      input :=
        { p.parser.input with
          source :=
            { p.parser.input.source with input := ⟨data, p.parser.cursor.bit, false⟩ } } }
  sound := ⟨p.sound.state, p.sound.bit⟩

/-- The header of the document is overlong. -/
def Overlong (sh : IntShift) (p : ExiDocument) : Prop :=
  p.parser.state = .parseStart ∧ p.parser.input.source.overlong sh = true

instance : Decidable (p.Overlong sh) := inferInstanceAs (Decidable (_ ∧ _))

/-- The driver is the one of `exiBits`, whatever an overlong header does. -/
theorem step_lost (h : ¬p.Overlong sh) (lost : ExiInput → ExiRead ExiInput) :
    p.parser.step S (exiParser S (exiSource S (exiBits S sh lost))) =
      p.parser.step S (exiDriver S sh) := by
  have hdriver : exiParser S (exiSource S (exiBits S sh lost)) =
      { exiDriver S sh with
        parseStart := exiParseStart S { exiData S sh with
          header := ExiInput.exiParseHeader sh lost S.schemaId } } :=
    exiParser_header (exiBits S sh fun p => { ok := false, rest := p })
      (ExiInput.exiParseHeader sh lost S.schemaId)
  rw [hdriver]
  refine Parser.step_start fun hstate => ?_
  have hheader := exiParseHeader_congr (p := p.parser.input.source)
    (Bool.eq_false_of_not_eq_true fun hlong => h ⟨hstate, hlong⟩) lost
    (fun p => { ok := false, rest := p }) S.schemaId
  -- Of the two drivers only `parse_start` differs, and of that only the header.
  show exiParseStart S _ p.parser.toFront = exiParseStart S (exiData S sh) p.parser.toFront
  unfold exiParseStart
  dsimp only
  rw [hheader]
  rfl

/-- A pass of the loop of `parse_doc`: on, or out of it with the object of a document. -/
def docPass (S : Schema) (sh : IntShift) (p : ExiDocument) :
    ExiDocument ⊕ (ExiDocument × Option (ℕ × Addr)) :=
  match h : p.parser.step S (exiDriver S sh) with
  | .go q => .inl ⟨q, (h ▸ Parser.step_fair p.sound : p.parser.Fair (.go q)).1⟩
  | .stop q => .inr (⟨q, (h ▸ Parser.step_fair p.sound : p.parser.Fair (.stop q))⟩, none)
  | .done q type obj =>
    .inr (⟨q, (h ▸ Parser.step_fair p.sound : p.parser.Fair (.done q type obj))⟩, some (type, obj))

/-- `parse_doc`, where it does not write beyond the `schemaId`. -/
def parseDoc (S : Schema) (sh : IntShift) (p : ExiDocument) :
    Option (ExiDocument × Option (ℕ × Addr)) :=
  if p.Overlong sh then none else Passes.loop (docPass S sh) (p.parser.weight + 1) p

/-- There is less left behind a pass. -/
theorem docPass_less (h : docPass S sh p = .inl q) : q.parser.weight < p.parser.weight := by
  unfold docPass at h
  split at h
  · rename_i r hstep
    obtain rfl := Sum.inl.inj h
    have hfair : p.parser.Fair (p.parser.step S (exiDriver S sh)) := Parser.step_fair p.sound
    rw [hstep] at hfair
    exact hfair.2
  · cases h
  · cases h

/-- **`parse_doc` returns** from a document of EXI, unless its header is overlong. -/
theorem parseDoc_isSome : (parseDoc S sh p).isSome = true ↔ ¬p.Overlong sh := by
  unfold parseDoc
  by_cases hoverlong : p.Overlong sh
  · rw [if_pos hoverlong]
    exact iff_of_false Bool.false_ne_true (not_not.mpr hoverlong)
  · obtain ⟨r, hr⟩ := Passes.exists_loop (fun p : ExiDocument => p.parser.weight)
      (fun _ _ => docPass_less) (Nat.lt_succ_self p.parser.weight)
    rw [if_neg hoverlong, hr]
    exact iff_of_true rfl hoverlong

end ExiDocument

/-- **Documents of EXI**, with the heap that the objects are allocated in. -/
def exiDocuments (S : Schema) (sh : IntShift) (heap : Heap) :
    DocParser ExiDocument (ℕ × Addr × Heap) where
  init := fun _ => some (.exiParseInit heap)
  parse p data := ((p.exiRebuffer data).parseDoc S sh).map fun r =>
    { parser := r.1
      data := data
      ptr := some (data.length - r.1.parser.cursor.rest.length)
      doc := r.2.map fun x => (x.1, x.2, r.1.parser.heap) }
  length_data := by
    intro p data r h
    obtain ⟨x, -, rfl⟩ := Option.map_eq_some_iff.mp h
    rfl

/-- The place of the type of a body among `se_ranges`, 3 without one. -/
def contentMedia (contentType : Option CString) : ℕ :=
  match contentType with
  | none => 3
  | some value =>
    match mediaRange (value ++ [0]) 0 with
    | some (.found m mem _) => ((seRange mem m.type).map Prod.fst).getD 3
    | _ => 3

/-- The parsers of `se_parse_init`: one of EXI, and one of XML. -/
def seDocuments {PX PE Obj : Type} (X : DocParser PX Obj) (E : DocParser PE Obj) :
    DocParser (PX ⊕ PE) Obj where
  init := fun contentType =>
    match contentMedia contentType with
    | 0 => (E.init contentType).map .inr
    | 1 | 2 => (X.init contentType).map .inl
    | _ => none
  parse p data :=
    match p with
    | .inl p => (X.parse p data).map fun r => ⟨.inl r.parser, r.data, r.ptr, r.doc⟩
    | .inr p => (E.parse p data).map fun r => ⟨.inr r.parser, r.data, r.ptr, r.doc⟩
  length_data := by
    intro p data r h
    cases p with
    | inl p =>
      obtain ⟨x, hx, rfl⟩ := Option.map_eq_some_iff.mp h
      exact X.length_data hx
    | inr p =>
      obtain ⟨x, hx, rfl⟩ := Option.map_eq_some_iff.mp h
      exact E.length_data hx

section Connections
variable {S : Schema} {sh : IntShift} {heap : Heap} {C T PX : Type}
  {X : DocParser PX (ℕ × Addr × Heap)} {offer : ℕ → ℕ} {closed : ℕ → Bool} {p : ExiDocument}
open SeConnection

/-- A call with a document of EXI leaves the data as they are, and `p->ptr` in them. -/
theorem exiDocuments_place {data : List UInt8} {r : ParseCall ExiDocument (ℕ × Addr × Heap)}
    (h : (exiDocuments S sh heap).parse p data = some r) :
    r.data = data ∧ r.place.isSome = true := by
  obtain ⟨x, -, rfl⟩ := Option.map_eq_some_iff.mp h
  refine ⟨rfl, ?_⟩
  unfold ParseCall.place
  rw [Option.filter_some, if_pos (decide_eq_true (Nat.sub_le _ _))]
  rfl

/-- **A pass does not stray** from a document of EXI, unless its header is overlong. -/
theorem exi_keeps_iff {s : SeConnection C T (PX ⊕ ExiDocument)} :
    Keeps (seDocuments X (exiDocuments S sh heap)) offer closed (s, .inr p) ↔
      ∀ h data, s.http.httpData offer closed = (h, some data) →
        ¬(p.exiRebuffer data).Overlong sh := by
  have hreturns : ∀ data, ((exiDocuments S sh heap).parse p data).isSome = true ↔
      ¬(p.exiRebuffer data).Overlong sh := fun data =>
    Option.isSome_map.symm ▸ ExiDocument.parseDoc_isSome
  constructor
  · intro hkeeps h data hdata
    obtain ⟨r, hr, -⟩ := hkeeps h data hdata
    obtain ⟨x, hx, -⟩ := Option.map_eq_some_iff.mp hr
    exact (hreturns data).mp (Option.isSome_of_eq_some hx)
  · intro hfits h data hdata
    obtain ⟨r, hr⟩ := Option.isSome_iff_exists.mp ((hreturns data).mpr (hfits h data hdata))
    exact ⟨_, Option.map_eq_some_iff.mpr ⟨r, hr, rfl⟩, fun _ _ => (exiDocuments_place hr).2⟩

/-- The parser of a document stays the one of EXI. -/
theorem exi_leads {s : SeConnection C T (PX ⊕ ExiDocument)}
    {x : SeConnection C T (PX ⊕ ExiDocument) × (PX ⊕ ExiDocument)}
    (h : Passes.Leads (dataPass (seDocuments X (exiDocuments S sh heap)) offer closed)
      (s, .inr p) x) : ∃ q, x.2 = .inr q := by
  refine h.invariant (fun x => ∃ q, x.2 = .inr q) ?_ ⟨p, rfl⟩
  rintro ⟨s, -⟩ y ⟨q, rfl⟩ hpass
  unfold dataPass at hpass
  dsimp only at hpass
  split at hpass
  · cases hpass
  · split at hpass
    · cases hpass
    · rename_i r hr
      obtain ⟨r, -, rfl⟩ := Option.map_eq_some_iff.mp hr
      split at hpass
      · cases hpass
      · split_ifs at hpass
        split at hpass
        · cases hpass
        · obtain rfl := Sum.inl.inj hpass
          exact ⟨_, rfl⟩

/-- **A connection keeps to its buffer** over all passes of a document of EXI if and only if no
header that it reads is overlong. -/
theorem exi_safe_iff {s : SeConnection C T (PX ⊕ ExiDocument)} :
    Safe (seDocuments X (exiDocuments S sh heap)) offer closed (s, .inr p) ↔
      ∀ t q, Passes.Leads (dataPass (seDocuments X (exiDocuments S sh heap)) offer closed)
          (s, .inr p) (t, .inr q) →
        ∀ h data, t.http.httpData offer closed = (h, some data) →
          ¬(q.exiRebuffer data).Overlong sh := by
  constructor
  · intro hsafe t q hleads
    exact exi_keeps_iff.mp (hsafe _ hleads)
  · rintro hfits ⟨t, y⟩ hleads
    obtain ⟨q, rfl⟩ := exi_leads hleads
    exact exi_keeps_iff.mpr (hfits t q hleads)

end Connections

/-- A notification with the status 7 and the URI `x`. -/
def notificationBytes : List UInt8 := [160, 48, 17, 76, 198, 0, 111, 0, 14, 0]

/-- The notification is read in one piece, and not in two: the parser does not go back to the bit in
front of a value. -/
example :
    let D := exiDocuments notification .x86 ⟨fun _ => 0, fun _ => none, fun _ => [], 0, []⟩
    let p := ExiDocument.exiParseInit ⟨fun _ => 0, fun _ => none, fun _ => [], 0, []⟩
    (D.parse p notificationBytes).map (·.doc.isSome) = some true ∧
      ((D.parse p (notificationBytes.take 6)).bind fun r =>
        (r.place.bind fun k => D.parse r.parser (notificationBytes.drop k)).map (·.doc.isSome)) =
          some false := by
  decide +kernel

end SeClient
