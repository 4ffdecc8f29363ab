import Mathlib.Data.List.TakeWhile
import SeClient.XmlToken

/-!
# Character data

`output_escaped` and `output_quoted` of `xml_output.c` write a string into a document, as the text of
an element and as the value of an attribute, and `xml_token` and `att_value` read it.
-/

namespace SeClient

/-! ## `xml_output.c` -/

/-- What is printed, 0 when there is no room for it, or a copy of bytes that are no UTF-8. -/
inductive Printed
  | done (out : CString)
  | full
  | undefined
deriving DecidableEq, Repr

/-- The entity of a character. -/
def entity (c : ℕ) : Option CString :=
  if c = 60 then some (chars ['&', 'l', 't', ';'])
  else if c = 62 then some (chars ['&', 'g', 't', ';'])
  else if c = 38 then some (chars ['&', 'a', 'm', 'p', ';'])
  else if c = 34 then some (chars ['&', 'q', 'u', 'o', 't', ';'])
  else none

/-- The loop of `output_escaped`. -/
def escapedLoop (room : ℕ) : ℕ → CString → CString → Printed
  | 0, out, _ => .done out
  | _ + 1, out, [] => .done out
  | fuel + 1, out, c :: s =>
    match utf8Char 0 0 (c :: s) with
    | none => .undefined
    | some (code, next) =>
      let bytes := (entity code).getD (upTo (c :: s) next)
      if out.length + bytes.length < room then escapedLoop room fuel (out ++ bytes) next else .full

/-- `output_escaped`, into `room` bytes. -/
def outputEscaped (room : ℕ) (s : CString) : Printed := escapedLoop room (s.length + 1) [] s

/-- `output_quoted`, of a string. -/
def outputQuoted (room : ℕ) (s : CString) : Printed :=
  if 1 < room then
    match outputEscaped (room - 1) s with
    | .done out =>
      if out.length + 1 < room - 1 then .done (34 :: (out ++ [34])) else .full
    | r => r
  else .full

/-! ## `xml_parse.c` -/

/-- `parse_text`: the text of a simple element. -/
def parseText (p : XmlParser) : Option (Option CString) :=
  match xmlToken p with
  | none => none
  | some (.xmlText, p) => some (some p.content)
  | some (.endTag, _) => some (some [])
  | some _ => some none

/-! ## Strings of characters -/

/-- The characters of XML. -/
def XmlChar (c : Char) : Prop :=
  c.toNat = 9 ∨ c.toNat = 10 ∨ c.toNat = 13 ∨ 0x20 ≤ c.toNat ∧ c.toNat ≤ 0xd7ff ∨
    0xe000 ≤ c.toNat ∧ c.toNat ≤ 0xfffd ∨ 0x10000 ≤ c.toNat ∧ c.toNat ≤ 0x10ffff

/-- A string of XML. -/
structure XmlString where
  chars : List Char
  legal : ∀ c ∈ chars, XmlChar c

/-- UTF-8. -/
def utf8 (l : List Char) : CString := l.flatMap String.utf8EncodeChar

/-- The name of an element of the schema. -/
structure ElementName where
  name : CString
  nonempty : name ≠ []
  letters : ∀ c ∈ name, 65 ≤ c ∧ c ≤ 90 ∨ 97 ≤ c ∧ c ≤ 122

/-- The string of an element comes back from its text. -/
def TextRoundTrip (s : CString) : Prop :=
  ∀ (room : ℕ) (name : ElementName) (rest : CString) (p : XmlParser),
    outputEscaped room s ≠ .full →
      ∃ out, outputEscaped room s = .done out ∧
        parseText { p with
          state := 0, token := .startTag
          data := out ++ 60 :: 47 :: (name.name ++ 62 :: rest) } = some (some s)

/-- The string of an attribute comes back from its value. -/
def AttributeRoundTrip (s : CString) : Prop :=
  ∀ (room : ℕ) (rest : CString), outputQuoted room s ≠ .full →
    ∃ out, outputQuoted room s = .done out ∧ attValue (out ++ rest) = some (some (s, rest))

/-! ## UTF-8 -/

/-- The code point of a character that `utf8_char` reads. -/
def Read (n : ℕ) : Prop := n < 0x10000 ∨ n / 64 % 64 < 32

instance (n : ℕ) : Decidable (Read n) := inferInstanceAs (Decidable (_ ∨ _))

/-- The bytes of a code point. -/
def utf8Bytes (n : ℕ) : CString :=
  if n ≤ 0x7f then [UInt8.ofNat n]
  else if n ≤ 0x7ff then [UInt8.ofNat (n / 64 % 0x20 + 0xc0), UInt8.ofNat (n % 0x40 + 0x80)]
  else if n ≤ 0xffff then
    [UInt8.ofNat (n / 4096 % 0x10 + 0xe0), UInt8.ofNat (n / 64 % 0x40 + 0x80),
      UInt8.ofNat (n % 0x40 + 0x80)]
  else
    [UInt8.ofNat (n / 262144 % 0x08 + 0xf0), UInt8.ofNat (n / 4096 % 0x40 + 0x80),
      UInt8.ofNat (n / 64 % 0x40 + 0x80), UInt8.ofNat (n % 0x40 + 0x80)]

theorem utf8EncodeChar_eq (c : Char) : String.utf8EncodeChar c = utf8Bytes c.toNat := rfl

section Utf8
variable {x state code n : ℕ} {rest : CString}

/-- What a byte `80 + x` is to `utf8_char`. -/
theorem continuation (hx : x < 64) :
    ¬UInt8.ofNat (x + 0x80) < 128 ∧ UInt8.ofNat (x + 0x80) &&& 0x40 = 0 ∧
      (UInt8.ofNat (x + 0x80)).toNat >>> 4 % 4 = x / 16 ∧
      (UInt8.ofNat (x + 0x80) &&& 0x3f).toNat = x := by
  revert x
  decide

/-- `utf8_char` at a continuation byte. -/
theorem utf8Char_continuation (hx : x < 64) (hstate : state ≠ 0) :
    utf8Char state code (UInt8.ofNat (x + 0x80) :: rest) =
      if utfTable.getD (64 + state + x / 16) 99 = 99 then none
      else if utfTable.getD (64 + state + x / 16) 99 = 0 then some (code * 64 + x, rest)
      else utf8Char (utfTable.getD (64 + state + x / 16) 99) (code * 64 + x) rest := by
  obtain ⟨hascii, hbit, htype, hvalue⟩ := continuation hx
  have hcode : x ||| code <<< 6 = code * 64 + x := by
    rw [Nat.or_comm, Nat.shiftLeft_eq, Nat.mul_comm, Nat.two_pow_add_eq_or_of_lt (by omega)]
  simp only [utf8Char, if_neg hascii, if_pos hstate, hbit, htype, hvalue, hcode, ne_eq,
    not_true_eq_false, if_false]

/-- The state behind a first byte. -/
def leadState (b : ℕ) : ℕ := utfTable.getD (64 + utfTable.getD (b - 0xc0) 99) 99

/-- The bits of a first byte. -/
def leadBits (b : ℕ) : ℕ := if b < 0xe0 then b - 0xc0 else if b < 0xf0 then b - 0xe0 else b - 0xf0

/-- `utf8_char` at the first byte of more than one. -/
theorem utf8Char_lead {b : ℕ} (hb : 0xc2 ≤ b ∧ b < 0xf5) :
    utf8Char 0 0 (UInt8.ofNat b :: rest) = utf8Char (leadState b) (leadBits b) rest := by
  have hfacts : ∀ b < 0xf5, 0xc2 ≤ b →
      ¬UInt8.ofNat b < 128 ∧ UInt8.ofNat b &&& 0x40 ≠ 0 ∧
        utfTable.getD (UInt8.ofNat b ^^^ 0xc0).toNat 99 = utfTable.getD (b - 0xc0) 99 ∧
        leadState b ≠ 99 ∧ leadState b ≠ 0 ∧
        0xff >>> utfTable.getD (b - 0xc0) 99 &&& (UInt8.ofNat b).toNat = leadBits b := by
    decide +kernel
  obtain ⟨hascii, hbit, htype, hreject, hzero, hvalue⟩ := hfacts b hb.2 hb.1
  unfold leadState at hreject hzero
  simp only [utf8Char, if_neg hascii, ne_eq, not_true_eq_false, if_false, hbit, not_false_eq_true,
    if_true, htype, hvalue, hreject, hzero, leadState]

/-- A byte in the middle of a character. -/
theorem utf8Char_middle {next : ℕ} (hx : x < 64) (hstate : state ≠ 0)
    (hnext : utfTable.getD (64 + state + x / 16) 99 = next) (hne : next ≠ 99 ∧ next ≠ 0) :
    utf8Char state code (UInt8.ofNat (x + 0x80) :: rest) = utf8Char next (code * 64 + x) rest := by
  rw [utf8Char_continuation hx hstate, hnext, if_neg hne.1, if_neg hne.2]

/-- The last byte of a character. -/
theorem utf8Char_last (hx : x < 64) :
    utf8Char 9 code (UInt8.ofNat (x + 0x80) :: rest) = some (code * 64 + x, rest) := by
  have hend : ∀ y < 4, utfTable.getD (64 + 9 + y) 99 = 0 := by decide
  rw [utf8Char_continuation hx (by decide), hend _ (by omega), if_neg (by decide), if_pos rfl]

variable (rest) in
/-- **`utf8_char`** reads the characters of the first plane, and of the others those with a third
byte below `a0`. -/
theorem utf8Char_bytes (hn : n < 0xd800 ∨ 0xe000 ≤ n ∧ n < 0x110000) :
    utf8Char 0 0 (utf8Bytes n ++ rest) = if Read n then some (n, rest) else none := by
  unfold utf8Bytes
  split
  · rename_i hone
    have hbyte : (UInt8.ofNat n).toNat = n := by
      rw [UInt8.toNat_ofNat', Nat.mod_eq_of_lt (by omega)]
    have hascii : UInt8.ofNat n < 128 := by
      rw [UInt8.lt_iff_toNat_lt, hbyte]
      change n < 128
      omega
    rw [List.singleton_append, utf8Char_ascii hascii, hbyte, if_pos (.inl (by omega))]
  split
  · rename_i hone htwo
    have hstate : ∀ b < 0xe0, 0xc2 ≤ b → leadState b = 9 := by decide +kernel
    rw [List.cons_append, List.cons_append, List.nil_append, utf8Char_lead (by omega),
      hstate _ (by omega) (by omega), utf8Char_last (by omega), if_pos (.inl (by omega)),
      leadBits, if_pos (by omega)]
    congr 2
    omega
  split
  · rename_i hone htwo hthree
    have hmiddle : ∀ a < 16, ∀ q < 4, (a ≠ 0 ∨ 2 ≤ q) ∧ (a ≠ 13 ∨ q < 2) →
        leadState (a + 0xe0) ≠ 0 ∧ utfTable.getD (64 + leadState (a + 0xe0) + q) 99 = 9 := by
      decide +kernel
    obtain ⟨hstate, hnext⟩ := hmiddle (n / 4096 % 0x10) (by omega) (n / 64 % 0x40 / 16) (by omega)
      (by omega)
    rw [List.cons_append, List.cons_append, List.cons_append, List.nil_append,
      utf8Char_lead (by omega), utf8Char_middle (by omega) hstate hnext (by decide),
      utf8Char_last (by omega), if_pos (.inl (by omega)), leadBits, if_neg (by omega),
      if_pos (by omega)]
    congr 2
    omega
  · rename_i hone htwo hthree
    have hmiddle : ∀ a < 5, ∀ q < 4, (a ≠ 0 ∨ 1 ≤ q) ∧ (a ≠ 4 ∨ q < 1) →
        leadState (a + 0xf0) ≠ 0 ∧ utfTable.getD (64 + leadState (a + 0xf0) + q) 99 = 17 := by
      decide +kernel
    obtain ⟨hstate, hnext⟩ := hmiddle (n / 262144 % 0x08) (by omega) (n / 4096 % 0x40 / 16)
      (by omega) (by omega)
    have hthird : ∀ q < 4, utfTable.getD (64 + 17 + q) 99 = if q < 2 then 9 else 99 := by
      decide +kernel
    rw [List.cons_append, List.cons_append, List.cons_append, List.cons_append, List.nil_append,
      utf8Char_lead (by omega), utf8Char_middle (by omega) hstate hnext (by decide)]
    by_cases hread : n / 64 % 64 < 32
    · rw [utf8Char_middle (by omega) (by decide) ((hthird _ (by omega)).trans (if_pos (by omega)))
        (by decide), utf8Char_last (by omega), if_pos (.inr hread), leadBits, if_neg (by omega),
        if_neg (by omega)]
      congr 2
      omega
    · have hreject := (hthird (n / 64 % 0x40 / 16) (by omega)).trans (if_neg (by omega))
      have hnot : ¬Read n := by
        unfold Read
        omega
      rw [utf8Char_continuation (by omega) (by decide), hreject, if_pos rfl, if_neg hnot]

end Utf8

/-! ## What `utf8_encode` makes of a character -/

section Encode
variable {n : ℕ}

theorem tail_byte {x : ℕ} (hx : x < 64) : 0x80 ||| x = x + 0x80 := by
  revert x
  decide

/-- **`utf8_encode`** is UTF-8 in the first plane. -/
theorem utf8Encode_plane (hn : n < 0x10000) : utf8Encode n = some (utf8Bytes n) := by
  have htwo : ∀ x < 0x20, 0xc0 ||| x = x + 0xc0 := by decide
  have hthree : ∀ x < 0x10, 0xe0 ||| x = x + 0xe0 := by decide
  simp only [utf8Encode, utf8Bytes, Nat.shiftRight_eq_div_pow, Nat.reducePow, Nat.div_one,
    tail_byte (Nat.mod_lt _ (show 0 < 64 by decide))]
  split
  · rfl
  split
  · rw [htwo _ (by omega), show n / 64 % 32 = n / 64 by omega]
  split
  · rw [hthree _ (by omega), show n / 4096 % 16 = n / 4096 by omega]
  · omega

/-- In the other planes it writes another first byte, or nothing. -/
theorem utf8Encode_other (hn : 0x10000 ≤ n) {b : CString} (h : utf8Encode n = some b) :
    b.length = 4 ∧ b ≠ utf8Bytes n := by
  have hlead : ∀ x < 0x08, UInt8.ofNat 0xe0 ≠ UInt8.ofNat (x + 0xf0) := by decide
  simp only [utf8Encode, if_neg (show ¬n ≤ 0x7f by omega), if_neg (show ¬n ≤ 0x7ff by omega),
    if_neg (show ¬n ≤ 0xffff by omega)] at h
  split at h
  · rename_i hle
    have hzero : n >>> 18 = 0 := by
      rw [Nat.shiftRight_eq_div_pow]
      omega
    rw [hzero] at h
    rw [← Option.some.inj h]
    refine ⟨rfl, fun heq => ?_⟩
    rw [utf8Bytes, if_neg (by omega), if_neg (by omega), if_neg (by omega)] at heq
    exact hlead _ (Nat.mod_lt _ (by decide)) (List.cons.inj heq).1
  · exact absurd h.symm (Option.some_ne_none _)

theorem utf8Bytes_length_other (hn : 0x10000 ≤ n) : (utf8Bytes n).length = 4 := by
  rw [utf8Bytes, if_neg (by omega), if_neg (by omega), if_neg (by omega)]
  rfl

theorem utf8Encode_length {b : CString} (h : utf8Encode n = some b) :
    b.length = (utf8Bytes n).length := by
  by_cases hn : n < 0x10000
  · rw [utf8Encode_plane hn] at h
    rw [Option.some.inj h]
  · rw [(utf8Encode_other (by omega) h).1, utf8Bytes_length_other (by omega)]

/-- The first byte is the character, or no character of ASCII. -/
theorem utf8Bytes_cons (n : ℕ) : ∃ b bs, utf8Bytes n = b :: bs ∧
    (n < 128 ∧ b = UInt8.ofNat n ∧ bs = [] ∨ 128 ≤ n ∧ ∀ c ∈ utf8Bytes n, 128 ≤ c) := by
  have hhigh : ∀ x < 64, (128 : UInt8) ≤ UInt8.ofNat (x + 0x80) ∧ (128 : UInt8) ≤
      UInt8.ofNat (x % 0x20 + 0xc0) ∧ (128 : UInt8) ≤ UInt8.ofNat (x % 0x10 + 0xe0) ∧
      (128 : UInt8) ≤ UInt8.ofNat (x % 0x08 + 0xf0) := by decide
  have hlow : ∀ x, (128 : UInt8) ≤ UInt8.ofNat (x % 0x40 + 0x80) := fun x =>
    (hhigh (x % 0x40) (by omega)).1
  unfold utf8Bytes
  split
  · exact ⟨_, [], rfl, .inl ⟨by omega, rfl, rfl⟩⟩
  split
  · refine ⟨_, _, rfl, .inr ⟨by omega, ?_⟩⟩
    have h := (hhigh (n / 64 % 0x20) (by omega)).2.1
    rw [Nat.mod_mod] at h
    simp only [List.mem_cons, List.not_mem_nil, or_false]
    rintro c (rfl | rfl)
    · exact h
    · exact hlow n
  split
  · refine ⟨_, _, rfl, .inr ⟨by omega, ?_⟩⟩
    have h := (hhigh (n / 4096 % 0x10) (by omega)).2.2.1
    rw [Nat.mod_mod] at h
    simp only [List.mem_cons, List.not_mem_nil, or_false]
    rintro c (rfl | rfl | rfl)
    · exact h
    · exact hlow (n / 64)
    · exact hlow n
  · refine ⟨_, _, rfl, .inr ⟨by omega, ?_⟩⟩
    have h := (hhigh (n / 262144 % 0x08) (by omega)).2.2.2
    rw [Nat.mod_mod] at h
    simp only [List.mem_cons, List.not_mem_nil, or_false]
    rintro c (rfl | rfl | rfl | rfl)
    · exact h
    · exact hlow (n / 4096)
    · exact hlow (n / 64)
    · exact hlow n

end Encode

/-! ## Escaping -/

/-- What is written of a character. -/
def escapeChar (n : ℕ) : CString := (entity n).getD (utf8Bytes n)

/-- What is written of a string. -/
def escape (l : List Char) : CString := l.flatMap fun c => escapeChar c.toNat

/-- The characters that are written as entities. -/
def Special (n : ℕ) : Prop := n = 60 ∨ n = 62 ∨ n = 38 ∨ n = 34

instance (n : ℕ) : Decidable (Special n) := inferInstanceAs (Decidable (_ ∨ _))

theorem entity_special {n : ℕ} (h : Special n) : ∃ ref, entity n = some (38 :: (ref ++ [59])) ∧
    59 ∉ ref ∧ (∀ s, xmlReference (ref ++ 59 :: s) = some (some ([UInt8.ofNat n], s))) := by
  rcases h with rfl | rfl | rfl | rfl
  · exact ⟨chars ['l', 't'], rfl, by decide, fun s => rfl⟩
  · exact ⟨chars ['g', 't'], rfl, by decide, fun s => rfl⟩
  · exact ⟨chars ['a', 'm', 'p'], rfl, by decide, fun s => rfl⟩
  · exact ⟨chars ['q', 'u', 'o', 't'], rfl, by decide, fun s => rfl⟩

theorem entity_none {n : ℕ} (h : ¬Special n) : entity n = none := by
  unfold Special at h
  rw [entity, if_neg (by omega), if_neg (by omega), if_neg (by omega), if_neg (by omega)]

theorem escapeChar_none {n : ℕ} (h : ¬Special n) : escapeChar n = utf8Bytes n := by
  rw [escapeChar, entity_none h]
  rfl

theorem XmlChar.valid {c : Char} (h : XmlChar c) :
    c.toNat < 0xd800 ∨ 0xe000 ≤ c.toNat ∧ c.toNat < 0x110000 := by
  unfold XmlChar at h
  omega

theorem upTo_append (a b : CString) : upTo (a ++ b) b = a := by
  rw [upTo, List.length_append, Nat.add_sub_cancel, List.take_left]

section Escaped
variable {room fuel : ℕ} {out s : CString} {c : Char} {l : List Char}

theorem escapedLoop_cons (hc : XmlChar c) :
    escapedLoop room (fuel + 1) out (utf8Bytes c.toNat ++ s) =
      if Read c.toNat then
        if out.length + (escapeChar c.toNat).length < room then
          escapedLoop room fuel (out ++ escapeChar c.toNat) s
        else .full
      else .undefined := by
  have hchar := utf8Char_bytes s hc.valid
  obtain ⟨b, bs, hb, -⟩ := utf8Bytes_cons c.toNat
  have hupTo := upTo_append (utf8Bytes c.toNat) s
  rw [hb, List.cons_append] at hchar hupTo ⊢
  rw [escapedLoop, hchar]
  by_cases hread : Read c.toNat
  · simp only [if_pos hread, hupTo, ← hb]
    rfl
  · simp only [if_neg hread]

variable (room fuel out) in
/-- What can be read is escaped, if there is room for it. -/
theorem escapedLoop_append (hl : ∀ c ∈ l, XmlChar c ∧ Read c.toNat) (hfuel : l.length ≤ fuel) :
    escapedLoop room fuel out (utf8 l ++ s) =
      if l = [] ∨ out.length + (escape l).length < room then
        escapedLoop room (fuel - l.length) (out ++ escape l) s
      else .full := by
  induction l generalizing fuel out with
  | nil => simp [utf8, escape]
  | cons c l ih =>
    obtain ⟨k, rfl⟩ : ∃ k, fuel = k + 1 := ⟨fuel - 1, by simp only [List.length_cons] at hfuel; omega⟩
    obtain ⟨⟨hc, hread⟩, hl⟩ := List.forall_mem_cons.mp hl
    have hutf : utf8 (c :: l) ++ s = utf8Bytes c.toNat ++ (utf8 l ++ s) := by
      simp [utf8, utf8EncodeChar_eq]
    have hescape : escape (c :: l) = escapeChar c.toNat ++ escape l := rfl
    rw [hutf, escapedLoop_cons hc, if_pos hread,
      ih _ _ hl (by simp only [List.length_cons] at hfuel; omega), hescape]
    simp only [List.length_append, List.length_cons, Nat.add_sub_add_right, List.append_assoc]
    by_cases hroom : out.length + ((escapeChar c.toNat).length + (escape l).length) < room
    · rw [if_pos (by omega), if_pos (.inr (by omega)), if_pos (.inr hroom)]
    · rw [if_neg (show ¬(c :: l = [] ∨ _) from fun h => h.elim (fun h => nomatch h) hroom)]
      by_cases hfirst : out.length + (escapeChar c.toNat).length < room
      · rw [if_pos hfirst, if_neg]
        rintro (rfl | h)
        · simp only [escape, List.flatMap_nil, List.length_nil] at hroom
          omega
        · omega
      · rw [if_neg hfirst]

end Escaped

/-! ## Reading -/

/-- What the text of a string is decoded to. -/
def reencode : List Char → Option CString
  | [] => some []
  | c :: l => (utf8Encode c.toNat).bind fun b => (reencode l).map (b ++ ·)

theorem reencode_length {l : List Char} {b : CString} (h : reencode l = some b) :
    b.length = (utf8 l).length := by
  induction l generalizing b with
  | nil => rw [← Option.some.inj h]; rfl
  | cons c l ih =>
    obtain ⟨x, hx, hrest⟩ := Option.bind_eq_some_iff.mp h
    obtain ⟨y, hy, rfl⟩ := Option.map_eq_some_iff.mp hrest
    have hutf : utf8 (c :: l) = utf8Bytes c.toNat ++ utf8 l := rfl
    rw [hutf, List.length_append, List.length_append, utf8Encode_length hx, ih hy]

/-- **The text of a string** is the string in the first plane. -/
theorem reencode_iff {l : List Char} : reencode l = some (utf8 l) ↔ ∀ c ∈ l, c.toNat < 0x10000 := by
  induction l with
  | nil => exact ⟨fun _ _ h => absurd h List.not_mem_nil, fun _ => rfl⟩
  | cons c l ih =>
    have hutf : utf8 (c :: l) = utf8Bytes c.toNat ++ utf8 l := rfl
    rw [List.forall_mem_cons, ← ih, hutf]
    constructor
    · intro h
      obtain ⟨x, hx, hrest⟩ := Option.bind_eq_some_iff.mp h
      obtain ⟨y, hy, happend⟩ := Option.map_eq_some_iff.mp hrest
      obtain ⟨hfirst, hlast⟩ := List.append_inj happend (utf8Encode_length hx)
      refine ⟨?_, hlast ▸ hy⟩
      by_contra hn
      exact (utf8Encode_other (by omega) hx).2 hfirst
    · rintro ⟨hn, hl⟩
      rw [reencode, utf8Encode_plane hn, hl]
      rfl

section Text
variable {entry fuel n : ℕ} {p : XmlParser} {t s : CString} {l : List Char}

/-- The parser inside a text. -/
def textAt (p : XmlParser) (t s : CString) : XmlParser :=
  { p with state := 1, token := .xmlText, content := t, data := s }

theorem xmlChar_of (c : Char) (h : XmlChar c) : xmlChar c.toNat = true := by
  unfold XmlChar at h
  simp only [xmlChar, inRange, Bool.or_eq_true, decide_eq_true_eq]
  omega

theorem utf8Bytes_head {b : UInt8} {bs : CString} (hb : utf8Bytes n = b :: bs) {x : UInt8}
    (hx : x < 128) : b = x ↔ n = x.toNat := by
  have hx' : x.toNat < 128 := hx
  obtain ⟨b', bs', hb', hcase⟩ := utf8Bytes_cons n
  obtain ⟨rfl, rfl⟩ := List.cons.inj (hb.symm.trans hb')
  rcases hcase with ⟨hn, rfl, -⟩ | ⟨hn, hhigh⟩
  · rw [← UInt8.toNat_inj, UInt8.toNat_ofNat', Nat.mod_eq_of_lt (by omega)]
  · have hle : (128 : UInt8) ≤ b := hhigh b (hb ▸ List.mem_cons_self)
    have hle' : 128 ≤ b.toNat := hle
    rw [← UInt8.toNat_inj]
    omega

/-- A character of a text. -/
theorem tokenLoop_char {c : Char} (hc : XmlChar c) (hread : Read c.toNat) :
    tokenLoop entry (fuel + 1) (textAt p t (escapeChar c.toNat ++ s)) =
      (utf8Encode c.toNat).bind fun b => tokenLoop entry fuel (textAt p (t ++ b) s) := by
  by_cases hspecial : Special c.toNat
  · obtain ⟨ref, hentity, -, href⟩ := entity_special hspecial
    have hencode : utf8Encode c.toNat = some [UInt8.ofNat c.toNat] := by
      rw [utf8Encode, if_pos]
      unfold Special at hspecial
      omega
    rw [escapeChar, hentity, hencode, Option.getD_some, List.cons_append, List.append_assoc,
      List.singleton_append, tokenLoop]
    simp only [textAt, if_true, href]
    rw [if_pos (List.mem_append_right ref List.mem_cons_self)]
    rfl
  · obtain ⟨b, bs, hb, -⟩ := utf8Bytes_cons c.toNat
    have hchar := utf8Char_bytes s hc.valid
    have hamp : ¬b = 38 := by
      rw [utf8Bytes_head hb (by decide)]
      exact fun h => hspecial (.inr (.inr (.inl h)))
    have hlt : ¬b = 60 := by
      rw [utf8Bytes_head hb (by decide)]
      exact fun h => hspecial (.inl h)
    rw [if_pos hread, hb, List.cons_append] at hchar
    rw [escapeChar_none hspecial, hb, List.cons_append, tokenLoop]
    simp only [textAt, if_neg hamp, if_neg hlt, hchar, xmlChar_of c hc, if_true]
    cases utf8Encode c.toNat <;> rfl

/-- **The text of an element** up to its end. -/
theorem tokenLoop_text (hl : ∀ c ∈ l, XmlChar c ∧ Read c.toNat) (hfuel : l.length + 2 ≤ fuel) :
    tokenLoop entry fuel (textAt p t (escape l ++ 60 :: 47 :: s)) =
      (reencode l).map fun b => (.xmlText,
        { textAt p (t ++ b) (47 :: s) with state := 2, token := .xmlNone }) := by
  induction l generalizing fuel t with
  | nil =>
    obtain ⟨k, rfl⟩ : ∃ k, fuel = k + 2 := ⟨fuel - 2, by omega⟩
    rw [reencode, Option.map_some, List.append_nil]
    rfl
  | cons c l ih =>
    obtain ⟨k, rfl⟩ : ∃ k, fuel = k + 1 := ⟨fuel - 1, by omega⟩
    obtain ⟨⟨hc, hread⟩, hl⟩ := List.forall_mem_cons.mp hl
    have hescape : escape (c :: l) = escapeChar c.toNat ++ escape l := rfl
    rw [hescape, List.append_assoc, tokenLoop_char hc hread, reencode]
    cases utf8Encode c.toNat with
    | none => rfl
    | some b =>
      rw [Option.bind_some, Option.bind_some,
        ih hl (by simp only [List.length_cons] at hfuel; omega), Option.map_map]
      congr 1
      funext x
      rw [Function.comp_apply, List.append_assoc]

/-- A character of white space. -/
def Blank (c : Char) : Prop := c.toNat = 10 ∨ c.toNat = 32 ∨ c.toNat = 9 ∨ c.toNat = 13

instance (c : Char) : Decidable (Blank c) := inferInstanceAs (Decidable (_ ∨ _))

theorem ws_iff {b : UInt8} : ws b = true ↔ b = 10 ∨ b = 32 ∨ b = 9 ∨ b = 13 := by
  simp [ws]

/-- The first byte of a character that is not blank. -/
theorem escapeChar_head {c : Char} (hc : ¬Blank c) : ∃ b bs, escapeChar c.toNat = b :: bs ∧
    ws b = false ∧ b ≠ 60 := by
  by_cases hspecial : Special c.toNat
  · obtain ⟨ref, hentity, -⟩ := entity_special hspecial
    refine ⟨38, ref ++ [59], ?_, rfl, by decide⟩
    rw [escapeChar, hentity]
    rfl
  · obtain ⟨b, bs, hb, -⟩ := utf8Bytes_cons c.toNat
    refine ⟨b, bs, (escapeChar_none hspecial).trans hb, ?_, ?_⟩
    · rw [← Bool.not_eq_true, ws_iff, utf8Bytes_head hb (by decide), utf8Bytes_head hb (by decide),
        utf8Bytes_head hb (by decide), utf8Bytes_head hb (by decide)]
      exact hc
    · rw [ne_eq, utf8Bytes_head hb (by decide)]
      exact fun h => hspecial (.inl h)

theorem escapeChar_blank {c : Char} (hc : Blank c) :
    ∃ b, escapeChar c.toNat = [b] ∧ ws b = true ∧ b ≠ 60 := by
  unfold Blank at hc
  have hspecial : ¬Special c.toNat := by
    unfold Special
    omega
  rw [escapeChar_none hspecial]
  rcases hc with h | h | h | h <;> rw [h]
  · exact ⟨10, rfl, rfl, by decide⟩
  · exact ⟨32, rfl, rfl, by decide⟩
  · exact ⟨9, rfl, rfl, by decide⟩
  · exact ⟨13, rfl, rfl, by decide⟩

theorem trim_escape {w : List Char} (hw : ∀ c ∈ w, Blank c) {b : UInt8} {s : CString}
    (hb : ws b = false) : trim (escape w ++ b :: s) = b :: s := by
  induction w with
  | nil => exact List.dropWhile_cons_of_neg (by simp [hb])
  | cons c w ih =>
    obtain ⟨hc, hw⟩ := List.forall_mem_cons.mp hw
    obtain ⟨x, hx, hws, -⟩ := escapeChar_blank hc
    have hescape : escape (c :: w) = escapeChar c.toNat ++ escape w := rfl
    rw [hescape, hx]
    exact (List.dropWhile_cons_of_pos hws).trans (ih hw)

variable (entry fuel) in
/-- White space in front of a text is passed over. -/
theorem tokenLoop_blank {w : List Char} (hw : ∀ c ∈ w, Blank c) {b : UInt8} {s : CString}
    (hb : ws b = false) : ∃ k, fuel ≤ k ∧
      tokenLoop entry (fuel + 1) { p with state := 0, data := escape w ++ b :: s } =
        tokenLoop entry k { p with state := 0, data := b :: s } := by
  cases w with
  | nil => exact ⟨fuel + 1, by omega, rfl⟩
  | cons c w =>
    obtain ⟨hc, hw⟩ := List.forall_mem_cons.mp hw
    obtain ⟨x, hx, hws, hlt⟩ := escapeChar_blank hc
    have hescape : escape (c :: w) ++ b :: s = x :: (escape w ++ b :: s) := by
      have happend : escape (c :: w) = escapeChar c.toNat ++ escape w := rfl
      rw [happend, hx]
      rfl
    refine ⟨fuel, Nat.le_refl _, ?_⟩
    rw [hescape, tokenLoop]
    simp only [if_neg hlt, hws, if_true, trim_escape hw hb]

end Text

/-! ## The end of an element -/

section EndTag
variable {name rest : CString}

/-- The letters are read as characters of names. -/
theorem letter_read {b : UInt8} (hb : 65 ≤ b ∧ b ≤ 90 ∨ 97 ≤ b ∧ b ≤ 122) :
    b < 128 ∧ nameStart b.toNat = true ∧ nameChar b.toNat = true := by
  have hall : ∀ n < 123, (65 ≤ n ∧ n ≤ 90 ∨ 97 ≤ n ∧ n ≤ 122) →
      nameStart n = true ∧ nameChar n = true := by decide
  have hle : 65 ≤ b.toNat ∧ b.toNat ≤ 90 ∨ 97 ≤ b.toNat ∧ b.toNat ≤ 122 := hb
  refine ⟨?_, hall b.toNat (by omega) hle⟩
  change b.toNat < 128
  omega

theorem nameRest_letters {fuel : ℕ} (hname : ∀ b ∈ name, 65 ≤ b ∧ b ≤ 90 ∨ 97 ≤ b ∧ b ≤ 122)
    (hfuel : name.length < fuel) : nameRest fuel (name ++ 62 :: rest) = some (62 :: rest) := by
  induction name generalizing fuel with
  | nil =>
    obtain ⟨k, rfl⟩ : ∃ k, fuel = k + 1 := ⟨fuel - 1, by simp only [List.length_nil] at hfuel; omega⟩
    rfl
  | cons b name ih =>
    obtain ⟨k, rfl⟩ : ∃ k, fuel = k + 1 := ⟨fuel - 1, by omega⟩
    obtain ⟨hb, hname⟩ := List.forall_mem_cons.mp hname
    obtain ⟨hascii, -, hchar⟩ := letter_read hb
    rw [List.cons_append, nameRest, utf8Char_ascii hascii]
    simp only [hchar, if_true]
    exact ih hname (Nat.lt_of_succ_lt_succ hfuel)

theorem xmlName_letters (name : ElementName) :
    xmlName (name.name ++ 62 :: rest) = some (62 :: rest) := by
  obtain ⟨b, bs, hb⟩ := List.exists_cons_of_ne_nil name.nonempty
  obtain ⟨hletter, hname⟩ := List.forall_mem_cons.mp (hb ▸ name.letters)
  obtain ⟨hascii, hstart, -⟩ := letter_read hletter
  rw [hb, List.cons_append, xmlName, utf8Char_ascii hascii]
  simp only [hstart, if_true]
  refine nameRest_letters hname ?_
  simp only [List.length_cons, List.length_append]
  omega

variable (rest) in
/-- **An end tag** is read. -/
theorem tokenLoop_endTag (entry : ℕ) {fuel : ℕ} {p : XmlParser} (name : ElementName)
    (hp : p.token ≠ .xmlText) (hfuel : 2 ≤ fuel) :
    ∃ q, tokenLoop entry fuel
      { p with state := 0, data := 60 :: 47 :: (name.name ++ 62 :: rest) } = some (.endTag, q) := by
  obtain ⟨k, rfl⟩ : ∃ k, fuel = k + 2 := ⟨fuel - 2, by omega⟩
  have hmem : (62 : UInt8) ∈ name.name ++ 62 :: rest :=
    List.mem_append_right _ List.mem_cons_self
  have htrim : trim (62 :: rest) = 62 :: rest := rfl
  have hlt : tokenLoop entry (k + 2)
      { p with state := 0, data := 60 :: 47 :: (name.name ++ 62 :: rest) } =
        tokenLoop entry (k + 1) { p with state := 2, data := 47 :: (name.name ++ 62 :: rest) } := rfl
  rw [hlt, tokenLoop]
  simp only [show ¬(47 : UInt8) = 33 by decide, show ¬(47 : UInt8) = 63 by decide, if_false, hp,
    hmem, if_true, xmlTag, xmlName_letters name, htrim, closeTag]
  exact ⟨_, rfl⟩

theorem length_escape (l : List Char) : l.length ≤ (escape l).length := by
  induction l with
  | nil => exact Nat.zero_le _
  | cons c l ih =>
    have hescape : escape (c :: l) = escapeChar c.toNat ++ escape l := rfl
    have hpos : 0 < (escapeChar c.toNat).length := by
      by_cases hspecial : Special c.toNat
      · obtain ⟨ref, hentity, -⟩ := entity_special hspecial
        rw [escapeChar, hentity]
        exact Nat.zero_lt_succ _
      · obtain ⟨b, bs, hb, -⟩ := utf8Bytes_cons c.toNat
        rw [escapeChar_none hspecial, hb]
        exact Nat.zero_lt_succ _
    rw [hescape, List.length_append, List.length_cons]
    omega

variable (rest) in
/-- **What `parse_text` finds** of a string in an element: the string without the white space in
front of it, as `utf8_encode` writes it. -/
theorem parseText_escape {w l : List Char} (hw : ∀ c ∈ w, Blank c)
    (hl : ∀ c ∈ l, XmlChar c ∧ Read c.toNat) (hhead : ∀ c ∈ l.head?, ¬Blank c) (name : ElementName)
    (p : XmlParser) :
    parseText { p with
      state := 0, token := .startTag
      data := escape (w ++ l) ++ 60 :: 47 :: (name.name ++ 62 :: rest) } =
        (reencode l).map some := by
  have hescape : escape (w ++ l) = escape w ++ escape l := List.flatMap_append
  rw [parseText, xmlToken, hescape, List.append_assoc]
  cases l with
  | nil =>
    obtain ⟨k, hk, hblank⟩ := tokenLoop_blank 0
      ((escape w ++ ([] ++ 60 :: 47 :: (name.name ++ 62 :: rest))).length + 1)
      (p := { p with token := .startTag }) hw (b := 60) (s := 47 :: (name.name ++ 62 :: rest)) rfl
    have hk2 : 2 ≤ k := by
      simp only [List.length_append, List.length_cons] at hk
      omega
    obtain ⟨q, hq⟩ := tokenLoop_endTag rest 0 (p := { p with token := .startTag })
      name TokenType.noConfusion hk2
    have htoken := hblank.trans hq
    simp only [escape, List.flatMap_nil, List.nil_append] at htoken ⊢
    rw [htoken]
    rfl
  | cons c l =>
    obtain ⟨b, bs, hb, hws, hlt⟩ := escapeChar_head (hhead c rfl)
    have hcons : escape (c :: l) ++ 60 :: 47 :: (name.name ++ 62 :: rest) =
        b :: (bs ++ (escape l ++ 60 :: 47 :: (name.name ++ 62 :: rest))) := by
      have happend : escape (c :: l) = escapeChar c.toNat ++ escape l := rfl
      rw [happend, hb]
      simp
    obtain ⟨k, hk, hblank⟩ := tokenLoop_blank 0
      ((escape w ++ (escape (c :: l) ++ 60 :: 47 :: (name.name ++ 62 :: rest))).length + 1)
      (p := { p with token := .startTag }) hw hws
      (s := bs ++ (escape l ++ 60 :: 47 :: (name.name ++ 62 :: rest)))
    rw [← hcons] at hblank
    have hlength := length_escape (c :: l)
    obtain ⟨j, rfl⟩ : ∃ j, k = j + 1 := ⟨k - 1, by omega⟩
    have hj : (c :: l).length + 2 ≤ j := by
      simp only [List.length_append, List.length_cons] at hk hlength ⊢
      omega
    have hstart : tokenLoop 0 (j + 1)
        { p with
          state := 0, token := .startTag
          data := escape (c :: l) ++ 60 :: 47 :: (name.name ++ 62 :: rest) } =
          tokenLoop 0 j
            (textAt p [] (escape (c :: l) ++ 60 :: 47 :: (name.name ++ 62 :: rest))) := by
      rw [hcons, tokenLoop]
      simp only [if_neg hlt, hws, Bool.false_eq_true, if_false]
      rfl
    have htoken := (hblank.trans hstart).trans (tokenLoop_text hl hj)
    rw [htoken]
    cases reencode (c :: l) with
    | none => rfl
    | some x => rfl

end EndTag

/-! ## Attributes -/

/-- What the value of an attribute is decoded to: a character that was escaped is followed by `&`. -/
def unquote (l : List Char) : CString :=
  l.flatMap fun c => if Special c.toNat then [UInt8.ofNat c.toNat, 38] else utf8Bytes c.toNat

section Attribute
variable {fuel : ℕ} {value s : CString} {l : List Char}

theorem attLoop_bytes {bs : CString} (hbs : ∀ b ∈ bs, b ≠ 60 ∧ b ≠ 38 ∧ b ≠ 34)
    (hfuel : bs.length ≤ fuel) :
    attLoop 34 fuel value (bs ++ s) = attLoop 34 (fuel - bs.length) (value ++ bs) s := by
  induction bs generalizing fuel value with
  | nil => simp
  | cons b bs ih =>
    obtain ⟨k, rfl⟩ : ∃ k, fuel = k + 1 :=
      ⟨fuel - 1, by simp only [List.length_cons] at hfuel; omega⟩
    obtain ⟨⟨hlt, hamp, hquote⟩, hbs⟩ := List.forall_mem_cons.mp hbs
    rw [List.cons_append, attLoop, if_neg hlt, if_neg hamp, if_neg hquote,
      ih hbs (by simp only [List.length_cons] at hfuel; omega), List.length_cons,
      Nat.add_sub_add_right]
    simp

/-- The bytes of a character that is not escaped. -/
theorem utf8Bytes_ne {n : ℕ} (h : ¬Special n) : ∀ b ∈ utf8Bytes n, b ≠ 60 ∧ b ≠ 38 ∧ b ≠ 34 := by
  obtain ⟨b, bs, hb, hcase⟩ := utf8Bytes_cons n
  rcases hcase with ⟨-, -, rfl⟩ | ⟨-, hhigh⟩
  · rw [hb]
    intro x hx
    rw [List.mem_singleton.mp hx, ne_eq, utf8Bytes_head hb (by decide), ne_eq,
      utf8Bytes_head hb (by decide), ne_eq, utf8Bytes_head hb (by decide)]
    exact ⟨fun h' => h (.inl h'), fun h' => h (.inr (.inr (.inl h'))),
      fun h' => h (.inr (.inr (.inr h')))⟩
  · intro x hx
    have hle : 128 ≤ x.toNat := hhigh x hx
    refine ⟨?_, ?_, ?_⟩ <;> (rintro rfl; exact absurd hle (by decide))

variable (fuel value) in
/-- **The value of an attribute** up to the quotation mark. -/
theorem attLoop_escape (hfuel : (escape l).length < fuel) :
    attLoop 34 fuel value (escape l ++ 34 :: s) = some (some (value ++ unquote l, s)) := by
  induction l generalizing fuel value with
  | nil =>
    obtain ⟨k, rfl⟩ : ∃ k, fuel = k + 1 := ⟨fuel - 1, by omega⟩
    rw [unquote, List.flatMap_nil, List.append_nil]
    rfl
  | cons c l ih =>
    have hescape : escape (c :: l) = escapeChar c.toNat ++ escape l := rfl
    rw [hescape, List.length_append] at hfuel
    by_cases hspecial : Special c.toNat
    · obtain ⟨k, rfl⟩ : ∃ k, fuel = k + 1 := ⟨fuel - 1, by omega⟩
      obtain ⟨ref, hentity, -, href⟩ := entity_special hspecial
      have hchar : escapeChar c.toNat = 38 :: (ref ++ [59]) := by
        rw [escapeChar, hentity]
        rfl
      have hunquote : unquote (c :: l) = [UInt8.ofNat c.toNat, 38] ++ unquote l := by
        rw [unquote, List.flatMap_cons, if_pos hspecial]
        rfl
      rw [hchar] at hfuel
      simp only [List.length_cons] at hfuel
      rw [hescape, hchar, List.append_assoc, List.cons_append, List.append_assoc, attLoop,
        if_neg (by decide), if_pos rfl, List.singleton_append, href, hunquote]
      simp only [ih k _ (by omega), List.append_assoc, List.cons_append, List.nil_append]
    · have hunquote : unquote (c :: l) = utf8Bytes c.toNat ++ unquote l := by
        rw [unquote, List.flatMap_cons, if_neg hspecial]
        rfl
      rw [escapeChar_none hspecial] at hfuel
      rw [hescape, escapeChar_none hspecial, List.append_assoc,
        attLoop_bytes (utf8Bytes_ne hspecial) (by omega), ih _ _ (by omega), hunquote,
        List.append_assoc]

/-- The value is the string if nothing was escaped. -/
theorem unquote_iff : unquote l = utf8 l ↔ ∀ c ∈ l, ¬Special c.toNat := by
  have hone : ∀ c : Char, Special c.toNat → (utf8Bytes c.toNat).length = 1 := by
    intro c h
    rw [utf8Bytes, if_pos]
    · rfl
    · unfold Special at h
      omega
  have hle : ∀ l, (utf8 l).length ≤ (unquote l).length := by
    intro l
    induction l with
    | nil => exact Nat.le_refl _
    | cons c l ih =>
      have hutf : utf8 (c :: l) = utf8Bytes c.toNat ++ utf8 l := rfl
      rw [hutf, unquote, List.flatMap_cons, List.length_append, List.length_append]
      split
      · rename_i hspecial
        rw [hone c hspecial]
        exact Nat.add_le_add (Nat.succ_le_succ (Nat.zero_le _)) ih
      · exact Nat.add_le_add_left ih _
  induction l with
  | nil => exact ⟨fun _ _ h => absurd h List.not_mem_nil, fun _ => rfl⟩
  | cons c l ih =>
    have hutf : utf8 (c :: l) = utf8Bytes c.toNat ++ utf8 l := rfl
    rw [List.forall_mem_cons, hutf]
    by_cases hspecial : Special c.toNat
    · have hunquote : unquote (c :: l) = [UInt8.ofNat c.toNat, 38] ++ unquote l := by
        rw [unquote, List.flatMap_cons, if_pos hspecial]
        rfl
      refine ⟨fun h => ?_, fun h => absurd hspecial h.1⟩
      have hlength := congrArg List.length h
      rw [hunquote, List.length_append, List.length_append, hone c hspecial] at hlength
      have hrest := hle l
      simp only [List.length_cons, List.length_nil] at hlength
      omega
    · have hunquote : unquote (c :: l) = utf8Bytes c.toNat ++ unquote l := by
        rw [unquote, List.flatMap_cons, if_neg hspecial]
        rfl
      rw [hunquote]
      exact ⟨fun h => ⟨hspecial, ih.mp (List.append_cancel_left h)⟩, fun h => by rw [ih.mpr h.2]⟩

end Attribute

/-! ## The round trips -/

section RoundTrip
variable {room : ℕ} {l : List Char}

theorem length_utf8 (l : List Char) : l.length ≤ (utf8 l).length := by
  induction l with
  | nil => exact Nat.zero_le _
  | cons c l ih =>
    have hutf : utf8 (c :: l) = utf8Bytes c.toNat ++ utf8 l := rfl
    obtain ⟨b, bs, hb, -⟩ := utf8Bytes_cons c.toNat
    rw [hutf, hb, List.length_append, List.length_cons, List.length_cons]
    omega

variable (room) in
theorem outputEscaped_read (hl : ∀ c ∈ l, XmlChar c ∧ Read c.toNat) :
    outputEscaped room (utf8 l) =
      if l = [] ∨ (escape l).length < room then .done (escape l) else .full := by
  have hlength := length_utf8 l
  have hloop := escapedLoop_append room ((utf8 l).length + 1) [] (s := []) hl (by omega)
  rw [List.append_nil, List.length_nil, Nat.zero_add, List.nil_append] at hloop
  rw [outputEscaped, hloop]
  split
  · cases (utf8 l).length + 1 - l.length <;> rfl
  · rfl

/-- A string with a character that is not read is not written, with room for what is in front of
it. -/
theorem outputEscaped_unread (hl : ∀ c ∈ l, XmlChar c) (hread : ¬∀ c ∈ l, Read c.toNat) :
    ∃ room, 0 < room ∧ outputEscaped room (utf8 l) = .undefined := by
  cases hfind : l.find? fun c => !decide (Read c.toNat) with
  | none =>
    exact absurd (fun c hc => by simpa using List.find?_eq_none.mp hfind c hc) hread
  | some c =>
    obtain ⟨hnot, a, b, rfl, ha⟩ := List.find?_eq_some_iff_append.mp hfind
    have hunread : ¬Read c.toNat := by simpa using hnot
    have hutf : utf8 (a ++ c :: b) = utf8 a ++ (utf8Bytes c.toNat ++ utf8 b) := by
      simp [utf8, utf8EncodeChar_eq]
    have hlength := length_utf8 (a ++ c :: b)
    rw [List.length_append, List.length_cons] at hlength
    have hgood : ∀ x ∈ a, XmlChar x ∧ Read x.toNat := fun x hx =>
      ⟨hl x (List.mem_append_left _ hx), by simpa using ha x hx⟩
    obtain ⟨k, hk⟩ : ∃ k, (utf8 (a ++ c :: b)).length + 1 - a.length = k + 1 :=
      ⟨(utf8 (a ++ c :: b)).length - a.length, by omega⟩
    refine ⟨(escape a).length + 1, Nat.succ_pos _, ?_⟩
    have hloop := escapedLoop_append ((escape a).length + 1)
      ((utf8 (a ++ c :: b)).length + 1) []
      (s := utf8Bytes c.toNat ++ utf8 b) hgood (by omega)
    rw [← hutf, if_pos (.inr (by simp)), hk,
      escapedLoop_cons (hl c (List.mem_append_right _ List.mem_cons_self)), if_neg hunread] at hloop
    exact hloop

theorem read_of_plane {n : ℕ} (h : n < 0x10000) : Read n := .inl h

/-- **Text** comes back if it is in the first plane and begins with no white space. -/
theorem textRoundTrip_iff (s : XmlString) : TextRoundTrip (utf8 s.chars) ↔
    (∀ c ∈ s.chars.head?, ¬Blank c) ∧ ∀ c ∈ s.chars, c.toNat < 0x10000 := by
  constructor
  · intro h
    have name : ElementName := ⟨[65], List.cons_ne_nil _ _, by decide⟩
    have hread : ∀ c ∈ s.chars, Read c.toNat := by
      by_contra hnot
      obtain ⟨room, hpos, hroom⟩ := outputEscaped_unread s.legal hnot
      obtain ⟨out, hout, -⟩ := h room name [] ⟨[], [], [], 0, .xmlNone, []⟩
        (by rw [hroom]; exact Printed.noConfusion)
      rw [hroom] at hout
      exact Printed.noConfusion hout
    have hl : ∀ c ∈ s.chars, XmlChar c ∧ Read c.toNat := fun c hc => ⟨s.legal c hc, hread c hc⟩
    have hwritten := outputEscaped_read ((escape s.chars).length + 1) hl
    rw [if_pos (.inr (Nat.lt_succ_self _))] at hwritten
    obtain ⟨out, hout, hparse⟩ := h _ name [] ⟨[], [], [], 0, .xmlNone, []⟩
      (by rw [hwritten]; exact Printed.noConfusion)
    obtain rfl : escape s.chars = out := Printed.done.inj (hwritten.symm.trans hout)
    -- The white space in front is not in the text that is read.
    generalize hw : s.chars.takeWhile (fun c => decide (Blank c)) = w
    generalize ht : s.chars.dropWhile (fun c => decide (Blank c)) = t
    have hsplit : s.chars = w ++ t := by
      rw [← hw, ← ht, List.takeWhile_append_dropWhile]
    have hblank : ∀ c ∈ w, Blank c := by
      intro c hc
      rw [← hw] at hc
      have hdecide := List.mem_takeWhile_imp hc
      exact of_decide_eq_true hdecide
    have hhead : ∀ c ∈ t.head?, ¬Blank c := by
      intro c hc hblank
      have hnot := List.head?_dropWhile_not (fun c => decide (Blank c)) s.chars
      rw [ht, Option.mem_def.mp hc] at hnot
      simp [hblank] at hnot
    have htext := parseText_escape [] hblank
      (fun c hc => hl c (by rw [hsplit]; exact List.mem_append_right _ hc)) hhead name
      ⟨[], [], [], 0, .xmlNone, []⟩
    rw [← hsplit, hparse] at htext
    obtain ⟨x, hx, hxs⟩ := Option.map_eq_some_iff.mp htext.symm
    obtain rfl := Option.some.inj hxs
    have hlength := reencode_length hx
    have hutf : utf8 s.chars = utf8 w ++ utf8 t := by
      rw [hsplit, utf8, List.flatMap_append]
      rfl
    have hwnil : w = [] := by
      have hle := length_utf8 w
      rw [hutf, List.length_append] at hlength
      exact List.eq_nil_of_length_eq_zero (by omega)
    rw [hwnil, List.nil_append] at hsplit
    rw [hsplit] at hx ⊢
    exact ⟨hhead, reencode_iff.mp hx⟩
  · rintro ⟨hhead, hplane⟩ room name rest p hroom
    have hl : ∀ c ∈ s.chars, XmlChar c ∧ Read c.toNat := fun c hc =>
      ⟨s.legal c hc, read_of_plane (hplane c hc)⟩
    have hwritten := outputEscaped_read room hl
    split at hwritten
    · refine ⟨_, hwritten, ?_⟩
      have htext := parseText_escape rest (w := [])
        (fun _ hc => absurd hc List.not_mem_nil) hl hhead name p
      rw [List.nil_append, reencode_iff.mpr hplane] at htext
      exact htext
    · exact absurd hwritten hroom

theorem attValue_escape (l : List Char) (rest : CString) :
    attValue (34 :: (escape l ++ [34]) ++ rest) = some (some (unquote l, rest)) := by
  have hloop := attLoop_escape ((escape l ++ 34 :: rest).length + 1) [] (l := l) (s := rest)
    (by rw [List.length_append]; omega)
  rw [List.nil_append] at hloop
  have hdata : 34 :: (escape l ++ [34]) ++ rest = 34 :: (escape l ++ 34 :: rest) := by simp
  rw [hdata, attValue, if_pos (.inl rfl), hloop]

/-- **The value of an attribute** comes back if nothing in it is escaped and all of it is read. -/
theorem attributeRoundTrip_iff (s : XmlString) : AttributeRoundTrip (utf8 s.chars) ↔
    ∀ c ∈ s.chars, ¬Special c.toNat ∧ Read c.toNat := by
  constructor
  · intro h
    have hread : ∀ c ∈ s.chars, Read c.toNat := by
      by_contra hnot
      obtain ⟨room, hpos, hroom⟩ := outputEscaped_unread s.legal hnot
      have hquoted : outputQuoted (room + 1) (utf8 s.chars) = .undefined := by
        rw [outputQuoted, if_pos (by omega), Nat.add_sub_cancel, hroom]
      obtain ⟨out, hout, -⟩ := h _ [] (by rw [hquoted]; exact Printed.noConfusion)
      rw [hquoted] at hout
      exact Printed.noConfusion hout
    have hl : ∀ c ∈ s.chars, XmlChar c ∧ Read c.toNat := fun c hc => ⟨s.legal c hc, hread c hc⟩
    have hwritten := outputEscaped_read ((escape s.chars).length + 2) hl
    rw [if_pos (.inr (by omega))] at hwritten
    have hquoted : outputQuoted ((escape s.chars).length + 3) (utf8 s.chars) =
        .done (34 :: (escape s.chars ++ [34])) := by
      rw [outputQuoted, if_pos (by omega), Nat.add_sub_assoc (by decide)]
      simp only [hwritten]
      rw [if_pos (by omega)]
    obtain ⟨out, hout, hparse⟩ := h _ [] (by rw [hquoted]; exact Printed.noConfusion)
    obtain rfl : 34 :: (escape s.chars ++ [34]) = out := Printed.done.inj (hquoted.symm.trans hout)
    rw [attValue_escape] at hparse
    have hvalue : unquote s.chars = utf8 s.chars :=
      congrArg Prod.fst (Option.some.inj (Option.some.inj hparse))
    exact fun c hc => ⟨unquote_iff.mp hvalue c hc, hread c hc⟩
  · intro h room rest hroom
    have hl : ∀ c ∈ s.chars, XmlChar c ∧ Read c.toNat := fun c hc => ⟨s.legal c hc, (h c hc).2⟩
    have hvalue := unquote_iff.mpr fun c hc => (h c hc).1
    have hwritten := outputEscaped_read (room - 1) hl
    unfold outputQuoted at hroom ⊢
    split at hroom
    · rename_i hone
      rw [if_pos hone]
      split at hwritten
      · rw [hwritten] at hroom ⊢
        dsimp only at hroom ⊢
        split at hroom
        · rename_i htwo
          refine ⟨_, if_pos htwo, ?_⟩
          rw [attValue_escape, hvalue]
        · exact absurd rfl hroom
      · rw [hwritten] at hroom
        exact absurd rfl hroom
    · exact absurd rfl hroom

/-- **Character data** come back from a document. -/
theorem character_data (s : XmlString) :
    (TextRoundTrip (utf8 s.chars) ↔
      (∀ c ∈ s.chars.head?, ¬Blank c) ∧ ∀ c ∈ s.chars, c.toNat < 0x10000) ∧
    (AttributeRoundTrip (utf8 s.chars) ↔ ∀ c ∈ s.chars, ¬Special c.toNat ∧ Read c.toNat) :=
  ⟨textRoundTrip_iff s, attributeRoundTrip_iff s⟩

/-- An ampersand is doubled in an attribute, and white space lost in an element. -/
theorem not_character_data :
    ¬AttributeRoundTrip (utf8 ['a', '&']) ∧ ¬TextRoundTrip (utf8 [' ', 'a']) := by
  have hvalue : ∀ c ∈ ['a', '&'], XmlChar c := by
    intro c hc
    simp only [List.mem_cons, List.not_mem_nil, or_false] at hc
    rcases hc with rfl | rfl <;> exact .inr (.inr (.inr (.inl (by decide))))
  have htext : ∀ c ∈ [' ', 'a'], XmlChar c := by
    intro c hc
    simp only [List.mem_cons, List.not_mem_nil, or_false] at hc
    rcases hc with rfl | rfl <;> exact .inr (.inr (.inr (.inl (by decide))))
  refine ⟨fun h => ?_, fun h => ?_⟩
  · have hmem : '&' ∈ ['a', '&'] := by decide
    exact ((attributeRoundTrip_iff ⟨_, hvalue⟩).mp h '&' hmem).1 (.inr (.inr (.inl rfl)))
  · exact ((textRoundTrip_iff ⟨_, htext⟩).mp h).1 ' ' rfl (.inr (.inl rfl))

end RoundTrip

end SeClient
