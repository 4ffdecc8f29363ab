import SeClient.CharacterData

/-!
# UTF-8

`utf8_char` and `utf8_encode` of `utf8.c` against the encoding of characters, and the text that
`xml_token` decodes and encodes again.
-/

namespace SeClient

/-- A string begins with the well-formed bytes of a character: at its end with the NUL. -/
inductive BeginsWith : CString → ℕ → CString → Prop
  | char (c : Char) (rest : CString) : BeginsWith (String.utf8EncodeChar c ++ rest) c.toNat rest
  | nul : BeginsWith [] 0 []

/-- `utf8_char` reads the character a string begins with, and what begins with none it refuses. -/
def DecodesRight (s : CString) : Prop :=
  ∀ n rest, utf8Char 0 0 s = some (n, rest) ↔ BeginsWith s n rest

/-- `utf8_char` reads what `utf8_encode` writes. -/
def EncodesRight (c : Char) : Prop :=
  ∃ bytes, utf8Encode c.toNat = some bytes ∧
    ∀ rest, utf8Char 0 0 (bytes ++ rest) = some (c.toNat, rest)

/-- The text that `xml_token` makes of characters: each is decoded and encoded again. -/
def recode : ℕ → CString → Option CString
  | 0, _ => none
  | _ + 1, [] => some []
  | fuel + 1, s =>
    (utf8Char 0 0 s).bind fun (n, rest) =>
      (utf8Encode n).bind fun bytes => (recode fuel rest).map (bytes ++ ·)

/-- A text comes back. -/
def RecodesRight (l : List Char) : Prop := recode ((utf8 l).length + 1) (utf8 l) = some (utf8 l)

/-! ## What `utf8_char` accepts -/

section Sound
variable {state code n b : ℕ} {c : UInt8} {data rest s : CString}

/-- A byte behind the first. -/
theorem utf8Char_tail (h : utf8Char state code s = some (n, rest)) (hstate : state ≠ 0) :
    ∃ x < 64, ∃ data, s = UInt8.ofNat (x + 0x80) :: data ∧
      ∃ next, utfTable.getD (64 + state + x / 16) 99 = next ∧ next ≠ 99 ∧
        (next = 0 → n = code * 64 + x ∧ rest = data) ∧
          (next ≠ 0 → utf8Char next (code * 64 + x) data = some (n, rest)) := by
  have hbyte : ∀ b < 256, ¬UInt8.ofNat b < 128 → UInt8.ofNat b &&& 0x40 = 0 →
      ∃ x < 64, UInt8.ofNat b = UInt8.ofNat (x + 0x80) := by
    decide +kernel
  cases s with
  | nil =>
    rw [utf8Char, if_pos hstate] at h
    exact absurd h.symm (Option.some_ne_none _)
  | cons c data =>
    by_cases hascii : c < 128
    · rw [utf8Char, if_pos hascii, if_pos hstate] at h
      exact absurd h.symm (Option.some_ne_none _)
    by_cases hbit : c &&& 0x40 = 0
    · obtain ⟨x, hx, hc⟩ := hbyte c.toNat c.toNat_lt (by rwa [UInt8.ofNat_toNat])
        (by rwa [UInt8.ofNat_toNat])
      rw [UInt8.ofNat_toNat] at hc
      subst hc
      rw [utf8Char_continuation hx hstate] at h
      refine ⟨x, hx, data, rfl, _, rfl, ?_⟩
      split at h
      · exact absurd h.symm (Option.some_ne_none _)
      rename_i hreject
      refine ⟨hreject, fun hzero => ?_, fun hnext => ?_⟩
      · rw [if_pos hzero] at h
        obtain ⟨rfl, rfl⟩ := Prod.mk.inj (Option.some.inj h)
        exact ⟨rfl, rfl⟩
      · rwa [if_neg hnext] at h
    · rw [utf8Char, if_neg hascii, if_pos hstate, if_pos hbit] at h
      exact absurd h.symm (Option.some_ne_none _)

/-- The last byte. -/
theorem utf8Char_tail_last (h : utf8Char 9 code s = some (n, rest)) :
    ∃ x < 64, s = UInt8.ofNat (x + 0x80) :: rest ∧ n = code * 64 + x := by
  have hend : ∀ y < 4, utfTable.getD (64 + 9 + y) 99 = 0 := by decide
  obtain ⟨x, hx, data, rfl, next, hnext, -, hzero, -⟩ := utf8Char_tail h (by decide)
  obtain ⟨rfl, rfl⟩ := hzero (hnext.symm.trans (hend _ (by omega)))
  exact ⟨x, hx, rfl, rfl⟩

/-- The byte before the last, in a state that leads to the last one for some of the quarters. -/
theorem utf8Char_tail_two (h : utf8Char state code s = some (n, rest)) (hstate : state ≠ 0)
    (hrow : ∀ y < 4,
      utfTable.getD (64 + state + y) 99 = 9 ∨ utfTable.getD (64 + state + y) 99 = 99) :
    ∃ x < 64, ∃ y < 64, s = UInt8.ofNat (x + 0x80) :: UInt8.ofNat (y + 0x80) :: rest ∧
      n = (code * 64 + x) * 64 + y ∧ utfTable.getD (64 + state + x / 16) 99 = 9 := by
  obtain ⟨x, hx, data, rfl, next, hnext, hreject, -, hmore⟩ := utf8Char_tail h hstate
  obtain hnine | hreject' := hrow (x / 16) (by omega)
  · obtain rfl := hnext.symm.trans hnine
    obtain ⟨y, hy, rfl, rfl⟩ := utf8Char_tail_last (hmore (by decide))
    exact ⟨x, hx, y, hy, rfl, rfl, hnine⟩
  · exact absurd (hnext.symm.trans hreject') hreject

variable (rest) in
theorem beginsWith_bytes (hn : n < 0xd800 ∨ 0xe000 ≤ n ∧ n < 0x110000) :
    BeginsWith (utf8Bytes n ++ rest) n rest := by
  have hchar : (Char.ofNat n).toNat = n := by
    have hvalid : n.isValidChar := by
      unfold Nat.isValidChar
      omega
    rw [Char.ofNat, dif_pos hvalid]
    exact UInt32.toNat_ofNatLT
  have hbegins := BeginsWith.char (Char.ofNat n) rest
  rwa [utf8EncodeChar_eq, hchar] at hbegins

/-- Two bytes. -/
theorem utf8Bytes_two {a x : ℕ} (ha : 2 ≤ a) (ha' : a < 32) (hx : x < 64) :
    utf8Bytes (a * 64 + x) = [UInt8.ofNat (a + 0xc0), UInt8.ofNat (x + 0x80)] := by
  rw [utf8Bytes, if_neg (by omega), if_pos (by omega), show (a * 64 + x) / 64 % 0x20 = a by omega,
    show (a * 64 + x) % 0x40 = x by omega]

/-- Three bytes. -/
theorem utf8Bytes_three {a x y : ℕ} (ha : a < 16) (hx : x < 64) (hy : y < 64)
    (hlong : a ≠ 0 ∨ 32 ≤ x) : utf8Bytes ((a * 64 + x) * 64 + y) =
      [UInt8.ofNat (a + 0xe0), UInt8.ofNat (x + 0x80), UInt8.ofNat (y + 0x80)] := by
  rw [utf8Bytes, if_neg (by omega), if_neg (by omega), if_pos (by omega),
    show ((a * 64 + x) * 64 + y) / 4096 % 0x10 = a by omega,
    show ((a * 64 + x) * 64 + y) / 64 % 0x40 = x by omega,
    show ((a * 64 + x) * 64 + y) % 0x40 = y by omega]

/-- Four bytes. -/
theorem utf8Bytes_four {a x y z : ℕ} (ha : a < 8) (hx : x < 64) (hy : y < 64) (hz : z < 64)
    (hlong : a ≠ 0 ∨ 16 ≤ x) : utf8Bytes (((a * 64 + x) * 64 + y) * 64 + z) =
      [UInt8.ofNat (a + 0xf0), UInt8.ofNat (x + 0x80), UInt8.ofNat (y + 0x80),
        UInt8.ofNat (z + 0x80)] := by
  rw [utf8Bytes, if_neg (by omega), if_neg (by omega), if_neg (by omega),
    show (((a * 64 + x) * 64 + y) * 64 + z) / 262144 % 0x08 = a by omega,
    show (((a * 64 + x) * 64 + y) * 64 + z) / 4096 % 0x40 = x by omega,
    show (((a * 64 + x) * 64 + y) * 64 + z) / 64 % 0x40 = y by omega,
    show (((a * 64 + x) * 64 + y) * 64 + z) % 0x40 = z by omega]

/-- A first byte of more than one, `b` less than `100`. -/
theorem utf8Char_first (hb : 0xc0 ≤ b) (hb' : b < 0x100)
    (h : utf8Char 0 0 (UInt8.ofNat b :: data) = some (n, rest)) :
    0xc2 ≤ b ∧ b < 0xf5 ∧ utf8Char (leadState b) (leadBits b) data = some (n, rest) := by
  have hfacts : ∀ b < 0x100, 0xc0 ≤ b → ¬UInt8.ofNat b < 128 ∧ UInt8.ofNat b &&& 0x40 ≠ 0 ∧
      (b < 0xc2 ∨ 0xf5 ≤ b →
        utfTable.getD (64 + utfTable.getD (UInt8.ofNat b ^^^ 0xc0).toNat 99) 99 = 99) := by
    decide +kernel
  obtain ⟨hascii, hbit, hreject⟩ := hfacts b hb' hb
  by_cases hlegal : 0xc2 ≤ b ∧ b < 0xf5
  · rw [utf8Char_lead hlegal] at h
    exact ⟨hlegal.1, hlegal.2, h⟩
  · have hnone : utf8Char 0 0 (UInt8.ofNat b :: data) = none := by
      simp only [utf8Char, if_neg hascii, ne_eq, not_true_eq_false, if_false, hbit,
        not_false_eq_true, if_true, hreject (by omega)]
    rw [hnone] at h
    exact absurd h.symm (Option.some_ne_none _)

/-- **Soundness**: what `utf8_char` reads is well-formed. -/
theorem utf8Char_sound (h : utf8Char 0 0 s = some (n, rest)) : BeginsWith s n rest := by
  cases s with
  | nil =>
    obtain ⟨rfl, rfl⟩ := Prod.mk.inj (Option.some.inj h)
    exact .nul
  | cons c data =>
    by_cases hascii : c < 128
    · rw [utf8Char_ascii hascii] at h
      obtain ⟨rfl, rfl⟩ := Prod.mk.inj (Option.some.inj h)
      have hlt : c.toNat < 128 := hascii
      have hbegins := beginsWith_bytes data (n := c.toNat) (by omega)
      rwa [utf8Bytes, if_pos (by omega), UInt8.ofNat_toNat] at hbegins
    by_cases hbit : c &&& 0x40 = 0
    · simp only [utf8Char, if_neg hascii, ne_eq, not_true_eq_false, if_false, hbit] at h
      exact absurd h.symm (Option.some_ne_none _)
    have hrange : ∀ b < 0x100, ¬UInt8.ofNat b < 128 → UInt8.ofNat b &&& 0x40 ≠ 0 → 0xc0 ≤ b := by
      decide +kernel
    have hlow := hrange c.toNat c.toNat_lt (by rwa [UInt8.ofNat_toNat]) (by rwa [UInt8.ofNat_toNat])
    have hhigh : c.toNat < 0x100 := c.toNat_lt
    rw [← UInt8.ofNat_toNat (x := c)] at h ⊢
    generalize c.toNat = b at *
    obtain ⟨hlow, hhigh, h⟩ := utf8Char_first hlow hhigh h
    by_cases htwo : b < 0xe0
    · have hstate : ∀ b < 0xe0, 0xc2 ≤ b → leadState b = 9 := by decide +kernel
      rw [hstate b htwo hlow, leadBits, if_pos htwo] at h
      obtain ⟨x, hx, rfl, rfl⟩ := utf8Char_tail_last h
      have hbegins := beginsWith_bytes rest (n := (b - 0xc0) * 64 + x) (by omega)
      rwa [utf8Bytes_two (by omega) (by omega) hx, Nat.sub_add_cancel (by omega)] at hbegins
    by_cases hthree : b < 0xf0
    · have hrow : ∀ a < 16, leadState (a + 0xe0) ≠ 0 ∧ ∀ y < 4,
          (utfTable.getD (64 + leadState (a + 0xe0) + y) 99 = 9 ∧ (a ≠ 0 ∨ 2 ≤ y) ∧
              (a ≠ 13 ∨ y < 2) ∨
            utfTable.getD (64 + leadState (a + 0xe0) + y) 99 = 99) := by
        decide +kernel
      obtain ⟨a, rfl⟩ : ∃ a, b = a + 0xe0 := ⟨b - 0xe0, by omega⟩
      obtain ⟨hstate, hrow⟩ := hrow a (by omega)
      rw [leadBits, if_neg htwo, if_pos hthree, Nat.add_sub_cancel] at h
      obtain ⟨x, hx, y, hy, rfl, rfl, hnine⟩ := utf8Char_tail_two h hstate fun y hy =>
        (hrow y hy).imp_left And.left
      obtain ⟨-, hlong, hsurrogate⟩ | hreject := hrow (x / 16) (by omega)
      · have hbegins := beginsWith_bytes rest (n := (a * 64 + x) * 64 + y) (by omega)
        rwa [utf8Bytes_three (by omega) hx hy (by omega)] at hbegins
      · rw [hnine] at hreject
        exact absurd hreject (by decide)
    · have hrow : ∀ a < 5, leadState (a + 0xf0) ≠ 0 ∧ ∀ y < 4,
          (utfTable.getD (64 + leadState (a + 0xf0) + y) 99 = 17 ∧ (a ≠ 0 ∨ 1 ≤ y) ∧
              (a ≠ 4 ∨ y < 1) ∨
            utfTable.getD (64 + leadState (a + 0xf0) + y) 99 = 99) := by
        decide +kernel
      have hthird : ∀ y < 4, utfTable.getD (64 + 17 + y) 99 = 9 ∨
          utfTable.getD (64 + 17 + y) 99 = 99 := by
        decide +kernel
      obtain ⟨a, rfl⟩ : ∃ a, b = a + 0xf0 := ⟨b - 0xf0, by omega⟩
      obtain ⟨hstate, hrow⟩ := hrow a (by omega)
      rw [leadBits, if_neg htwo, if_neg hthree, Nat.add_sub_cancel] at h
      obtain ⟨x, hx, data, rfl, next, hnext, hreject, -, hmore⟩ := utf8Char_tail h hstate
      obtain ⟨hnine, hlong, hplane⟩ | hreject' := hrow (x / 16) (by omega)
      · obtain rfl := hnext.symm.trans hnine
        obtain ⟨y, hy, z, hz, rfl, rfl, -⟩ :=
          utf8Char_tail_two (hmore (by decide)) (by decide) hthird
        have hbegins := beginsWith_bytes rest (n := ((a * 64 + x) * 64 + y) * 64 + z)
          (by omega)
        rwa [utf8Bytes_four (by omega) hx hy hz (by omega)] at hbegins
      · exact absurd (hnext.symm.trans hreject') hreject

end Sound

/-! ## The results -/

section Codec
variable {s rest : CString} {c : Char} {l : List Char}

theorem scalar (c : Char) : c.toNat < 0xd800 ∨ 0xe000 ≤ c.toNat ∧ c.toNat < 0x110000 := by
  have hvalid : c.toNat.isValidChar := c.valid
  unfold Nat.isValidChar at hvalid
  omega

/-- The character a string begins with is read, but for a third byte of `a0` or more in four. -/
theorem decodesRight_iff :
    DecodesRight s ↔ ∀ c rest, s = String.utf8EncodeChar c ++ rest → Read c.toNat := by
  constructor
  · rintro h c rest rfl
    have hread := (h c.toNat rest).mpr (.char c rest)
    rw [utf8EncodeChar_eq, utf8Char_bytes rest (scalar c)] at hread
    by_contra hnot
    rw [if_neg hnot] at hread
    exact absurd hread.symm (Option.some_ne_none _)
  · intro h n rest
    refine ⟨utf8Char_sound, fun hbegins => ?_⟩
    cases hbegins with
    | char c rest =>
      rw [utf8EncodeChar_eq, utf8Char_bytes rest (scalar c), if_pos (h c rest rfl)]
    | nul => rfl

/-- What is written is read in the first plane. -/
theorem encodesRight_iff : EncodesRight c ↔ c.toNat < 0x10000 := by
  constructor
  · rintro ⟨bytes, hbytes, hread⟩
    by_contra hplane
    obtain ⟨hlength, hne⟩ := utf8Encode_other (by omega) hbytes
    have hbegins := utf8Char_sound (hread [])
    rw [List.append_nil] at hbegins
    generalize hn : c.toNat = n at hbegins hne
    generalize hempty : ([] : CString) = rest at hbegins
    cases hbegins with
    | char c' rest =>
      rw [← hempty, List.append_nil, utf8EncodeChar_eq] at hne
      exact hne rfl
    | nul => exact absurd hlength (by decide)
  · intro hplane
    refine ⟨_, utf8Encode_plane hplane, fun rest => ?_⟩
    rw [utf8Char_bytes rest (scalar c), if_pos (.inl hplane)]

/-- One character of a recoding. -/
theorem recode_cons (c : Char) (l : List Char) (k : ℕ) :
    recode (k + 1) (utf8 (c :: l)) = if Read c.toNat then
      (utf8Encode c.toNat).bind fun bytes => (recode k (utf8 l)).map (bytes ++ ·) else none := by
  have hutf : utf8 (c :: l) = utf8Bytes c.toNat ++ utf8 l := rfl
  obtain ⟨b, bs, hb, -⟩ := utf8Bytes_cons c.toNat
  have hstep : recode (k + 1) (utf8 (c :: l)) = (utf8Char 0 0 (utf8 (c :: l))).bind
      fun (n, rest) => (utf8Encode n).bind fun bytes => (recode k rest).map (bytes ++ ·) := by
    rw [hutf, hb]
    rfl
  rw [hstep, hutf, utf8Char_bytes _ (scalar c)]
  by_cases hread : Read c.toNat
  · rw [if_pos hread, if_pos hread, Option.bind_some]
  · rw [if_neg hread, if_neg hread]
    rfl

theorem recode_read {l : List Char} {fuel : ℕ} (hfuel : l.length < fuel)
    (h : ∀ c ∈ l, Read c.toNat) : recode fuel (utf8 l) = reencode l := by
  induction l generalizing fuel with
  | nil =>
    obtain ⟨k, rfl⟩ : ∃ k, fuel = k + 1 := ⟨fuel - 1, (Nat.sub_add_cancel hfuel).symm⟩
    rfl
  | cons c l ih =>
    obtain ⟨k, rfl⟩ : ∃ k, fuel = k + 1 := ⟨fuel - 1, (Nat.sub_add_cancel (by omega)).symm⟩
    rw [List.length_cons] at hfuel
    obtain ⟨hc, hl⟩ := List.forall_mem_cons.mp h
    rw [recode_cons, if_pos hc, ih (by omega) hl]
    rfl

theorem recode_unread {l : List Char} {fuel : ℕ} (hfuel : l.length < fuel)
    (h : ¬∀ c ∈ l, Read c.toNat) : recode fuel (utf8 l) = none := by
  induction l generalizing fuel with
  | nil => exact absurd (fun c hc => absurd hc List.not_mem_nil) h
  | cons c l ih =>
    obtain ⟨k, rfl⟩ : ∃ k, fuel = k + 1 := ⟨fuel - 1, (Nat.sub_add_cancel (by omega)).symm⟩
    rw [List.length_cons] at hfuel
    rw [recode_cons]
    by_cases hc : Read c.toNat
    · rw [if_pos hc, ih (by omega) fun hl => h (List.forall_mem_cons.mpr ⟨hc, hl⟩)]
      cases utf8Encode c.toNat with
      | none => rfl
      | some bytes => rfl
    · rw [if_neg hc]

/-- A text comes back in the first plane. -/
theorem recodesRight_iff : RecodesRight l ↔ ∀ c ∈ l, c.toNat < 0x10000 := by
  have hlength : l.length < (utf8 l).length + 1 := Nat.lt_succ_of_le (length_utf8 l)
  unfold RecodesRight
  constructor
  · intro h
    by_cases hall : ∀ c ∈ l, Read c.toNat
    · rw [recode_read hlength hall] at h
      exact reencode_iff.mp h
    · rw [recode_unread hlength hall] at h
      exact absurd h.symm (Option.some_ne_none _)
  · intro h
    rw [recode_read hlength fun c hc => .inl (h c hc)]
    exact reencode_iff.mpr h

/-- **The codec** is right for the strings that do not begin with four bytes whose third is `a0` or
more, and for the characters of the first plane. -/
theorem utf8_codec (s : CString) (c : Char) (l : List Char) :
    (DecodesRight s ↔ ∀ c rest, s = String.utf8EncodeChar c ++ rest →
      ¬(0x10000 ≤ c.toNat ∧ 32 ≤ c.toNat / 64 % 64)) ∧
    (EncodesRight c ↔ c.toNat < 0x10000) ∧
    (RecodesRight l ↔ ∀ c ∈ l, c.toNat < 0x10000) := by
  refine ⟨?_, encodesRight_iff, recodesRight_iff⟩
  have hread : ∀ n, Read n ↔ ¬(0x10000 ≤ n ∧ 32 ≤ n / 64 % 64) := by
    intro n
    unfold Read
    omega
  simp only [decodesRight_iff, hread]

/-- U+1F914 is refused, and so is what is written of it. -/
theorem not_utf8_codec : ¬DecodesRight (String.utf8EncodeChar (Char.ofNat 0x1f914)) ∧
    ¬EncodesRight (Char.ofNat 0x1f914) ∧ ¬RecodesRight [Char.ofNat 0x1f914] := by
  refine ⟨fun h => ?_, fun h => ?_, fun h => ?_⟩
  · exact absurd (decodesRight_iff.mp h _ [] (List.append_nil _).symm) (by decide)
  · exact absurd (encodesRight_iff.mp h) (by decide)
  · exact absurd (recodesRight_iff.mp h _ List.mem_cons_self) (by decide)

end Codec

end SeClient
