import SeClient.HostAddresses
import SeClient.Numerals
import SeClient.XmlItems
import SeClient.XmlPieces

/-!
# The values of the XML drivers

What is stored for an entry of simple type is written as a text, and the text is read as what was
stored.
-/

namespace SeClient

/-- `xml_token` and the fields of `XmlParser`.  Where the code is not defined the token is invalid,
so that it is not read any further. -/
def xmlSource : XmlSource XmlParser where
  token := fun p => (xmlToken p).getD (.xmlInvalid, p)
  name := XmlParser.name
  content := XmlParser.content
  attr := fun p name => attrValue p.attr name
  integer := fun t data => (parseInteger t data).getD none
  hex := fun n data => ((parseHex n data).isSome, parseHex n data)
  done := fun p => { p with content := [] }

/-- The integers of a type. -/
def XsType.integer : XsType → Option XsInteger
  | .long => some .long
  | .int => some .int
  | .short => some .short
  | .byte => some .byte
  | .ulong => some .ulong
  | .uint => some .uint
  | .ushort => some .ushort
  | .ubyte => some .ubyte
  | _ => none

/-- A text that the tokenizer reads as it is. -/
def Exchanged (l : List Char) : Prop := ∀ c ∈ l, XmlChar c ∧ c.toNat < 0x10000

theorem escapedText_exchanged {l : List Char} (hl : Exchanged l) :
    escapedText (utf8 l) = escape l :=
  escapedText_utf8 fun c hc => ⟨(hl c hc).1, Or.inl (hl c hc).2⟩

/-- What is stored for the entry is of its type. -/
def SchemaElement.Holds (se : SchemaElement) (w : Stored) : Prop :=
  match se.xsType with
  | .null => False
  | .string => ∃ l, w = .value (.text (utf8 l)) ∧ Exchanged l ∧
      (se.xsLength ≠ 0 → (utf8 l).length < se.xsLength)
  | .anyURI => ∃ l, w = .value (.text (utf8 l)) ∧ Exchanged l
  | .boolean => w = .flag ∨ w = .nothing
  | .hexBinary => ∃ b bs, w = .value (.binary (b :: bs)) ∧ (b :: bs).length = se.xsLength
  | xs => ∃ t x, xs.integer = some t ∧ w = .value (.number x) ∧ t.InRange x

/-! ## Texts that need no escape -/

section LiteralByte
variable {s : CString} {z x : ℤ}

/-- Digits, small letters and the minus sign. -/
def LiteralByte (b : UInt8) : Prop :=
  48 ≤ b.toNat ∧ b.toNat ≤ 57 ∨ 97 ≤ b.toNat ∧ b.toNat ≤ 122 ∨ b.toNat = 45

instance (b : UInt8) : Decidable (LiteralByte b) := inferInstanceAs (Decidable (_ ∨ _))

theorem ascii_char : ∀ n < 128, (Char.ofNat n).toNat = n := by decide

theorem literal_text (h : ∀ b ∈ s, LiteralByte b) :
    ∃ l, s = utf8 l ∧ s = escape l ∧ Exchanged l := by
  induction s with
  | nil => exact ⟨[], rfl, rfl, fun c hc => absurd hc List.not_mem_nil⟩
  | cons b s ih =>
    obtain ⟨hb, hs⟩ := List.forall_mem_cons.1 h
    obtain ⟨l, hutf, hescape, hl⟩ := ih hs
    have hsmall : b.toNat < 128 ∧ 32 < b.toNat ∧ b.toNat ≠ 60 ∧ b.toNat ≠ 62 := by
      unfold LiteralByte at hb
      omega
    have hchar : (Char.ofNat b.toNat).toNat = b.toNat := ascii_char _ hsmall.1
    have hbytes : utf8Bytes b.toNat = [b] := by
      rw [utf8Bytes, if_pos (by omega), UInt8.ofNat_toNat]
    have hspecial : ¬Special b.toNat := by
      unfold Special
      unfold LiteralByte at hb
      omega
    refine ⟨Char.ofNat b.toNat :: l, ?_, ?_, ?_⟩
    · rw [utf8, List.flatMap_cons, utf8EncodeChar_eq, hchar, hbytes, hutf]
      rfl
    · rw [escape, List.flatMap_cons, hchar, escapeChar_none hspecial, hbytes]
      exact congrArg (b :: ·) hescape
    · refine List.forall_mem_cons.2 ⟨⟨?_, by rw [hchar]; omega⟩, hl⟩
      unfold XmlChar
      rw [hchar]
      omega

theorem decimalText_neg (hz : z < 0) : decimalText z = 45 :: decimalText (z.natAbs : ℤ) := by
  have hnot : ¬(z.natAbs : ℤ) < 0 := by omega
  unfold decimalText
  dsimp only
  rw [if_pos hz, if_neg hnot, Int.natAbs_natCast]

theorem digit_literal {c : UInt8} (hc : digit c = true) : LiteralByte c := by
  have hrange : 48 ≤ c ∧ c ≤ 57 := by simpa [digit] using hc
  exact Or.inl hrange

theorem decimalText_literal (z : ℤ) : ∀ b ∈ decimalText z, LiteralByte b := by
  have hdigits : ∀ n : ℕ, ∀ b ∈ decimalText (n : ℤ), LiteralByte b := fun n b hb =>
    digit_literal ((decimalText_digits n).1 b hb)
  by_cases hz : z < 0
  · rw [decimalText_neg hz]
    exact List.forall_mem_cons.2 ⟨by decide, hdigits _⟩
  · rw [← Int.natAbs_of_nonneg (Int.not_lt.1 hz)]
    exact hdigits _

theorem hexBytes_literal (value : List UInt8) : ∀ b ∈ hexBytes value, LiteralByte b := by
  have hchar : ∀ n < 16, LiteralByte (hexChar n) := by decide
  intro b hb
  obtain ⟨y, -, hb⟩ := List.mem_flatMap.1 hb
  obtain ⟨hhigh, hlow, -⟩ := nibbles y
  rcases List.mem_cons.1 hb with rfl | hb
  · exact hchar _ hhigh
  · rw [List.mem_singleton.1 hb]
    exact hchar _ hlow

/-- A number of a type is read as it was printed. -/
theorem parseInteger_decimalText {t : XsInteger} (hx : t.InRange x) :
    parseInteger t (decimalText x) = some (some x) := by
  have hall : ∀ n : ℕ, (decimalText (n : ℤ)).takeWhile digit = decimalText (n : ℤ) ∧
      trim ((decimalText (n : ℤ)).dropWhile digit) = [] := by
    intro n
    have hdigits := (decimalText_digits n).1
    rw [List.takeWhile_eq_self_iff.2 hdigits, List.dropWhile_eq_nil_iff.2 hdigits]
    exact ⟨rfl, rfl⟩
  by_cases hneg : x < 0
  · have hsigned : t.signed = true := by
      by_contra hunsigned
      rw [XsInteger.InRange, if_neg hunsigned] at hx
      omega
    obtain ⟨htake, hdrop⟩ := hall x.natAbs
    obtain ⟨hdigits, hne⟩ := decimalText_digits x.natAbs
    have hvalue : (-(decimal (decimalText (x.natAbs : ℤ)) : ℤ)) = x := by
      rw [decimal_decimalText]
      omega
    rw [decimalText_neg hneg]
    generalize decimalText (x.natAbs : ℤ) = ds at htake hdrop hdigits hne hvalue
    obtain ⟨c, ds, rfl⟩ := List.exists_cons_of_ne_nil hne
    rw [parseInteger_minus hsigned (hdigits c List.mem_cons_self), htake, if_pos hdrop, hvalue,
      (t.wrap_iff x).2 hx]
  · obtain ⟨n, rfl⟩ := Int.eq_ofNat_of_zero_le (Int.not_lt.1 hneg)
    obtain ⟨htake, hdrop⟩ := hall n
    obtain ⟨hdigits, hne⟩ := decimalText_digits n
    have hvalue : (decimal (decimalText (n : ℤ)) : ℤ) = n := by rw [decimal_decimalText]
    generalize decimalText (n : ℤ) = ds at htake hdrop hdigits hne hvalue
    obtain ⟨c, ds, rfl⟩ := List.exists_cons_of_ne_nil hne
    rw [parseInteger_digit (hdigits c List.mem_cons_self), htake, if_pos hdrop, hvalue,
      (t.wrap_iff n).2 hx]

/-- Bytes are read as they were printed. -/
theorem parseHex_hexBytes (b : UInt8) (bs : List UInt8) :
    parseHex (b :: bs).length (hexBytes (b :: bs)) = some (b :: bs) := by
  obtain ⟨hle, hzeros⟩ := replicate_significant (b :: bs)
  have hfits : ([] : List UInt8).length + (significant (b :: bs)).length ≤ (b :: bs).length := by
    rwa [List.length_nil, Nat.zero_add]
  unfold parseHex hexBytes
  rw [parseHexLoop_digits hfits, Option.bind_some, List.nil_append, if_neg, hzeros]
  rintro (hnil | htrim)
  · exact significant_ne (List.cons_ne_nil b bs) hnil
  · exact htrim rfl

end LiteralByte

/-! ## What is stored -/

section Values
variable {S : Schema} {se : SchemaElement} {w : Stored} {i : ℕ}

/-- An integer of a type that has them. -/
theorem SchemaElement.Holds.number (h : se.Holds w) {t : XsInteger}
    (ht : se.xsType.integer = some t) : ∃ x, w = .value (.number x) ∧ t.InRange x := by
  unfold SchemaElement.Holds at h
  cases htype : se.xsType <;> rw [htype] at h ht <;> first
    | (simp [XsType.integer] at ht; done)
    | (obtain ⟨t', x, ht', rfl, hx⟩ := h
       exact ⟨x, rfl, Option.some.inj (ht'.symm.trans ht) ▸ hx⟩)

/-- **What is written** is the text of what is stored. -/
theorem SchemaElement.Holds.written (h : se.Holds w) :
    ∃ l, w.spell = utf8 l ∧ se.valueText w = escape l ∧ Exchanged l := by
  have hliteral : ∀ s : CString, (∀ b ∈ s, LiteralByte b) → w.spell = s → se.valueText w = s →
      ∃ l, w.spell = utf8 l ∧ se.valueText w = escape l ∧ Exchanged l := by
    intro s hs hspell htext
    obtain ⟨l, hutf, hescape, hl⟩ := literal_text hs
    exact ⟨l, hspell.trans hutf, htext.trans hescape, hl⟩
  have hnumber : ∀ t, se.xsType.integer = some t → se.valueText w = decimalText w.writtenNumber →
      ∃ l, w.spell = utf8 l ∧ se.valueText w = escape l ∧ Exchanged l := by
    intro t ht htext
    obtain ⟨x, rfl, -⟩ := h.number ht
    exact hliteral _ (decimalText_literal x) rfl htext
  have hall := h
  unfold SchemaElement.Holds at h
  unfold SchemaElement.valueText at hnumber hliteral ⊢
  cases htype : se.xsType with
  | null =>
    rw [htype] at h
    exact h.elim
  | string =>
    rw [htype] at h
    obtain ⟨l, rfl, hl, -⟩ := h
    exact ⟨l, rfl, escapedText_exchanged hl, hl⟩
  | anyURI =>
    rw [htype] at h
    obtain ⟨l, rfl, hl⟩ := h
    exact ⟨l, rfl, escapedText_exchanged hl, hl⟩
  | boolean =>
    rw [htype] at h hliteral
    rcases h with rfl | rfl
    · exact hliteral _ (by decide) rfl rfl
    · exact hliteral _ (by decide) rfl rfl
  | hexBinary =>
    rw [htype] at h hliteral
    obtain ⟨b, bs, rfl, -⟩ := h
    exact hliteral _ (hexBytes_literal (b :: bs)) rfl rfl
  | long => rw [htype] at hnumber; exact hnumber _ rfl rfl
  | int => rw [htype] at hnumber; exact hnumber _ rfl rfl
  | short => rw [htype] at hnumber; exact hnumber _ rfl rfl
  | byte => rw [htype] at hnumber; exact hnumber _ rfl rfl
  | ulong => rw [htype] at hnumber; exact hnumber _ rfl rfl
  | uint => rw [htype] at hnumber; exact hnumber _ rfl rfl
  | ushort => rw [htype] at hnumber; exact hnumber _ rfl rfl
  | ubyte => rw [htype] at hnumber; exact hnumber _ rfl rfl

/-- What is stored can be written. -/
theorem SchemaElement.Holds.writable (h : se.Holds w) : se.Writable w := by
  unfold SchemaElement.Holds at h
  refine ⟨fun htype => ?_, fun htype => ?_, fun htype => ?_⟩
  · rw [htype] at h
    exact h
  · rcases htype with htype | htype
    · rw [htype] at h
      obtain ⟨l, rfl, hl, -⟩ := h
      exact ⟨l, rfl, fun c hc => ⟨(hl c hc).1, Or.inl (hl c hc).2⟩⟩
    · rw [htype] at h
      obtain ⟨l, rfl, hl⟩ := h
      exact ⟨l, rfl, fun c hc => ⟨(hl c hc).1, Or.inl (hl c hc).2⟩⟩
  · rw [htype] at h
    obtain ⟨b, bs, rfl, -⟩ := h
    exact List.cons_ne_nil b bs

/-- **What is read** is what is stored. -/
theorem SchemaElement.Holds.legible (h : (S.element i).Holds w) : Legible S xmlSource i w := by
  intro f hse hptr
  have hnumber : ∀ t, (S.element i).xsType.integer = some t →
      xmlSource.number t w.spell = (true, w) := by
    intro t ht
    obtain ⟨x, rfl, hx⟩ := h.number ht
    have hvalue : xmlSource.integer t (decimalText x) = some x := by
      show (parseInteger t (decimalText x)).getD none = some x
      rw [parseInteger_decimalText hx]
      rfl
    show xmlSource.number t (decimalText x) = _
    rw [XmlSource.number, hvalue]
  unfold SchemaElement.Holds at h
  unfold xmlParseValue
  rw [hse, hptr]
  dsimp only
  cases htype : (S.element i).xsType with
  | null =>
    rw [htype] at h
    exact h.elim
  | string =>
    rw [htype] at h
    obtain ⟨l, rfl, -, hlength⟩ := h
    refine if_neg ?_
    rintro ⟨hne, hlong⟩
    have hlong : (utf8 l).length > (S.element i).xsLength - 1 := hlong
    have hshort := hlength hne
    omega
  | anyURI =>
    rw [htype] at h
    obtain ⟨l, rfl, -⟩ := h
    rfl
  | boolean =>
    rw [htype] at h
    rcases h with rfl | rfl <;> rfl
  | hexBinary =>
    rw [htype] at h
    obtain ⟨b, bs, rfl, hlength⟩ := h
    have hhex : xmlSource.hex (S.element i).xsLength (hexBytes (b :: bs)) =
        (true, some (b :: bs)) := by
      show ((parseHex (S.element i).xsLength (hexBytes (b :: bs))).isSome, _) = _
      rw [← hlength, parseHex_hexBytes]
      rfl
    have hspell : (Stored.value (.binary (b :: bs))).spell = hexBytes (b :: bs) := rfl
    rw [hspell, hhex]
  | long => rw [htype] at hnumber; rw [hnumber _ rfl]
  | int => rw [htype] at hnumber; rw [hnumber _ rfl]
  | short => rw [htype] at hnumber; rw [hnumber _ rfl]
  | byte => rw [htype] at hnumber; rw [hnumber _ rfl]
  | ulong => rw [htype] at hnumber; rw [hnumber _ rfl]
  | uint => rw [htype] at hnumber; rw [hnumber _ rfl]
  | ushort => rw [htype] at hnumber; rw [hnumber _ rfl]
  | ubyte => rw [htype] at hnumber; rw [hnumber _ rfl]

end Values
end SeClient
