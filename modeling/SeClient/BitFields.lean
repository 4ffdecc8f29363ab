import SeClient.Integers
import SeClient.XmlToken

/-!
# Fields of bits, and bytes as hex digits

What `output_bits`, `output_bit` and `output_byte` write one after the other is read back in the
same order.  `output_hex` leaves out the zero bytes in front, which `parse_hex` restores.
-/

namespace SeClient
open Bits

/-! ## Fields -/

/-- A field of 24 bits at most, one bit, or a byte. -/
inductive BitField
  | bits (n v : ℕ) (hn : 1 ≤ n ∧ n ≤ 24) (hv : v < 2 ^ n)
  | bit (b : Bool)
  | byte (b : UInt8)

namespace BitField

def width : BitField → ℕ
  | bits n _ _ _ => n
  | bit _ => 1
  | byte _ => 8

def value : BitField → ℕ
  | bits _ v _ _ => v
  | bit b => b.toNat
  | byte b => b.toNat

/-- The function that writes a field. -/
def write (o : OutBits) : BitField → OutBits
  | bits n v _ _ => o.outputBits v n
  | bit b => o.outputBit b
  | byte b => o.outputByte b

/-- The function that reads such a field. -/
def read (p : InBits) : BitField → ℕ × InBits
  | bits n _ _ _ => p.parseBits n
  | bit _ => p.parseBit
  | byte _ => (p.parseByte.1.toNat, p.parseByte.2)

/-- What a field adds to the bits written. -/
def spelled (x : BitField) : List Bool := ofNat x.width x.value

end BitField

/-- Fields are read one after the other. -/
def readFields : List BitField → InBits → List ℕ × InBits
  | [], p => ([], p)
  | x :: fields, p =>
    let r := x.read p
    let s := readFields fields r.2
    (r.1 :: s.1, s.2)

/-- The bits that fields take. -/
def totalWidth (fields : List BitField) : ℕ := (fields.map BitField.width).sum

/-- A buffer of zeros with room for fields from bit `start` on, and `spare` bytes more. -/
def zeroed (start spare : ℕ) (fields : List BitField) : OutBits :=
  ⟨List.replicate ((start + totalWidth fields + 7) / 8 + spare) 0, start / 8, start % 8⟩

section
variable {o : OutBits} {p : InBits} {x : BitField} {fields : List BitField} {r : List Bool}

theorem BitField.value_lt (x : BitField) : x.value < 2 ^ x.width := by
  cases x with
  | bits n v hn hv => exact hv
  | bit b => cases b <;> decide
  | byte b => exact b.toNat_lt

theorem BitField.length_spelled (x : BitField) : x.spelled.length = x.width := length_ofNat

theorem BitField.write_emits (ho : o.Clear) (hroom : o.pos + x.width ≤ 8 * o.buffer.length) :
    OutBits.Emits o (x.write o) x.spelled := by
  cases x with
  | bits n v hn hv => exact OutBits.outputBits_emits ho hv hroom
  | bit b => exact OutBits.outputBit_emits ho hroom
  | byte b => exact OutBits.outputByte_emits ho hroom

theorem length_spelled (fields : List BitField) :
    (fields.flatMap BitField.spelled).length = totalWidth fields := by
  rw [List.length_flatMap]
  exact congrArg List.sum (List.map_congr_left fun x _ => x.length_spelled)

/-- **Fields are written** one behind the other. -/
theorem writeFields_emits (ho : o.Clear)
    (hroom : o.pos + totalWidth fields ≤ 8 * o.buffer.length) :
    OutBits.Emits o (fields.foldl BitField.write o) (fields.flatMap BitField.spelled) := by
  induction fields generalizing o with
  | nil => exact OutBits.Emits.refl ho
  | cons x fields ih =>
    rw [totalWidth, List.map_cons, List.sum_cons] at hroom
    have hx : OutBits.Emits o (x.write o) x.spelled :=
      BitField.write_emits ho (Nat.le_trans (by omega) hroom)
    rw [List.foldl_cons, List.flatMap_cons]
    refine hx.trans (ih hx.clear ?_)
    rw [hx.pos, hx.size, x.length_spelled, Nat.add_assoc]
    exact hroom

/-- **A field is read** where it is spelled. -/
theorem BitField.read_spelled (hp : p.Valid) (h : p.bits = x.spelled ++ r) :
    x.read p = (x.value, p.advance x.width) := by
  have hn : x.width ≤ p.bits.length := by
    rw [h, List.length_append, x.length_spelled]
    exact Nat.le_add_right _ _
  have hs : slice p.rest p.bit x.width = x.spelled := by
    have hslice := (InBits.advance_of_append h).1
    rwa [x.length_spelled] at hslice
  have hv : toNat x.spelled = x.value := by
    rw [spelled, toNat_ofNat, Nat.mod_eq_of_lt x.value_lt]
  cases x with
  | bits n v hbound hlt =>
    -- the field and the bits in front of it fit in the 32 bits that are gathered
    have hwide : (bits n v hbound hlt).value <
        2 ^ (24 + (p.bit + (bits n v hbound hlt).width) % 8) := by
      refine Nat.lt_of_lt_of_le hlt (Nat.pow_le_pow_right (by decide) ?_)
      exact Nat.le_trans hbound.2 (Nat.le_add_right _ _)
    refine (InBits.parseBits_eq hp hn).trans ?_
    rw [hs, hv, Nat.mod_eq_of_lt hwide]
  | bit b =>
    refine (InBits.parseBit_eq hp hn).trans ?_
    change slice p.rest p.bit 1 = _ at hs
    rw [hs, hv]
    rfl
  | byte b =>
    change slice p.rest p.bit 8 = _ at hs
    unfold read
    dsimp only
    rw [InBits.parseByte_eq hp hn, hs, hv]
    exact Prod.ext (congrArg UInt8.toNat UInt8.ofNat_toNat) rfl

/-- **Fields are read** one after the other. -/
theorem readFields_spelled (hp : p.Valid) (h : p.bits = fields.flatMap BitField.spelled ++ r) :
    readFields fields p = (fields.map BitField.value, p.advance (totalWidth fields)) := by
  induction fields generalizing p with
  | nil =>
    unfold readFields totalWidth
    rw [List.map_nil, List.map_nil, List.sum_nil, InBits.advance_zero hp]
  | cons x fields ih =>
    rw [List.flatMap_cons, List.append_assoc] at h
    have hn : x.width ≤ p.bits.length := by
      rw [h, List.length_append, x.length_spelled]
      exact Nat.le_add_right _ _
    have hrest : (p.advance x.width).bits = fields.flatMap BitField.spelled ++ r := by
      have hadvance := (InBits.advance_of_append h).2
      rwa [x.length_spelled] at hadvance
    unfold readFields
    dsimp only
    rw [BitField.read_spelled hp h]
    dsimp only
    rw [ih (hp.advance hn) hrest, InBits.advance_advance]
    rfl

theorem zeroed_clear (start spare : ℕ) (fields : List BitField) :
    (zeroed start spare fields).Clear := by
  refine ⟨Nat.mod_lt _ (by decide), fun i _ => ?_⟩
  have hzero : (zeroed start spare fields).buffer.getD (i / 8) 0 = 0 := by
    unfold zeroed
    rw [List.getD_eq_getElem?_getD, List.getElem?_replicate]
    split_ifs <;> rfl
  rw [bitAt, hzero]
  exact Nat.zero_testBit _

theorem zeroed_pos (start spare : ℕ) (fields : List BitField) :
    (zeroed start spare fields).pos = start := Nat.div_add_mod start 8

theorem zeroed_room (start spare : ℕ) (fields : List BitField) :
    (zeroed start spare fields).pos + totalWidth fields ≤
      8 * (zeroed start spare fields).buffer.length := by
  rw [zeroed_pos, zeroed, List.length_replicate]
  omega

end

/-! ## `output_hex` and `parse_hex` -/

/-- `hex_char` -/
def hexChar (x : ℕ) : UInt8 := if x < 10 then UInt8.ofNat (48 + x) else UInt8.ofNat (97 + (x - 10))

/-- The first loop of `output_hex`: zero bytes in front are left out, but not the last byte. -/
def significant : List UInt8 → List UInt8
  | b :: c :: value => if b = 0 then significant (c :: value) else b :: c :: value
  | value => value

/-- `output_hex`, into `room` bytes. -/
def outputHex (room : ℕ) (value : List UInt8) : Option CString :=
  if room ≤ (significant value).length * 2 then none
  else some ((significant value).flatMap fun x =>
    [hexChar (x.toNat >>> 4), hexChar (x.toNat &&& 0xf)])

/-- The loop of `parse_hex`, with what has been stored in `value`. -/
def parseHexLoop (n : ℕ) (value : List UInt8) : CString → Option (List UInt8 × CString)
  | [] => some (value, [])
  | c :: data =>
    match hexDigit c with
    | none => some (value, c :: data)
    | some x =>
      if value.length = n then none
      else
        match data with
        | [] => none
        | d :: data =>
          match hexDigit d with
          | none => none
          | some y => parseHexLoop n (value ++ [UInt8.ofNat (x <<< 4 ||| y)]) data

/-- `parse_hex`: the `n` bytes of `value` if it returns 1. -/
def parseHex (n : ℕ) (data : CString) : Option (List UInt8) :=
  (parseHexLoop n [] data).bind fun r =>
    if r.1 = [] ∨ trim r.2 ≠ [] then none else some (List.replicate (n - r.1.length) 0 ++ r.1)

section
variable {n : ℕ} {value bytes : List UInt8}

theorem hexDigit_hexChar : ∀ x < 16, hexDigit (hexChar x) = some x := by
  decide

theorem nibbles : ∀ b : UInt8, b.toNat >>> 4 < 16 ∧ b.toNat &&& 0xf < 16 ∧
    UInt8.ofNat (b.toNat >>> 4 <<< 4 ||| b.toNat &&& 0xf) = b := by
  apply forall_byte
  decide +kernel

/-- The digits of bytes are read as these bytes. -/
theorem parseHexLoop_digits (hlength : value.length + bytes.length ≤ n) :
    parseHexLoop n value (bytes.flatMap fun x =>
      [hexChar (x.toNat >>> 4), hexChar (x.toNat &&& 0xf)]) = some (value ++ bytes, []) := by
  induction bytes generalizing value with
  | nil =>
    rw [List.flatMap_nil, List.append_nil]
    rfl
  | cons b bytes ih =>
    obtain ⟨hhigh, hlow, hbyte⟩ := nibbles b
    rw [List.length_cons] at hlength
    rw [List.flatMap_cons, List.cons_append, List.cons_append, List.nil_append, parseHexLoop,
      hexDigit_hexChar _ hhigh]
    dsimp only
    rw [if_neg (by omega), hexDigit_hexChar _ hlow]
    dsimp only
    rw [hbyte, ih (by rw [List.length_append, List.length_singleton]; omega), List.append_assoc]
    rfl

theorem significant_ne (h : value ≠ []) : significant value ≠ [] := by
  induction value using significant.induct with
  | case1 c value ih =>
    rw [significant, if_pos rfl]
    exact ih (List.cons_ne_nil _ _)
  | case2 b c value hzero =>
    rw [significant, if_neg hzero]
    exact List.cons_ne_nil _ _
  | case3 value hshort =>
    rw [significant]
    · exact h
    · exact hshort

/-- What has been left out is zero. -/
theorem replicate_significant (value : List UInt8) :
    (significant value).length ≤ value.length ∧
      List.replicate (value.length - (significant value).length) 0 ++ significant value =
        value := by
  induction value using significant.induct with
  | case1 c value ih =>
    obtain ⟨hle, heq⟩ := ih
    rw [significant, if_pos rfl, List.length_cons, Nat.succ_sub hle, List.replicate_succ,
      List.cons_append, heq]
    exact ⟨Nat.le_succ_of_le hle, rfl⟩
  | case2 b c value hzero =>
    rw [significant, if_neg hzero, Nat.sub_self]
    exact ⟨Nat.le_refl _, rfl⟩
  | case3 value hshort =>
    rw [significant]
    · rw [Nat.sub_self]
      exact ⟨Nat.le_refl _, rfl⟩
    · exact hshort

end

/-- **Fields and bytes come back**: fields that are written from any bit on are read in the same
order up to the same place, and bytes that are written as hex digits are restored. -/
theorem fields_and_hex_exact (start spare : ℕ) (fields : List BitField) (b : UInt8)
    (bs : List UInt8) :
    (readFields fields
        ⟨(fields.foldl BitField.write (zeroed start spare fields)).buffer.drop (start / 8),
          start % 8, false⟩ =
      (fields.map BitField.value,
        ⟨(fields.foldl BitField.write (zeroed start spare fields)).buffer.drop
            (fields.foldl BitField.write (zeroed start spare fields)).ptr,
          (fields.foldl BitField.write (zeroed start spare fields)).bit, false⟩)) ∧
    (outputHex ((b :: bs).length * 2 + 1 + spare) (b :: bs)).isSome ∧
    ∀ room text, outputHex room (b :: bs) = some text →
      parseHex (b :: bs).length text = some (b :: bs) := by
  refine ⟨?_, ?_, fun room text htext => ?_⟩
  · have hclear := zeroed_clear start spare fields
    have hroom := zeroed_room start spare fields
    have hemits := writeFields_emits hclear hroom
    have hpos := hemits.pos
    rw [← hemits.size] at hroom
    rw [zeroed_pos] at hpos hroom
    generalize fields.foldl BitField.write (zeroed start spare fields) = o at hemits hpos hroom
    rw [length_spelled] at hpos
    have hfits : o.Fits := by
      unfold OutBits.Fits
      rw [hpos]
      exact hroom
    obtain ⟨r, hr⟩ := hemits.bits_openAt (OutBits.held_buffer hfits)
    rw [zeroed_pos] at hr
    have hvalid : (InBits.openAt o.buffer start).Valid := InBits.openAt_valid (by omega)
    have hread := readFields_spelled hvalid hr
    have hbit := hemits.clear.bit
    have hplace : o.pos / 8 = o.ptr ∧ o.pos % 8 = o.bit := by
      unfold OutBits.pos
      omega
    rw [InBits.openAt_advance, ← hpos] at hread
    unfold InBits.openAt at hread
    rw [hplace.1, hplace.2] at hread
    exact hread
  · obtain ⟨hle, -⟩ := replicate_significant (b :: bs)
    unfold outputHex
    rw [if_neg (by omega)]
    rfl
  · obtain ⟨hle, hzeros⟩ := replicate_significant (b :: bs)
    unfold outputHex at htext
    split_ifs at htext with hroom
    obtain rfl := Option.some.inj htext
    have hfits : ([] : List UInt8).length + (significant (b :: bs)).length ≤ (b :: bs).length := by
      rw [List.length_nil, Nat.zero_add]
      exact hle
    unfold parseHex
    rw [parseHexLoop_digits hfits, Option.bind_some, List.nil_append, if_neg, hzeros]
    rintro (hnil | htrim)
    · exact significant_ne (List.cons_ne_nil b bs) hnil
    · exact htrim rfl

/-- Of the bytes 0, 0 and 171 two digits are written, and three bytes are read. -/
theorem hex_restored : parseHex 3 [97, 98] = some [0, 0, 171] :=
  (fields_and_hex_exact 0 0 [] 0 [0, 171]).2.2 3 [97, 98] (by decide)

end SeClient
