import Mathlib.Data.List.TakeWhile
import SeClient.XmlToken

/-!
# Numerals

The integers that `parse_value` of `xml_parse.c` reads from a text.  `number64` counts modulo
`2 ^ 64`, a negative number is the product with -1, and what is assigned to the field is what fits
it, all as two's complement.
-/

namespace SeClient

/-- The XML types of integers. -/
inductive XsInteger
  | long | int | short | byte | ulong | uint | ushort | ubyte
deriving DecidableEq, Repr

namespace XsInteger

def signed : XsInteger → Bool
  | long | int | short | byte => true
  | ulong | uint | ushort | ubyte => false

/-- The bits of the field. -/
def width : XsInteger → ℕ
  | long | ulong => 64
  | int | uint => 32
  | short | ushort => 16
  | byte | ubyte => 8

end XsInteger

/-! ## `util.c` and `xml_parse.c` -/

/-- `number64` -/
def number64 (data : CString) : Option (ℕ × CString) :=
  match data.takeWhile digit with
  | [] => none
  | ds => some (ds.foldl (fun y c => (y * 10 + (c.toNat - 48)) % 2 ^ 64) 0, data.dropWhile digit)

/-- `unsigned_int`: `none` when `trim` follows the `NULL` that `number64` has returned. -/
def unsignedInt (data : CString) : Option (Option ℕ) :=
  match number64 data with
  | none => none
  | some (y, rest) => some (if trim rest = [] then some y else none)

/-- `signed_int` -/
def signedInt (data : CString) : Option (Option ℤ) :=
  let (sign, data) := match data with
    | 45 :: data => (-1, data)
    | data => ((1 : ℤ), data)
  (unsignedInt data).map fun r =>
    r.map fun (y : ℕ) => ((y : ℤ).bmod (2 ^ 64) * sign).bmod (2 ^ 64)

/-- `parse_value`, for an integer: what is stored when it returns 1. -/
def parseInteger (t : XsInteger) (data : CString) : Option (Option ℤ) :=
  if t.signed then (signedInt data).map fun r => r.map fun sx => sx.bmod (2 ^ t.width)
  else (unsignedInt data).map fun r => r.map fun (ux : ℕ) => (ux : ℤ) % 2 ^ t.width

/-! ## Decimal numerals -/

/-- A numeral: a minus sign if the type has one, digits, and white space. -/
inductive Numeral (t : XsInteger) : CString → ℤ → Prop
  | positive {ds w : CString} (hds : ds ≠ []) (hdigits : ∀ c ∈ ds, digit c = true)
    (hw : ∀ c ∈ w, ws c = true) : Numeral t (ds ++ w) (decimal ds)
  | negative {ds w : CString} (hsigned : t.signed = true) (hds : ds ≠ [])
    (hdigits : ∀ c ∈ ds, digit c = true) (hw : ∀ c ∈ w, ws c = true) :
    Numeral t (45 :: (ds ++ w)) (-decimal ds)

/-- The numbers of a type. -/
def XsInteger.InRange (t : XsInteger) (v : ℤ) : Prop :=
  if t.signed then -2 ^ (t.width - 1) ≤ v ∧ v < 2 ^ (t.width - 1) else 0 ≤ v ∧ v < 2 ^ t.width

instance (t : XsInteger) (v : ℤ) : Decidable (t.InRange v) := by
  unfold XsInteger.InRange
  infer_instance

/-- `parse_value` stores the number of a numeral in the range, refuses every other text, and follows
no `NULL`. -/
structure ParsesInteger (t : XsInteger) (data : CString) : Prop where
  defined : parseInteger t data ≠ none
  value : ∀ v, parseInteger t data = some (some v) ↔ Numeral t data v ∧ t.InRange v

/-- A text begins with a digit, behind a minus sign if the type has one. -/
def BeginsWithDigit (t : XsInteger) (data : CString) : Prop :=
  ∃ c ds, digit c = true ∧ (data = c :: ds ∨ t.signed = true ∧ data = 45 :: c :: ds)

/-! ## What is stored -/

/-- What the field of a type keeps of a number. -/
def XsInteger.wrap (t : XsInteger) (v : ℤ) : ℤ :=
  if t.signed then v.bmod (2 ^ t.width) else v % 2 ^ t.width

theorem XsInteger.wrap_iff (t : XsInteger) (v : ℤ) : t.wrap v = v ↔ t.InRange v := by
  cases t <;>
  · simp only [wrap, InRange, signed, width, if_true, Bool.false_eq_true, if_false, Int.bmod_def,
      Nat.reducePow, Nat.reduceSub, Nat.cast_ofNat, Int.reducePow]
    omega

section Numbers
variable {t : XsInteger} {data ds w : CString} {y : ℕ} {v : ℤ}

theorem foldl_wrap (ds : CString) (y z : ℕ) (h : y = z % 2 ^ 64) :
    ds.foldl (fun y c => (y * 10 + (c.toNat - 48)) % 2 ^ 64) y =
      ds.foldl (fun y c => y * 10 + (c.toNat - 48)) z % 2 ^ 64 := by
  induction ds generalizing y z with
  | nil => exact h
  | cons c ds ih =>
    rw [List.foldl_cons, List.foldl_cons]
    refine ih _ _ ?_
    rw [h]
    omega

/-- The digits a text begins with, and the rest. -/
theorem number64_cons {c : UInt8} (hc : digit c = true) :
    number64 (c :: data) = some (decimal ((c :: data).takeWhile digit) % 2 ^ 64,
      (c :: data).dropWhile digit) := by
  unfold number64
  have hcons : (c :: data).takeWhile digit = c :: data.takeWhile digit :=
    List.takeWhile_cons_of_pos hc
  rw [hcons]
  dsimp only
  rw [foldl_wrap _ 0 0 rfl]
  rfl

theorem number64_none (h : ∀ c ∈ data.head?, ¬digit c = true) : number64 data = none := by
  unfold number64
  cases data with
  | nil => rfl
  | cons c data => rw [List.takeWhile_cons_of_neg (h c rfl)]

theorem unsignedInt_none (h : ∀ c ∈ data.head?, ¬digit c = true) : unsignedInt data = none := by
  unfold unsignedInt
  rw [number64_none h]

theorem unsignedInt_cons {c : UInt8} (hc : digit c = true) :
    unsignedInt (c :: data) = some (if trim ((c :: data).dropWhile digit) = [] then
      some (decimal ((c :: data).takeWhile digit) % 2 ^ 64) else none) := by
  unfold unsignedInt
  rw [number64_cons hc]

theorem signedInt_neg : signedInt (45 :: data) = (unsignedInt data).map fun r =>
    r.map fun (y : ℕ) => ((y : ℤ).bmod (2 ^ 64) * -1).bmod (2 ^ 64) := rfl

theorem signedInt_pos (h : data.head? ≠ some 45) : signedInt data = (unsignedInt data).map fun r =>
    r.map fun (y : ℕ) => ((y : ℤ).bmod (2 ^ 64) * 1).bmod (2 ^ 64) := by
  unfold signedInt
  split
  rename_i hsplit
  split at hsplit
  · exact absurd rfl h
  · obtain ⟨rfl, rfl⟩ := Prod.mk.inj hsplit
    rfl

/-- Counting modulo `2 ^ 64` does not change what the field keeps. -/
theorem XsInteger.bmod_wrap (hsigned : t.signed = true) (n : ℕ) (sign : ℤ) :
    ((((n % 2 ^ 64 : ℕ) : ℤ).bmod (2 ^ 64) * sign).bmod (2 ^ 64)).bmod (2 ^ t.width) =
      t.wrap (n * sign) := by
  have hdvd : 2 ^ t.width ∣ 2 ^ 64 := Nat.pow_dvd_pow 2 (by cases t <;> decide)
  have hcount : ((n % 2 ^ 64 : ℕ) : ℤ).bmod (2 ^ 64) = (n : ℤ).bmod (2 ^ 64) := by
    rw [Int.natCast_mod, Int.emod_bmod]
  rw [wrap, if_pos hsigned, hcount, Int.bmod_mul_bmod, Int.bmod_bmod_of_dvd hdvd]

theorem XsInteger.mod_wrap (hsigned : ¬t.signed = true) (n : ℕ) :
    ((n % 2 ^ 64 : ℕ) : ℤ) % 2 ^ t.width = t.wrap n := by
  have hdvd : (2 ^ t.width : ℤ) ∣ 2 ^ 64 := pow_dvd_pow 2 (by cases t <;> decide)
  rw [wrap, if_neg hsigned, Int.natCast_mod]
  exact Int.emod_emod_of_dvd _ hdvd

/-! ## The texts that begin with a digit -/

theorem head_digit {c : UInt8} (hc : digit c = true) : c ≠ 45 := by
  rintro rfl
  exact absurd hc (by decide)

/-- What is stored of a text that begins with a digit. -/
theorem parseInteger_digit {c : UInt8} (hc : digit c = true) :
    parseInteger t (c :: data) = some (if trim ((c :: data).dropWhile digit) = [] then
      some (t.wrap (decimal ((c :: data).takeWhile digit))) else none) := by
  have hhead : (c :: data).head? ≠ some 45 := fun h => head_digit hc (Option.some.inj h)
  unfold parseInteger
  by_cases hsigned : t.signed = true
  · rw [if_pos hsigned, signedInt_pos hhead, unsignedInt_cons hc, Option.map_some, Option.map_some]
    split_ifs
    · rw [Option.map_some, Option.map_some, XsInteger.bmod_wrap hsigned, mul_one]
    · rfl
  · rw [if_neg hsigned, unsignedInt_cons hc, Option.map_some]
    split_ifs
    · rw [Option.map_some, XsInteger.mod_wrap hsigned]
    · rfl

/-- What is stored of a text that begins with a minus sign and a digit. -/
theorem parseInteger_minus {c : UInt8} (hsigned : t.signed = true) (hc : digit c = true) :
    parseInteger t (45 :: c :: data) = some (if trim ((c :: data).dropWhile digit) = [] then
      some (t.wrap (-decimal ((c :: data).takeWhile digit))) else none) := by
  unfold parseInteger
  rw [if_pos hsigned, signedInt_neg, unsignedInt_cons hc, Option.map_some, Option.map_some]
  split_ifs
  · rw [Option.map_some, Option.map_some, XsInteger.bmod_wrap hsigned, mul_neg_one]
  · rfl

/-- `trim` follows a `NULL` on every other text. -/
theorem parseInteger_none (h : ¬BeginsWithDigit t data) : parseInteger t data = none := by
  have hhead : ∀ c ∈ data.head?, ¬digit c = true := by
    rintro c hc hdigit
    obtain ⟨ds, rfl⟩ := List.head?_eq_some_iff.mp hc
    exact h ⟨c, ds, hdigit, .inl rfl⟩
  unfold parseInteger
  by_cases hsigned : t.signed = true
  · rw [if_pos hsigned]
    by_cases hminus : data.head? = some 45
    · obtain ⟨ds, rfl⟩ := List.head?_eq_some_iff.mp hminus
      rw [signedInt_neg, unsignedInt_none]
      · rfl
      · rintro c hc hdigit
        obtain ⟨ds, rfl⟩ := List.head?_eq_some_iff.mp hc
        exact h ⟨c, ds, hdigit, .inr ⟨hsigned, rfl⟩⟩
    · rw [signedInt_pos hminus, unsignedInt_none hhead]
      rfl
  · rw [if_neg hsigned, unsignedInt_none hhead]
    rfl

theorem blank_not_digit {c : UInt8} (hc : ws c = true) : ¬digit c = true := by
  unfold ws at hc
  rcases of_decide_eq_true hc with rfl | rfl | rfl | rfl <;> decide

/-- A numeral is the digits a text begins with, followed by white space alone. -/
theorem numeral_split (hds : ∀ c ∈ ds, digit c = true) (hw : ∀ c ∈ w, ws c = true) :
    (ds ++ w).takeWhile digit = ds ∧ trim ((ds ++ w).dropWhile digit) = [] := by
  have htake : w.takeWhile digit = [] := by
    cases w with
    | nil => rfl
    | cons c w => exact List.takeWhile_cons_of_neg (blank_not_digit (hw c List.mem_cons_self))
  have hdrop : w.dropWhile digit = w := by
    cases w with
    | nil => rfl
    | cons c w => exact List.dropWhile_cons_of_neg (blank_not_digit (hw c List.mem_cons_self))
  rw [List.takeWhile_append_of_pos hds, List.dropWhile_append_of_pos hds, htake, hdrop]
  exact ⟨List.append_nil ds, List.dropWhile_eq_nil_iff.mpr hw⟩

theorem numeral_digit {c : UInt8} (hc : digit c = true) :
    Numeral t (c :: data) v ↔ trim ((c :: data).dropWhile digit) = [] ∧
      v = decimal ((c :: data).takeWhile digit) := by
  constructor
  · rintro h
    generalize htext : c :: data = text at h
    cases h with
    | positive hds hdigits hw =>
      obtain ⟨htake, hdrop⟩ := numeral_split hdigits hw
      rw [htake]
      exact ⟨hdrop, rfl⟩
    | negative hsigned hds hdigits hw => exact absurd (List.cons.inj htext).1 (head_digit hc)
  · rintro ⟨htrim, rfl⟩
    have h : Numeral t ((c :: data).takeWhile digit ++ (c :: data).dropWhile digit) _ :=
      .positive (by rw [List.takeWhile_cons_of_pos hc]; exact List.cons_ne_nil _ _)
        (fun c hc => List.mem_takeWhile_imp hc) (List.dropWhile_eq_nil_iff.mp htrim)
    rwa [List.takeWhile_append_dropWhile] at h

theorem numeral_minus {c : UInt8} (hsigned : t.signed = true) (hc : digit c = true) :
    Numeral t (45 :: c :: data) v ↔ trim ((c :: data).dropWhile digit) = [] ∧
      v = -decimal ((c :: data).takeWhile digit) := by
  constructor
  · rintro h
    generalize htext : 45 :: c :: data = text at h
    cases h with
    | @positive ds w hds hdigits hw =>
      cases ds with
      | nil => exact absurd rfl hds
      | cons d ds =>
        obtain rfl := (List.cons.inj htext).1
        exact absurd (hdigits 45 List.mem_cons_self) (by decide)
    | negative hsigned hds hdigits hw =>
      obtain ⟨htake, hdrop⟩ := numeral_split hdigits hw
      rw [(List.cons.inj htext).2, htake]
      exact ⟨hdrop, rfl⟩
  · rintro ⟨htrim, rfl⟩
    have h : Numeral t (45 :: ((c :: data).takeWhile digit ++ (c :: data).dropWhile digit)) _ :=
      .negative hsigned (by rw [List.takeWhile_cons_of_pos hc]; exact List.cons_ne_nil _ _)
        (fun c hc => List.mem_takeWhile_imp hc) (List.dropWhile_eq_nil_iff.mp htrim)
    rwa [List.takeWhile_append_dropWhile] at h

/-- What has a number `n` at most, and stores what the field keeps of it, stores the numbers of the
type alone when `n` is one of them. -/
theorem parses_iff {p : Prop} [Decidable p] {n : ℤ} (hparse : parseInteger t data =
    some (if p then some (t.wrap n) else none)) (hnumeral : ∀ v, Numeral t data v ↔ p ∧ v = n) :
    ParsesInteger t data ↔ ∀ v, Numeral t data v → t.InRange v := by
  constructor
  · rintro h v hv
    obtain ⟨hp, rfl⟩ := (hnumeral v).mp hv
    rw [if_pos hp] at hparse
    obtain ⟨hwrapped, hrange⟩ := (h.value (t.wrap v)).mp hparse
    rwa [← ((hnumeral _).mp hwrapped).2]
  · rintro hrange
    refine ⟨fun h => absurd (hparse.symm.trans h) (Option.some_ne_none _), fun v => ?_⟩
    rw [hparse, hnumeral]
    by_cases hp : p
    · have hn := hrange n ((hnumeral n).mpr ⟨hp, rfl⟩)
      rw [if_pos hp, (t.wrap_iff n).mpr hn, Option.some_inj, Option.some_inj]
      constructor
      · rintro rfl
        exact ⟨⟨hp, rfl⟩, hn⟩
      · exact fun h => h.1.2.symm
    · rw [if_neg hp]
      constructor
      · exact fun h => absurd (Option.some.inj h) (Option.some_ne_none v).symm
      · exact fun h => absurd h.1.1 hp

end Numbers

/-- **An integer is read as its numeral says exactly when the text begins with a digit, behind the
minus sign of a signed type, and the numeral, if the text is one, is a number of the type.** -/
theorem parsesInteger_iff (t : XsInteger) (data : CString) : ParsesInteger t data ↔
    BeginsWithDigit t data ∧ ∀ v, Numeral t data v → t.InRange v := by
  by_cases h : BeginsWithDigit t data
  · rw [and_iff_right h]
    obtain ⟨c, ds, hc, rfl | ⟨hsigned, rfl⟩⟩ := h
    · exact parses_iff (parseInteger_digit hc) fun v => numeral_digit hc
    · exact parses_iff (parseInteger_minus hsigned hc) fun v => numeral_minus hsigned hc
  · constructor
    · exact fun hparses => absurd (parseInteger_none h) hparses.defined
    · exact fun hcond => absurd hcond.1 h

/-- `abc` makes `trim` follow a `NULL`, and 256 is stored in an `unsignedByte` as 0. -/
theorem not_parsesInteger : ¬ParsesInteger .ubyte [97, 98, 99] ∧
    ¬ParsesInteger .ubyte [50, 53, 54] ∧ parseInteger .ubyte [50, 53, 54] = some (some 0) := by
  refine ⟨fun h => h.defined (by decide), fun h => ?_, by decide⟩
  have hzero : parseInteger .ubyte [50, 53, 54] = some (some 0) := by decide
  have hnumeral := ((h.value 0).mp hzero).1
  have hvalue := ((numeral_digit (by decide)).mp hnumeral).2
  exact absurd hvalue (by decide)

end SeClient
