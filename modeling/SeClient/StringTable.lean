import Mathlib.Algebra.Order.Ring.Int
import Mathlib.Data.List.Basic

/-!
# Strings and string tables

`utf8.c` and `string_table.c`.  A C string is the list of its bytes before the NUL.  A
string table is the list of its strings; `add_string` may move a table but leaves it at
its place in the list of tables.
-/

namespace SeClient

abbrev CString := List UInt8

/-- What holds of 256 numbers holds of the bytes. -/
theorem forall_byte {p : UInt8 → Prop} (h : ∀ n < 256, p (UInt8.ofNat n)) (c : UInt8) : p c := by
  have hc := h c.toNat c.toNat_lt
  rwa [UInt8.ofNat_toNat] at hc

theorem getElem?_of_drop {mem rest : List UInt8} {data : ℕ} {c : UInt8}
    (h : mem.drop data = c :: rest) : mem[data]? = some c := by
  rw [← List.head?_drop, h]
  rfl

theorem drop_behind {mem text rest : List UInt8} {data : ℕ} (h : mem.drop data = text ++ rest) :
    mem.drop (data + text.length) = rest := by
  rw [← List.drop_drop, h, List.drop_left]

theorem drop_succ {mem rest : List UInt8} {data : ℕ} {c : UInt8} (h : mem.drop data = c :: rest) :
    mem.drop (data + 1) = rest := by
  rw [← List.drop_drop, h]
  rfl

/-- `bit_count` -/
def bitCount (x : ℕ) : ℕ := if x = 0 then 0 else x.log2 + 1

theorem lt_two_pow_bitCount {i n : ℕ} (h : i < n) : i < 2 ^ bitCount (n - 1) := by
  unfold bitCount
  split_ifs with hz
  · rw [Nat.pow_zero]
    omega
  · have hl := Nat.lt_log2_self (n := n - 1)
    omega

/-! ### `utf8.c` -/

/-- `utf_table`: the class of the bytes c0 to ff, then the transitions of each state. -/
def utfTable : List ℕ :=
  [1, 1, 2, 2, 2, 2, 2, 2, 2, 2, 2, 2, 2, 2, 2, 2, 2, 2, 2, 2, 2, 2, 2, 2, 2, 2, 2, 2, 2, 2, 2, 2,
   7, 3, 3, 3, 3, 3, 3, 3, 3, 3, 3, 3, 3, 4, 3, 3, 8, 6, 6, 6, 5, 1, 1, 1, 1, 1, 1, 1, 1, 1, 1, 1,
   99, 99, 9, 9 + 4, 9 + 8, 9 + 12, 9 + 16, 9 + 20, 9 + 24,
   0, 0, 0, 0,
   9, 9, 9, 9,
   9, 9, 99, 99,
   17, 99, 99, 99,
   17, 17, 17, 17,
   99, 99, 9, 9,
   99, 17, 17, 17]

/-- `utf8_char`: the code point at `data` and what follows it, `none` for NULL. -/
def utf8Char (state code : ℕ) : List UInt8 → Option (ℕ × List UInt8)
  | [] => if state ≠ 0 then none else some (0, [])
  | c :: data =>
    let next (state code : ℕ) : Option (ℕ × List UInt8) :=
      if state = 99 then none else if state = 0 then some (code, data) else utf8Char state code data
    if c < 128 then if state ≠ 0 then none else some (c.toNat, data)
    else if state ≠ 0 then
      if c &&& 0x40 ≠ 0 then none
      else
        next (utfTable.getD (64 + state + (c.toNat >>> 4) % 4) 99)
          ((c &&& 0x3f).toNat ||| code <<< 6)
    else if c &&& 0x40 ≠ 0 then
      let type := utfTable.getD (c ^^^ 0xc0).toNat 99
      next (utfTable.getD (64 + type) 99) (0xff >>> type &&& c.toNat)
    else none

/-- `utf8_encode`: the bytes of a code point, `none` for NULL. -/
def utf8Encode (code : ℕ) : Option (List UInt8) :=
  let tail (n : ℕ) : UInt8 := UInt8.ofNat (0x80 ||| (code >>> n) % 64)
  if code ≤ 0x7f then some [UInt8.ofNat code]
  else if code ≤ 0x7ff then some [UInt8.ofNat (0xc0 ||| code >>> 6), tail 0]
  else if code ≤ 0xffff then some [UInt8.ofNat (0xe0 ||| code >>> 12), tail 6, tail 0]
  else if code ≤ 0x1ffff then some [UInt8.ofNat (0xe0 ||| code >>> 18), tail 12, tail 6, tail 0]
  else none

/-- The bytes `utf8_length` passes over after `c`. -/
def utf8Extra (c : UInt8) : ℕ :=
  if c &&& 0x80 ≠ 0 then if c &&& 0x20 ≠ 0 then if c &&& 0x10 ≠ 0 then 3 else 2 else 1 else 0

/-- The loop of `utf8_length`. -/
def utf8LengthLoop : ℕ → List UInt8 → ℕ
  | 0, _ => 0
  | _ + 1, [] => 0
  | fuel + 1, c :: data => utf8LengthLoop fuel (data.drop (utf8Extra c)) + 1

/-- `utf8_length` -/
def utf8Length (data : CString) : ℕ := utf8LengthLoop data.length data

/-- Every byte is an ASCII character. -/
def Ascii (s : CString) : Prop := ∀ c ∈ s, c ≠ 0 ∧ c < 128

section Ascii
variable {s : CString} {c : UInt8} {code : ℕ}

theorem Ascii.tail (h : Ascii (c :: s)) : Ascii s := fun d hd => h d (List.mem_cons_of_mem _ hd)

theorem utf8Char_ascii (hc : c < 128) : utf8Char 0 code (c :: s) = some (c.toNat, s) := by
  simp only [utf8Char, if_pos hc, ne_eq, not_true_eq_false, if_false]

theorem utf8Encode_ascii (hc : c < 128) : utf8Encode c.toNat = some [c] := by
  have hle : c.toNat ≤ 0x7f := by
    have h : c.toNat < 128 := hc
    omega
  simp only [utf8Encode, if_pos hle, UInt8.ofNat_toNat]

theorem utf8Extra_ascii (hc : c < 128) : utf8Extra c = 0 := by
  have h : ∀ n : Fin 128, utf8Extra (UInt8.ofNat n.val) = 0 := by decide
  have hn : c.toNat < 128 := hc
  have hc' := h ⟨c.toNat, hn⟩
  rwa [UInt8.ofNat_toNat] at hc'

theorem utf8Length_ascii (h : Ascii s) : utf8Length s = s.length := by
  unfold utf8Length
  induction s with
  | nil => rfl
  | cons c s ih =>
    have hc : c < 128 := (h c List.mem_cons_self).2
    rw [List.length_cons, utf8LengthLoop, utf8Extra_ascii hc, List.drop_zero, ih h.tail]

end Ascii

/-! ### `string_table.c` -/

/-- A `StringTable`; the global one has no name. -/
structure StringTable where
  name : Option ℕ
  strings : List CString
deriving DecidableEq, Repr

/-- `find_table` -/
def findTable (t : List StringTable) (name : ℕ) : Option StringTable :=
  t.find? (fun t => t.name = some name)

/-- `find_string` -/
def StringTable.findString (t : StringTable) (s : CString) : Option ℕ :=
  t.strings.findIdx? (· = s)

/-- `new_string_table` -/
def newStringTable (t : List StringTable) (name : ℕ) : List StringTable := ⟨some name, []⟩ :: t

def StringTable.add (t : StringTable) (s : CString) : StringTable :=
  { t with strings := t.strings ++ [s] }

/-- `add_string`, to the table of that name. -/
def addString : List StringTable → ℕ → CString → List StringTable
  | [], _, _ => []
  | t :: ts, name, s => if t.name = some name then t.add s :: ts else t :: addString ts name s

/-- The strings a list of tables holds under a name, each at its index. -/
def entries (t : List StringTable) (name : ℕ) : List CString :=
  ((findTable t name).map StringTable.strings).getD []

section Tables
variable {t : List StringTable} {name n : ℕ} {s : CString}

theorem entries_nil : entries [] n = [] := rfl

theorem entries_of_find {u : StringTable} (h : findTable t n = some u) :
    entries t n = u.strings := by
  rw [entries, h, Option.map_some, Option.getD_some]

theorem entries_of_find_none (h : findTable t n = none) : entries t n = [] := by
  rw [entries, h, Option.map_none, Option.getD_none]

theorem findTable_cons {u : StringTable} :
    findTable (u :: t) n = if u.name = some n then some u else findTable t n := by
  rw [findTable, List.find?_cons]
  by_cases h : u.name = some n
  · rw [if_pos h, decide_eq_true h]
  · rw [if_neg h, decide_eq_false h, findTable]

theorem entries_new (h : findTable t name = none) :
    entries (newStringTable t name) n = entries t n := by
  unfold newStringTable
  by_cases hn : some name = some n
  · obtain rfl : name = n := Option.some.inj hn
    rw [entries, findTable_cons, if_pos rfl, entries_of_find_none h]
    rfl
  · rw [entries, findTable_cons, if_neg hn, entries]

theorem findTable_new : (findTable (newStringTable t name) name).isSome := by
  rw [newStringTable, findTable_cons, if_pos rfl]
  rfl

theorem entries_add (h : (findTable t name).isSome) :
    entries (addString t name s) n = if n = name then entries t n ++ [s] else entries t n := by
  induction t with
  | nil => exact absurd h Bool.false_ne_true
  | cons u t ih =>
    rw [findTable_cons] at h
    rw [addString]
    by_cases hu : u.name = some name
    · have ha : (u.add s).name = u.name := rfl
      rw [if_pos hu, entries, findTable_cons, entries, findTable_cons, ha]
      by_cases hn : n = name
      · rw [if_pos hn, hn, if_pos hu, if_pos hu]
        rfl
      · have hun : ¬ u.name = some n := fun he => hn (Option.some.inj (he.symm.trans hu))
        rw [if_neg hn, if_neg hun, if_neg hun]
    · rw [if_neg hu] at h ⊢
      have hi := ih h
      rw [entries] at hi
      rw [entries, findTable_cons, entries, findTable_cons]
      by_cases hun : u.name = some n
      · have hn : ¬ n = name := fun he => hu (he ▸ hun)
        rw [if_pos hun, if_neg hn, if_pos hun]
      · rw [if_neg hun, if_neg hun, hi]
        rfl

theorem findString_some {u : StringTable} {i : ℕ} (h : u.findString s = some i) :
    u.strings[i]? = some s := by
  rw [StringTable.findString, List.findIdx?_eq_some_iff_getElem] at h
  obtain ⟨hi, hs, _⟩ := h
  rw [List.getElem?_eq_getElem hi, of_decide_eq_true hs]

theorem findString_none {u : StringTable} : u.findString s = none ↔ s ∉ u.strings := by
  rw [StringTable.findString, List.findIdx?_eq_none_iff]
  constructor
  · intro h hm
    exact absurd (h s hm) (by simp)
  · intro h x hx
    exact decide_eq_false (fun he => h (he ▸ hx))

end Tables
end SeClient
