import SeClient.StringTable

/-!
# Schemas and the objects they describe

`schema.c`: a schema is one table.  The global element declarations come first, then every
complex type: its head, with the size of the type, and its attributes and elements in
order.  The head of the next type, whose `n` is 0, ends it.  `c_gen.c` fills the table in;
`productions` counts the event codes of an entry.

An object is a C structure in the heap, laid out as the table says.
-/

namespace SeClient

/-- `enum XsType`. -/
inductive XsType
  | null | string | boolean | hexBinary | anyURI | long | int | short | byte | ulong
  | uint | ushort | ubyte
deriving DecidableEq, Repr

/-- `SchemaElement`.  The first field is the `size` in the head of a type; `xs_type`, which
packs the type and the length of its container, is `index` for an entry of complex type. -/
structure SchemaElement where
  offset : ℕ := 0
  xsType : XsType := .null
  xsLength : ℕ := 0
  index : ℕ := 0
  min : ℕ := 0
  max : ℕ := 0
  n : ℕ := 0
  bit : ℕ := 0
  isAttribute : Bool := false
  simple : Bool := false
  unbounded : Bool := false
deriving DecidableEq, Repr

namespace SchemaElement

/-- `is_pointer`: a string that is allocated on demand. -/
def isPointer (se : SchemaElement) : Bool :=
  (se.xsType = .string ∨ se.xsType = .anyURI) ∧ se.xsLength = 0

/-- The entry can occur a different number of times. -/
def varies (se : SchemaElement) : Bool := se.min < se.max || se.unbounded

end SchemaElement

/-- `Schema`: `names` are the names of the global elements and then of the other entries,
`ids` the name of each entry after the global elements. -/
structure Schema where
  schemaId : CString
  length : ℕ
  elements : List SchemaElement
  names : List CString
  ids : List ℕ
deriving DecidableEq, Repr

/-- The loop of `productions`. -/
def productionsLoop : Bool → List SchemaElement → ℕ
  | _, [] => 1
  | first, se :: entries =>
    if first && se.varies then productionsLoop false entries + 1
    else if se.min ≠ 0 then 1
    else productionsLoop first entries + 1

/-- `productions`: what can follow in the place of an entry, of which the minimum is met:
it, what comes after it up to the first entry that must occur, or the end. -/
def productions (entries : List SchemaElement) : ℕ := productionsLoop true entries

namespace Schema
variable (S : Schema)

def element (i : ℕ) : SchemaElement := S.elements.getD i {}

/-- The entries from place `i` to the end of the type. -/
def entries (i : ℕ) : List SchemaElement := (S.elements.drop i).takeWhile fun se => se.n ≠ 0

/-- The index of `se_name`. -/
def seName (i : ℕ) : ℕ := if i < S.length then i else S.ids.getD (i - S.length) 0

/-- `object_element_size` -/
def objectElementSize (se : SchemaElement) : ℕ :=
  if se.simple then
    match se.xsType with
    | .string => if se.xsLength ≠ 0 then se.xsLength else 8
    | .boolean | .null => 0
    | .hexBinary => se.xsLength
    | .anyURI | .long | .ulong => 8
    | .int | .uint => 4
    | .short | .ushort => 2
    | .byte | .ubyte => 1
  else (S.element se.index).offset

/-- **The tables `c_gen.c` makes.** -/
structure Generated : Prop where
  /-- Global elements, and the head after them, end any sequence of entries. -/
  globals : ∀ i, i ≤ S.length → (S.element i).n = 0
  root : ∀ i, i < S.length → (S.element i).min = 1 ∧ (S.element i).max = 1 ∧
    (S.element i).isAttribute = false ∧ (S.element i).unbounded = false
  productions : ∀ i, (S.element i).n ≠ 0 → (S.element i).n = productions (S.entries i)
  attributes : ∀ i, (S.element i).isAttribute → (S.element i).min ≤ 1 ∧ (S.element i).max = 1 ∧
    (S.element i).unbounded = false
  bounds : ∀ i, (S.element i).unbounded = false → (S.element i).min ≤ (S.element i).max
  /-- The head of a type has a size and the index of its base type only. -/
  heads : ∀ i, S.length ≤ i → (S.element i).n = 0 → (S.element i).min = 0 ∧
    (S.element i).max = 0 ∧ (S.element i).isAttribute = false ∧ (S.element i).unbounded = false
  types : ∀ i, i < S.length ∨ (S.element i).n ≠ 0 → (S.element i).isAttribute = false →
    (S.element i).simple = false → S.length ≤ (S.element i).index

end Schema

/-! ## The heap -/

/-- A pointer into a block that `calloc` returned. -/
structure Addr where
  block : ℕ
  offset : ℕ
deriving DecidableEq, Repr

/-- `p + n` -/
def Addr.plus (a : Addr) (n : ℕ) : Addr := { a with offset := a.offset + n }

/-- What a field of simple type holds. -/
inductive Value
  | text (s : CString)
  | binary (b : List UInt8)
  | number (x : Int)
deriving DecidableEq, Repr

/-- The heap as typed memory: the flag word of a structure, the fields of simple type, `none`
for `NULL` or zero, and the data of the list a field points to.  Of what is written behind a
container it has the places, the last ones first, `none` for memory of no object; what has been
there is lost. -/
structure Heap where
  flags : Addr → BitVec 32
  value : Addr → Option Value
  items : Addr → List Addr
  fresh : ℕ
  spills : List (Option Addr) := []

namespace Heap
variable (m : Heap)

/-- `set_count` -/
def setCount (a : Addr) (count bit : ℕ) : Heap :=
  { m with flags := Function.update m.flags a (m.flags a ||| BitVec.ofNat 32 count <<< bit) }

/-- `calloc` -/
def calloc : Heap × Addr := ({ m with fresh := m.fresh + 1 }, ⟨m.fresh, 0⟩)

/-- `flag_set` -/
def flagSet (a : Addr) (bit : ℕ) : Bool := (m.flags a).getLsbD bit

/-- `flag_count` -/
def flagCount (a : Addr) (bit min max : ℕ) : ℕ :=
  min + (m.flags a >>> bit).toNat % 2 ^ bitCount (max - min)

/-- The loop of `output_count`: the pointers up to the first `NULL`. -/
def pointerCount : ℕ → Addr → ℕ
  | 0, _ => 0
  | max + 1, a => if (m.value a).isSome then pointerCount max (a.plus 8) + 1 else 0

/-- `output_count` -/
def outputCount (a : Addr) (se : SchemaElement) : ℕ :=
  if (se.isAttribute || se.simple) && se.isPointer then
    let n := m.pointerCount se.max (a.plus se.offset)
    if n ≥ se.min then n else 0
  else if se.min < se.max then
    if se.max = 1 then (m.flagSet a se.bit).toNat
    else
      let count := m.flagCount a se.bit se.min se.max
      if count > se.max then se.max else count
  else se.min

end Heap
end SeClient
