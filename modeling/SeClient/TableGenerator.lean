import SeClient.HttpLines
import SeClient.Schema

/-!
# The generator of the tables

`print_schema` of `c_gen.c` prints the initializers of the table of a schema, of its names and of
the name of each entry.  The types are those of `schema_gen.c` once `compute_flags` has stored the
primitive type and the flag of each field; a `SchemaType *` is its index in the list of types.
-/

namespace SeClient

/-- `Field`, with the number of its flag, 0 where it has none. -/
structure GenField where
  name : CString
  type : CString
  prim : XsType := .null
  length : ℕ := 0
  bit : ℕ := 0
deriving DecidableEq, Repr

/-- `Particle`: a group, a choice or a sequence has a `child`. -/
inductive GenParticles
  | nil
  | element (field : GenField) (min max : ℤ) (next : GenParticles)
  | group (child next : GenParticles)
  | any (next : GenParticles)
deriving DecidableEq, Repr

/-- The elements, with how often they occur. -/
def GenParticles.elements : GenParticles → List (GenField × ℤ × ℤ)
  | .nil => []
  | .element f min max next => (f, min, max) :: next.elements
  | .group child next => child.elements ++ next.elements
  | .any next => next.elements

/-- An attribute that `collect_attr` has collected. -/
structure GenAttribute where
  field : GenField
  optional : Bool
deriving DecidableEq, Repr

/-- `SchemaType`; `attributes` are those that `collect_attr` returns. -/
structure GenType where
  name : Option CString
  isComplex : Bool
  base : Option CString := none
  maxLength : ℤ := -1
  attr : Bool := false
  part : GenParticles := .nil
  restriction : Bool := false
  attributes : List GenAttribute := []
deriving DecidableEq, Repr

/-- `ElementDecl` -/
structure ElementDecl where
  name : CString
  type : CString
deriving DecidableEq, Repr

/-- `SchemaDoc` -/
structure SchemaDoc where
  types : List GenType
  elements : List ElementDecl
deriving DecidableEq, Repr

/-- `TableEntry`, with `se` before it is printed. -/
structure TableEntry where
  name : CString
  type : Option CString
  se : SchemaElement
deriving DecidableEq, Repr

/-- `sizeof` and `offsetof` of the structures that are printed for the types. -/
structure Layout where
  size : CString → ℕ
  offset : CString → CString → ℕ

/-- `xs_names` -/
def xsNames : List (CString × XsType) :=
  [(chars ['s', 't', 'r', 'i', 'n', 'g'], .string),
    (chars ['b', 'o', 'o', 'l', 'e', 'a', 'n'], .boolean),
    (chars ['h', 'e', 'x', 'B', 'i', 'n', 'a', 'r', 'y'], .hexBinary),
    (chars ['a', 'n', 'y', 'U', 'R', 'I'], .anyURI), (chars ['l', 'o', 'n', 'g'], .long),
    (chars ['i', 'n', 't'], .int), (chars ['s', 'h', 'o', 'r', 't'], .short),
    (chars ['b', 'y', 't', 'e'], .byte),
    (chars ['u', 'n', 's', 'i', 'g', 'n', 'e', 'd', 'L', 'o', 'n', 'g'], .ulong),
    (chars ['u', 'n', 's', 'i', 'g', 'n', 'e', 'd', 'I', 'n', 't'], .uint),
    (chars ['u', 'n', 's', 'i', 'g', 'n', 'e', 'd', 'S', 'h', 'o', 'r', 't'], .ushort),
    (chars ['u', 'n', 's', 'i', 'g', 'n', 'e', 'd', 'B', 'y', 't', 'e'], .ubyte)].map
    fun x => (chars ['x', 's', ':'] ++ x.1, x.2)

/-- `is_pointer (se->xs_type)`: the index of an entry of complex type is in the place of `xs_type`,
so that 1 and 4 are read as `XS_STRING` and `XS_ANY_URI`. -/
def SchemaElement.readsPointer (se : SchemaElement) : Bool :=
  if se.simple || se.isAttribute then se.isPointer else se.index = 1 || se.index = 4

namespace SchemaDoc
variable (doc : SchemaDoc)

/-- `find_by_name`, in the list of types. -/
def find (name : CString) : Option ℕ := doc.types.findIdx? fun t => t.name = some name

/-- `xs_primitive`, the type and the length of its container; `none` for an unknown type, with
which the program ends, and where `xs_type` shifts the length out of an `int`. -/
def xsPrimitive : ℕ → CString → ℕ → Option (XsType × ℕ)
  | 0, _, _ => none
  | fuel + 1, name, n =>
    match xsNames.find? fun x => x.1 = name with
    | some (_, type) => if n < 2 ^ 27 then some (type, n) else none
    | none => ((doc.find name).bind fun i => doc.types[i]?).bind fun t =>
      match t.attr, t.part, t.base with
      | false, .nil, some base =>
        xsPrimitive fuel base (if n = 0 ∧ 0 < t.maxLength then t.maxLength.toNat else n)
      | _, _, _ => some (.null, 0)

/-! ## The entries of a type -/

section Entries
variable (seen : ℕ → ℕ)

/-- An entry that `gen_schema_part` makes, where the types have the indices `seen`; `none` where
`get_index` follows `NULL`. -/
def partEntry (f : GenField) (min max : ℤ) : Option TableEntry :=
  if f.prim ≠ .null ∨ (doc.find f.type).isSome then
    some { name := f.name, type := some f.type, se :=
      { min := (min % 2 ^ 8).toNat
        max := if max < 0 then 0 else (max % 2 ^ 8).toNat
        unbounded := max < 0
        bit := f.bit % 2 ^ 5
        xsType := f.prim
        xsLength := f.length % 2 ^ 12
        index := if f.prim ≠ .null then 0
          else ((doc.find f.type).map fun i => seen i % 2 ^ 16).getD 0
        simple := f.prim ≠ .null } }
  else none

/-- `gen_schema_part`: the entries of the particles in front of `entries`, the last one first. -/
def genSchemaPart : GenParticles → List TableEntry → Option (List TableEntry)
  | .nil, entries => some entries
  | .element f min max next, entries =>
    (doc.partEntry seen f min max).bind fun te => genSchemaPart next (te :: entries)
  | .group child next, entries =>
    (genSchemaPart child []).bind fun inner => genSchemaPart next (inner ++ entries)
  | .any next, entries => genSchemaPart next entries

/-- `gen_schema_parts` -/
def genSchemaParts : ℕ → GenType → Option (List TableEntry)
  | 0, _ => none
  | fuel + 1, t =>
    let inherited := match t.base with
      | some base => ((doc.find base).bind fun i => doc.types[i]?).bind (genSchemaParts fuel)
      | none => some []
    inherited.bind fun entries =>
      if t.restriction then some entries
      else (doc.genSchemaPart seen t.part []).map (· ++ entries)

/-- The entry of an attribute. -/
def attributeEntry (a : GenAttribute) : TableEntry where
  name := a.field.name
  type := none
  se :=
    { xsType := a.field.prim
      xsLength := a.field.length % 2 ^ 12
      isAttribute := true
      max := 1
      min := (!a.optional).toNat
      bit := a.field.bit % 2 ^ 5 }

/-- `gen_schema_entries` -/
def genSchemaEntries (fuel : ℕ) (t : GenType) : Option (List TableEntry) :=
  (doc.genSchemaParts seen fuel t).map fun parts =>
    (parts ++ (t.attributes.map attributeEntry).reverse).reverse

end Entries

/-- What `gen_schema_elements` stores in the types. -/
structure Tables where
  index : ℕ → ℕ := fun _ => 0
  entries : ℕ → List TableEntry := fun _ => []

/-- `gen_schema_elements` -/
def genSchemaElements (fuel : ℕ) : List ℕ → ℕ → Tables → Option Tables
  | [], _, tables => some tables
  | i :: sorted, index, tables => (doc.types[i]?).bind fun t =>
    if t.isComplex then
      let seen := Function.update tables.index i index
      (doc.genSchemaEntries seen fuel t).bind fun entries =>
        genSchemaElements fuel sorted (index + t.name.toList.length + entries.length)
          { index := seen
            entries := Function.update tables.entries i entries }
    else genSchemaElements fuel sorted index tables

/-! ## The table -/

variable (layout : Layout) (tables : Tables)

/-- `get_index`, in an initializer of 16 bits. -/
def getIndex (name : CString) : Option ℕ := (doc.find name).map fun i => tables.index i % 2 ^ 16

/-- The initializer that `print_schema_element` prints. -/
def printSchemaElement (parent : Option CString) (te : TableEntry) (n : ℕ) :
    Option SchemaElement :=
  let se := te.se
  let simple := se.simple || se.isAttribute
  let boolean : Bool := se.xsType = .boolean ∧ se.xsLength = 0
  let row : SchemaElement :=
    { offset := match parent with
        | some parent => if simple && boolean then 0 else layout.offset parent te.name % 2 ^ 16
        | none => 0
      min := se.min
      max := if se.isAttribute then 1 else if se.unbounded then 0 else se.max
      isAttribute := se.isAttribute
      unbounded := !se.isAttribute && se.unbounded
      bit :=
        if se.isAttribute then (if (se.min = 0 ∧ !se.readsPointer) ∨ boolean then se.bit else 0)
        else if (se.min < se.max ∧ !se.readsPointer) ∨ (se.simple ∧ boolean) then se.bit else 0
      simple := se.simple
      xsType := if simple then se.xsType else .null
      xsLength := if simple then se.xsLength else 0
      n := n }
  if simple then some row
  else (te.type.bind (doc.getIndex tables)).map fun index => { row with index := index }

/-- The number that is stored in the entry `te`, the first of `entries`. -/
def entryProductions (entries : List TableEntry) : ℕ := productions (entries.map (·.se)) % 2 ^ 8

/-- The rows of the entries of a type. -/
def printEntries (parent : Option CString) : List TableEntry → Option (List SchemaElement)
  | [] => some []
  | te :: entries =>
    (doc.printSchemaElement layout tables parent te (entryProductions (te :: entries))).bind
      fun row => (printEntries parent entries).map (row :: ·)

/-- The rows of a type: a type without a name has no head. -/
def printType (i : ℕ) (t : GenType) : Option (List SchemaElement) :=
  (doc.printEntries layout tables t.name (tables.entries i)).bind fun rows =>
    match t.name with
    | none => some rows
    | some name =>
      let index := match t.base with
        | some base => doc.getIndex tables base
        | none => some 0
      index.map fun index =>
        { offset := layout.size name % 2 ^ 16, index := index : SchemaElement } :: rows

def printTypes : List ℕ → Option (List SchemaElement)
  | [] => some [{}]
  | i :: sorted => (doc.types[i]?).bind fun t =>
    if t.isComplex then
      (doc.printType layout tables i t).bind fun rows => (printTypes sorted).map (rows ++ ·)
    else printTypes sorted

/-- The row of a global element. -/
def printElement (fuel : ℕ) (e : ElementDecl) : Option SchemaElement :=
  (doc.xsPrimitive fuel e.type 0).bind fun prim =>
    if prim.1 ≠ .null then
      some { min := 1, max := 1, simple := true, xsType := prim.1, xsLength := prim.2 % 2 ^ 12 }
    else (doc.getIndex tables e.type).map fun index => { min := 1, max := 1, index := index }

/-! ## The names -/

/-- `insert_qname` -/
def insertQname (qnames : List CString) (name : CString) : List CString :=
  if qnames.any fun q => q = name then qnames else name :: qnames

/-- The loop of `print_schema` that takes the names of the global elements out of `qnames`. -/
def takeNames : List ElementDecl → List CString → List CString → List CString × List CString
  | [], qnames, names => (qnames, names)
  | e :: elements, qnames, names =>
    if qnames.any fun q => q = e.name then takeNames elements (qnames.erase e.name) (e.name :: names)
    else takeNames elements qnames (e.name :: names)

/-- The entries of the complex types, in the order in which `te_insert` is called for them. -/
def allEntries (sorted : List ℕ) : List TableEntry :=
  sorted.flatMap fun i => if (doc.types[i]?).any (·.isComplex) then tables.entries i else []

/-- `se_names` -/
def printNames (sorted : List ℕ) : List CString :=
  let qnames := ((doc.allEntries tables sorted).map (·.name)).foldl insertQname []
  let (qnames, names) := takeNames doc.elements qnames []
  (qnames ++ names).reverse

/-- `se_ids`, a number for each row behind the global elements. -/
def printIds (names : List CString) (sorted : List ℕ) : List ℕ :=
  sorted.flatMap fun i => match doc.types[i]? with
    | some t =>
      if t.isComplex then t.name.toList.map (fun _ => 0) ++
        (tables.entries i).map fun te => names.idxOf te.name % 2 ^ 16
      else []
    | none => []

/-- `print_schema`, of the types in the order `sorted`, with loops of at most `fuel` rounds. -/
def printSchema (fuel : ℕ) (sorted : List ℕ) : Option Schema :=
  (doc.genSchemaElements fuel sorted doc.elements.length {}).bind fun tables =>
  (doc.elements.mapM (doc.printElement tables fuel)).bind fun globals =>
  (doc.printTypes layout tables sorted).map fun rows =>
    { schemaId := chars ['S', '1']
      length := doc.elements.length
      elements := globals ++ rows
      names := doc.printNames tables sorted
      ids := doc.printIds tables (doc.printNames tables sorted) sorted }

end SchemaDoc
end SeClient
