import SeClient.ExiDriver
import Mathlib.Logic.Relation

/-!
# Documents as event codes and values

Where the values are encoded and decoded correctly, an EXI document is a row of event codes,
each of a certain width, and of values.  An object that conforms to its type has its
attributes and elements in the order of the table.
-/

namespace SeClient

/-- One piece of an EXI document: an event code, or the value of an entry. -/
inductive Item
  | event (code width : ℕ)
  | value (se : ℕ) (w : Stored)
deriving DecidableEq, Repr

/-- What a parser of the value `a` points to has to store: a boolean is the bit `flag`. -/
def Heap.load (m : Heap) (type : XsType) (a : Addr) (flag : ℕ) : Stored :=
  if type = .boolean then (if m.flagSet a flag then .flag else .nothing)
  else match m.value a with
    | some v => .value v
    | none => .nothing

/-- A document in a buffer that is large enough. -/
def itemSink (S : Schema) (m : Heap) : ExiSink (List Item) where
  room := fun _ _ => true
  bits := fun code width out => out ++ [.event code width]
  bit := fun b out => out ++ [.event b.toNat 1]
  value := fun i a flag out => some (out ++ [.value i (m.load (S.element i).xsType a flag)])
  done := id

/-- The rest of a document.  A reader is stuck once it was asked for something else than what
comes next. -/
structure ItemReader where
  items : List Item
  stuck : Bool := false
deriving DecidableEq, Repr

namespace ItemReader

def jam (r : ItemReader) : ItemReader := { r with stuck := true }

/-- An event code of the width `n`. -/
def bits (n : ℕ) (r : ItemReader) : ℕ × ItemReader :=
  match r with
  | ⟨.event code width :: items, false⟩ => if width = n then (code, ⟨items, false⟩) else (0, r.jam)
  | _ => (0, r.jam)

/-- The value of the entry `i`. -/
def value (i : ℕ) (r : ItemReader) : ExiRead ItemReader :=
  match r with
  | ⟨.value j w :: items, false⟩ =>
    if i = j then { ok := true, stored := w, rest := ⟨items, false⟩ }
    else { ok := false, rest := r.jam }
  | _ => { ok := false, rest := r.jam }

end ItemReader

def itemSource : ExiSource ItemReader where
  bits := ItemReader.bits
  bit := ItemReader.bits 1
  truncated := ItemReader.stuck
  header := fun r => { ok := true, rest := r }
  value := ItemReader.value
  done := id

/-! ## The contents of an object -/

/-- What a parser does, in the order of the document: it enters an attribute of the structure
`a`, an occurrence of an element at `a`, a value of simple type at `a`, and leaves an
element. -/
inductive Visit
  | attribute (se : ℕ) (a : Addr) (w : Stored)
  | enter (se : ℕ) (a : Addr)
  | text (se : ℕ) (a : Addr) (w : Stored)
  | leave (se : ℕ)
deriving DecidableEq, Repr

/-- A visit without the place in the heap. -/
def Visit.shape : Visit → Visit
  | .attribute se _ w => .attribute se ⟨0, 0⟩ w
  | .enter se _ => .enter se ⟨0, 0⟩
  | .text se _ w => .text se ⟨0, 0⟩ w
  | .leave se => .leave se

section Contents
variable (S : Schema) (m : Heap)

/-- The occurrences of the element `se` in the structure at `a`. -/
def Schema.occurrences (a : Addr) (se : SchemaElement) : List Addr :=
  let field := a.plus se.offset
  if se.unbounded then m.items field
  else (List.range (m.outputCount a se)).map fun k => field.plus (k * S.objectElementSize se)

/-- The occurrence `x`, the `k`-th, of the element `i`. -/
def occurrenceVisits (f : ℕ → Addr → List Visit) (i k : ℕ) (x : Addr) : List Visit :=
  let se := S.element i
  let inner := if se.simple then [.text i x (m.load se.xsType x (se.bit + k))]
    else f (se.index + 1) x
  .enter i x :: inner ++ [.leave i]

def occurrencesVisits (f : ℕ → Addr → List Visit) (i : ℕ) : ℕ → List Addr → List Visit
  | _, [] => []
  | k, x :: xs => occurrenceVisits S m f i k x ++ occurrencesVisits f i (k + 1) xs

/-- What the structure at `a` has of the entry `i`. -/
def entryVisits (f : ℕ → Addr → List Visit) (a : Addr) (i : ℕ) : List Visit :=
  let se := S.element i
  if se.isAttribute then
    if m.outputCount a se ≠ 0 then
      [.attribute i a (m.load se.xsType (a.plus se.offset) se.bit)]
    else []
  else occurrencesVisits S m f i 0 (S.occurrences m a se)

def entriesVisits (f : ℕ → Addr → List Visit) (a : Addr) : ℕ → ℕ → List Visit
  | 0, _ => []
  | k + 1, i => entryVisits S m f a i ++ entriesVisits f a k (i + 1)

/-- The contents of the structure at `a`, of which the entries start at `i`, with elements
`depth - 1` levels deep. -/
def contents : ℕ → ℕ → Addr → List Visit
  | 0, _, _ => []
  | depth + 1, i, a => entriesVisits S m (contents depth) a (S.entries i).length i

/-- The document of the object at `obj`. -/
def document (obj : Addr) (type : ℕ) : List Visit :=
  entryVisits S m (contents S m maxStack) obj type

/-- The structure at `a` has as many of the entry `se` as there must be. -/
structure Schema.Counted (a : Addr) (se : SchemaElement) : Prop where
  required : se.isAttribute → se.min ≠ 0 → m.outputCount a se ≠ 0
  least : se.isAttribute = false → se.min ≤ (S.occurrences m a se).length
  most : se.isAttribute = false → se.unbounded = false →
    (S.occurrences m a se).length ≤ se.max

/-- The structure at `a` conforms to the entries from `i` on, with elements no more than
`depth - 1` levels deep. -/
def Conforms : ℕ → ℕ → Addr → Prop
  | 0, _, _ => False
  | depth + 1, i, a => ∀ j, i ≤ j → j < i + (S.entries i).length →
      S.Counted m a (S.element j) ∧
      ((S.element j).isAttribute = false → ∀ x ∈ S.occurrences m a (S.element j),
        depth ≠ 0 ∧ ((S.element j).simple = false → Conforms depth ((S.element j).index + 1) x))

/-- The object at `obj` conforms to the global element `type`. -/
def ConformsTo (obj : Addr) (type : ℕ) : Prop :=
  S.Counted m obj (S.element type) ∧
  ∀ x ∈ S.occurrences m obj (S.element type),
    (S.element type).simple = false → Conforms S m maxStack ((S.element type).index + 1) x

/-- No element in the structure at `a` is of an empty type, and none on the last level is of
a type with elements. -/
def Roomy : ℕ → ℕ → Addr → Prop
  | 0, _, _ => True
  | depth + 1, i, a => ∀ j, i ≤ j → j < i + (S.entries i).length →
      (S.element j).isAttribute = false → depth ≠ 0 ∧
      ∀ x ∈ S.occurrences m a (S.element j), (S.element j).simple = false →
        (S.element ((S.element j).index + 1)).n ≠ 0 ∧ Roomy depth ((S.element j).index + 1) x

def RoomyTo (obj : Addr) (type : ℕ) : Prop :=
  ∀ x ∈ S.occurrences m obj (S.element type), (S.element type).simple = false →
    (S.element ((S.element type).index + 1)).n ≠ 0 ∧
      Roomy S m maxStack ((S.element type).index + 1) x

/-- The element `x` is no empty string. -/
def Heap.Spelled (se : SchemaElement) (x : Addr) : Prop :=
  se.simple → se.xsType = .string ∨ se.xsType = .anyURI → m.emptyString x = false

/-- No element in the structure at `a` is an empty string. -/
def Filled : ℕ → ℕ → Addr → Prop
  | 0, _, _ => True
  | depth + 1, i, a => ∀ j, i ≤ j → j < i + (S.entries i).length →
      (S.element j).isAttribute = false → ∀ x ∈ S.occurrences m a (S.element j),
        m.Spelled (S.element j) x ∧
          ((S.element j).simple = false → Filled depth ((S.element j).index + 1) x)

def FilledTo (obj : Addr) (type : ℕ) : Prop :=
  ∀ x ∈ S.occurrences m obj (S.element type), m.Spelled (S.element type) x ∧
    ((S.element type).simple = false → Filled S m maxStack ((S.element type).index + 1) x)

end Contents

/-! ## Runs -/

section Runs
variable (S : Schema)

/-- One pass of `output_doc` with the EXI driver. -/
def OutputGoes (m : Heap) (obj : Addr) (type : ℕ) (o o' : Output (List Item)) : Prop :=
  Output.step S m (exiOutput S m (itemSink S m)) obj type o = .go o'

/-- `output_doc` with the EXI driver writes `items`. -/
def Encodes (m : Heap) (obj : Addr) (type : ℕ) (items : List Item) : Prop :=
  ∃ o o', Relation.ReflTransGen (OutputGoes S m obj type) { out := [] } o ∧
    Output.step S m (exiOutput S m (itemSink S m)) obj type o = .complete o' ∧ o'.out = items

/-- What a pass of `parse_doc` from `p` to `q` does. -/
def Parser.visit {ρ : Type} (d : ParserDriver ρ) (p q : Parser ρ) : List Visit :=
  match p.state with
  | .parseElement => if (S.element p.se).isAttribute then [] else [.enter p.se q.base]
  | .parseAttribute => [.attribute p.se p.base (d.parseAttrValue p.toFront).2.1]
  | .parseValue => [.text p.se p.base (d.parseValue p.toFront).2.1]
  | .parseEnd => p.stack.head?.toList.map fun t => .leave t.se
  | .parseSequence =>
    if q.state = .sequenceEnd then [] else p.stack.head?.toList.map fun t => .enter t.se q.base
  | _ => []

/-- One pass of `parse_doc`, with all that was done so far. -/
def ParserGoes {ρ : Type} (d : ParserDriver ρ) (x y : Parser ρ × List Visit) : Prop :=
  Parser.step S d x.1 = .go y.1 ∧ y.2 = x.2 ++ Parser.visit S d x.1 y.1

/-- The parser of a document. -/
def itemParser (items : List Item) (m : Heap) : Parser (ExiParser ItemReader) :=
  { input := { source := ⟨items, false⟩ }, heap := m }

/-- `parse_doc` with the EXI driver reads all of `items`, an object of the type `type`, and
does `visits`. -/
def Decodes (m : Heap) (items : List Item) (type : ℕ) (visits : List Visit) : Prop :=
  ∃ p p' obj, Relation.ReflTransGen (ParserGoes S (exiParser S itemSource))
      (itemParser items m, []) (p, visits) ∧
    Parser.step S (exiParser S itemSource) p = .done p' type obj ∧
    p'.input.source = ⟨[], false⟩

end Runs
end SeClient
