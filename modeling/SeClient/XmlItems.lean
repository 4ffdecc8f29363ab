import SeClient.BitFields
import SeClient.Items
import SeClient.Targets
import SeClient.XmlDriver

/-!
# Documents as tags and texts

An XML document is a row of tokens: the tags of the elements with the attributes that are written
in them, and the texts of their values.  The elements of a structure may come in any order, as long
as the occurrences of one element are side by side.
-/

namespace SeClient

/-- A token of a document: a tag that opens the element `i`, with its attributes, or is all of it,
one that closes it, or a text. -/
inductive XmlItem
  | tag (empty : Bool) (i : ℕ) (attrs : List (CString × CString))
  | close (i : ℕ)
  | text (content : CString)
deriving DecidableEq, Repr

/-- The text of what is stored in an entry. -/
def Stored.spell : Stored → CString
  | .flag => chars ['t', 'r', 'u', 'e']
  | .nothing => chars ['f', 'a', 'l', 's', 'e']
  | .value (.text s) => s
  | .value (.binary b) => (significant b).flatMap fun x =>
      [hexChar (x.toNat >>> 4), hexChar (x.toNat &&& 0xf)]
  | .value (.number x) => decimalText x
  | .spilled _ _ => []

/-- The attributes of the type of which the entries start at `i`. -/
def Schema.AttributeOf (S : Schema) (i j : ℕ) : Prop :=
  i ≤ j ∧ j < i + (S.entries i).length ∧ (S.element j).isAttribute = true

/-- The elements of the type of which the entries start at `i`. -/
def Schema.ElementOf (S : Schema) (i j : ℕ) : Prop :=
  i ≤ j ∧ j < i + (S.entries i).length ∧ (S.element j).isAttribute = false

/-! ## The tokens of an object -/

section Items
variable (S : Schema) (m : Heap) (order : ℕ → Addr → List ℕ)

/-- What the structure at `a` has for the attribute `j`. -/
def attributeAt (a : Addr) (j : ℕ) : Stored :=
  m.load (S.element j).xsType (a.plus (S.element j).offset) (S.element j).bit

/-- The attributes among the `n` entries from `i` on that the structure at `a` has. -/
def attributesAt (n i : ℕ) (a : Addr) : List ℕ :=
  (List.range' i n).filter fun j =>
    (S.element j).isAttribute && decide (m.outputCount a (S.element j) ≠ 0)

/-- The attributes of a structure as they are written. -/
def writtenAttributes (i : ℕ) (a : Addr) : List (CString × CString) :=
  (attributesAt S m (S.entries i).length i a).map fun j =>
    (S.nameOf j, (attributeAt S m a j).spell)

def textItems (content : CString) : List XmlItem := if content = [] then [] else [.text content]

/-- The occurrence `x` of the element `i` is all in its tag. -/
def occurrenceEmpty (f : ℕ → Addr → List XmlItem) (i : ℕ) (x : Addr) : Bool :=
  !(S.element i).simple && (f ((S.element i).index + 1) x).isEmpty

def occurrenceAttributes (extra : List (CString × CString)) (i : ℕ) (x : Addr) :
    List (CString × CString) :=
  if (S.element i).simple then [] else extra ++ writtenAttributes S m ((S.element i).index + 1) x

/-- What there is behind the tag of the `k`-th occurrence `x` of the element `i`. -/
def occurrenceTail (f : ℕ → Addr → List XmlItem) (i k : ℕ) (x : Addr) : List XmlItem :=
  let se := S.element i
  if se.simple then textItems (m.load se.xsType x (se.bit + k)).spell ++ [.close i]
  else
    let inner := f (se.index + 1) x
    if inner.isEmpty then [] else inner ++ [.close i]

/-- The tokens of the `k`-th occurrence `x` of the element `i`, with further attributes. -/
def occurrenceItems (extra : List (CString × CString)) (f : ℕ → Addr → List XmlItem) (i k : ℕ)
    (x : Addr) : List XmlItem :=
  .tag (occurrenceEmpty S f i x) i (occurrenceAttributes S m extra i x) ::
    occurrenceTail S m f i k x

def occurrencesItems (f : ℕ → Addr → List XmlItem) (i : ℕ) : ℕ → List Addr → List XmlItem
  | _, [] => []
  | k, x :: xs => occurrenceItems S m [] f i k x ++ occurrencesItems f i (k + 1) xs

/-- The elements of the structure at `a`, of which the entries start at `i`, in the order
`order i a`, with elements `depth - 1` levels deep. -/
def structItems : ℕ → ℕ → Addr → List XmlItem
  | 0, _, _ => []
  | depth + 1, i, a => (order i a).flatMap fun j =>
      occurrencesItems S m (structItems depth) j 0 (S.occurrences m a (S.element j))

/-- The document of the object at `obj`, with further attributes in the first tag. -/
def documentItems (extra : List (CString × CString)) (obj : Addr) (type : ℕ) : List XmlItem :=
  (S.occurrences m obj (S.element type)).flatMap fun x =>
    occurrenceItems S m extra (structItems S m order maxStack) type 0 x

/-- The contents of a structure, with its elements in the order `order i a`. -/
def orderedContents : ℕ → ℕ → Addr → List Visit
  | 0, _, _ => []
  | depth + 1, i, a =>
    ((attributesAt S m (S.entries i).length i a).map fun j =>
      .attribute j a (attributeAt S m a j)) ++
    (order i a).flatMap fun j =>
      occurrencesVisits S m (orderedContents depth) j 0 (S.occurrences m a (S.element j))

def orderedDocument (obj : Addr) (type : ℕ) : List Visit :=
  entryVisits S m (orderedContents S m order maxStack) obj type

/-- Each element of a structure has one place in the order. -/
structure Orders : Prop where
  nodup : ∀ i a, (order i a).Nodup
  mem : ∀ i a j, j ∈ order i a ↔ S.ElementOf i j

end Items

/-! ## The tokenizer -/

section Tokenizer
variable {ρ : Type} (S : Schema) (k : XmlSource ρ)

/-- `enum TokenType` of a token. -/
def XmlItem.token : XmlItem → TokenType
  | .tag empty _ _ => if empty then .emptyTag else .startTag
  | .close _ => .endTag
  | .text _ => .xmlText

/-- What the parser finds in the tokenizer behind a token: the attributes of a tag are its own, if
there are any in the type. -/
def XmlItem.Shows (r : ρ) : XmlItem → Prop
  | .tag _ i attrs => k.name r = S.nameOf i ∧ ((S.element i).simple = false →
      ∀ j, S.AttributeOf ((S.element i).index + 1) j →
        k.attr r (S.nameOf j) = attrValue attrs (S.nameOf j))
  | .close i => k.name r = S.nameOf i
  | .text content => k.content r = content

/-- `xml_token` reads the tokens `items`, one after the other. -/
inductive Tokenizes : ρ → List XmlItem → Prop
  | nil {r : ρ} : Tokenizes r []
  | cons {r r' : ρ} {item : XmlItem} {items : List XmlItem} (h : k.token r = (item.token, r'))
      (hshows : item.Shows S k r') (hs : Tokenizes r' items) : Tokenizes r (item :: items)

/-- `parse_value` stores `w` for the entry `i` when it is given the text of `w`. -/
def Legible (i : ℕ) (w : Stored) : Prop :=
  ∀ f : Front (XmlInput ρ), f.se = i → f.input.ptr = w.spell → xmlParseValue S k f = (true, w, f)

/-- Each value of a document is legible. -/
def Visit.Legible : Visit → Prop
  | .attribute i _ w => SeClient.Legible S k i w
  | .text i _ w => SeClient.Legible S k i w
  | _ => True

end Tokenizer

/-- What the names of a schema must be like for a document to be read: the attributes of a type
come first, and have different names, as have its elements and the global elements. -/
structure Schema.Readable (S : Schema) : Prop where
  attributesFirst : ∀ i j, S.ElementOf i j → j + 1 < i + (S.entries i).length →
    (S.element (j + 1)).isAttribute = false
  attributes : ∀ i j j', S.AttributeOf i j → S.AttributeOf i j' → S.nameOf j = S.nameOf j' → j = j'
  elements : ∀ i j j', S.ElementOf i j → S.ElementOf i j' → S.nameOf j = S.nameOf j' → j = j'
  globals : ∀ i j, i < S.length → j < S.length → S.nameOf i = S.nameOf j → i = j

end SeClient
