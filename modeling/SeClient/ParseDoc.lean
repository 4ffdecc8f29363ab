import SeClient.OutputDoc

/-!
# Objects from documents

`parse_doc` of `parse.c` builds an object along its schema from what a parser driver finds
in the document.  One pass of its loop, from `switch` to `switch`, is one step.  A driver
that returns 0 makes `parse_doc` return: the document is invalid, or more of it must be
read before the same state is taken up again.
-/

namespace SeClient

/-- `enum ParserState`, and the number after PARSE_INVALID, for which `switch` has no case. -/
inductive ParserState
  | parseStart | parseElement | parseNext | parseAttribute | parseValue | parseEnd
  | parseSequence | sequenceEnd | parseInvalid | beyond
deriving DecidableEq, Repr

/-- The fields of `Parser` that a driver writes, with what only the driver uses as `input`. -/
structure Front (ρ : Type) where
  state : ParserState := .parseStart
  type : ℕ := 0
  se : ℕ := 0
  input : ρ

/-- `Parser`. -/
structure Parser (ρ : Type) extends Front ρ where
  stack : List StackItem := []
  obj : Addr := ⟨0, 0⟩
  base : Addr := ⟨0, 0⟩
  flag : ℕ := 0
  heap : Heap

/-- Where a string goes that its container does not hold: to the `k` bytes behind the first `n`, or
to memory of no object, behind a string that is allocated or through NULL. -/
inductive Spill
  | behind (n k : ℕ)
  | elsewhere
deriving DecidableEq, Repr

/-- The places that are written, of a container at `a`. -/
def Spill.places (a : Addr) : Spill → List (Option Addr)
  | .behind n k => (List.range k).map fun j => some (a.plus (n + j))
  | .elsewhere => [none]

/-- What a driver stores through the pointer it is given: a true boolean sets the bit `flag`
of the word pointed to.  A string may be written beyond its container. -/
inductive Stored
  | nothing
  | flag
  | value (v : Value)
  | spilled (v : Option Value) (spill : Spill)
deriving DecidableEq, Repr

/-- `ParserDriver`. -/
structure ParserDriver (ρ : Type) where
  parseStart : Front ρ → Bool × Front ρ
  parseNext : List StackItem → Front ρ → Bool × Front ρ
  parseEnd : ℕ → Front ρ → Bool × Front ρ
  parseSequence : StackItem → Front ρ → Bool × Front ρ
  parseAttrValue : Front ρ → Bool × Stored × Front ρ
  parseValue : Front ρ → Bool × Stored × Front ρ
  parseDone : Front ρ → Front ρ

/-- Where a step of `parse_doc` leads: on, or out of the function, with the type and the
object of a document that is complete. -/
inductive ParseStep (ρ : Type)
  | go (p : Parser ρ)
  | stop (p : Parser ρ)
  | done (p : Parser ρ) (type : ℕ) (obj : Addr)

/-- The write of a driver. -/
def Heap.store (m : Heap) (a : Addr) (flag : ℕ) : Stored → Heap
  | .nothing => m
  | .flag => m.setCount a 1 flag
  | .value v => { m with value := Function.update m.value a (some v) }
  | .spilled v spill =>
    { m with value := Function.update m.value a v, spills := spill.places a ++ m.spills }

namespace Parser
variable {ρ : Type} (S : Schema) (d : ParserDriver ρ)

/-- The parser with what a driver has made of its front. -/
def withFront (p : Parser ρ) (f : Front ρ) : Parser ρ := { p with toFront := f }

/-- `add_element`, for the list of the entry `t`: the data of the new cell. -/
def addElement (p : Parser ρ) (t : StackItem) (items : List Addr) : Parser ρ :=
  let (heap, data) := p.heap.calloc
  let field := t.base.plus (S.element t.se).offset
  { p with
    base := data
    heap := { heap with items := Function.update heap.items field (items ++ [data]) } }

/-- `parse_element`: an occurrence of the entry `se`. -/
def parseElement (p : Parser ρ) (se : ℕ) : Parser ρ :=
  if (S.element se).simple then { p with state := .parseValue }
  else { p with se := (S.element se).index + 1, state := .parseNext }

/-- The state PARSE_ELEMENT. -/
def stepElement (p : Parser ρ) : ParseStep ρ :=
  let se := S.element p.se
  let p := { p with flag := se.bit }
  if se.isAttribute then
    if se.min = 0 ∧ se.isPointer = false then
      .go { p with
        heap := p.heap.setCount p.base 1 p.flag
        flag := p.flag + 1
        state := .parseAttribute }
    else .go { p with state := .parseAttribute }
  else if p.stack.length = maxStack then .stop { p with state := .parseInvalid }
  else
    let t : StackItem := { se := p.se, base := p.base, size := S.objectElementSize se }
    if se.unbounded then
      .go (parseElement S (addElement S { p with stack := t :: p.stack } t []) p.se)
    else
      let diff := se.max - se.min
      let flag := if diff ≠ 0 ∧ ¬(se.simple ∧ se.isPointer) then p.flag + bitCount diff else p.flag
      .go (parseElement S { p with
        stack := { t with all := diff } :: p.stack
        base := p.base.plus se.offset
        flag := flag } p.se)

/-- The state PARSE_SEQUENCE, once there is another occurrence of the entry `t` on the
stack. -/
def stepSequence (p : Parser ρ) (t : StackItem) : ParseStep ρ :=
  let se := S.element t.se
  if se.unbounded then
    let p := addElement S p t (p.heap.items (t.base.plus se.offset))
    .go (parseElement S { p with flag := p.flag + 1 } t.se)
  else if t.count < se.max then
    .go (parseElement S { p with base := p.base.plus t.size, flag := p.flag + 1 } t.se)
  else .stop { p with state := .parseInvalid }

/-- One pass of `parse_doc`. -/
def step (p : Parser ρ) : ParseStep ρ :=
  match p.state with
  | .parseStart =>
    let (ok, f) := d.parseStart p.toFront
    let p := p.withFront f
    if ok then
      let (heap, obj) := p.heap.calloc
      .go { p with stack := [], state := .parseElement, heap := heap, obj := obj, base := obj }
    else .stop p
  | .parseElement => stepElement S p
  | .parseNext =>
    let (ok, f) := d.parseNext p.stack p.toFront
    if ok then .go (p.withFront f) else .stop (p.withFront f)
  | .parseAttribute =>
    let (ok, w, f) := d.parseAttrValue p.toFront
    let field := p.base.plus (S.element p.se).offset
    let p := { p.withFront f with heap := p.heap.store field p.flag w }
    if ok then .go { p with state := .parseNext, se := p.se + 1 } else .stop p
  | .parseValue =>
    let (ok, w, f) := d.parseValue p.toFront
    let p := { p.withFront f with heap := p.heap.store p.base p.flag w }
    if ok then .go { p with state := .parseEnd } else .stop p
  | .parseEnd =>
    match p.stack with
    | [] =>
      let p := p.withFront (d.parseDone p.toFront)
      .done { p with state := .parseStart } p.type p.obj
    | t :: stack =>
      let (ok, f) := d.parseEnd t.se p.toFront
      let p := p.withFront f
      if ok then
        let t := { t with count := t.count + 1 }
        let se := S.element t.se
        .go { p with
          stack := t :: stack
          state := if se.unbounded ∨ t.count < se.max then .parseSequence else .sequenceEnd }
      else .stop p
  | .parseSequence =>
    match p.stack with
    | [] => .stop p
    | t :: _ =>
      let (ok, f) := d.parseSequence t p.toFront
      let p := p.withFront f
      if ok then stepSequence S p t
      else if p.state = .parseSequence then .stop p
      else .go p
  | .sequenceEnd =>
    match p.stack with
    | [] => .stop p
    | t :: stack =>
      let heap :=
        if t.all ≠ 0 then
          p.heap.setCount t.base (t.count - (S.element t.se).min) (S.element t.se).bit
        else p.heap
      .go { p with
        heap := heap, stack := stack, base := t.base, se := t.se + 1, state := .parseNext }
  | .parseInvalid => .stop p
  | .beyond => .go p

end Parser
end SeClient
