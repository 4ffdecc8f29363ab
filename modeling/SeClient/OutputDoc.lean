import SeClient.Schema

/-!
# Documents from objects

`output_doc` of `output.c` walks over an object along its schema and hands the events and
values it finds to an output driver.  One pass of its loop, from `switch` to `switch`, is
one step.  A driver that returns 0 has run out of buffer; `output_doc` returns and takes up
the same state in the next call.
-/

namespace SeClient

/-- `StackItem`: `count` occurrences of an entry of the object at `base` are done.  `all`
shares its memory with `diff`; the queue holds the items of a list still to come. -/
structure StackItem where
  se : ℕ
  base : Addr
  size : ℕ := 0
  count : ℕ := 0
  all : ℕ := 0
  queue : List Addr := []
deriving DecidableEq, Repr

/-- `MAX_STACK` -/
def maxStack : ℕ := 32

/-- `enum OutputState`. -/
inductive OutputState
  | outputStart | outputElement | outputAttribute | outputAttrValue | outputSimple
  | outputValue | outputEnd | outputComplex | outputComplete | outputError
deriving DecidableEq, Repr

/-- `enum OutputEvent`. -/
inductive OutputEvent
  | eeEvent | atEvent | seSimple | seComplex
deriving DecidableEq, Repr

/-- `Output`, with what only the driver uses as `out`.  `n` is the number of possible event
codes, 0 while it is not known, and `code` the current one. -/
structure Output (σ : Type) where
  state : OutputState := .outputStart
  se : ℕ := 0
  stack : List StackItem := []
  base : Addr := ⟨0, 0⟩
  n : ℕ := 0
  code : ℤ := 0
  flag : ℕ := 0
  first : Bool := false
  out : σ

/-- `OutputDriver`, where `none` is the return value 0. -/
structure OutputDriver (σ : Type) where
  outputEvent : Output σ → SchemaElement → OutputEvent → Option (Output σ)
  outputAttrValue : Output σ → Addr → Option (Output σ)
  outputValue : Output σ → Addr → Option (Output σ)
  outputDone : Output σ → Output σ

/-- Where a step of `output_doc` leads: on, or out of the function. -/
inductive OutputStep (σ : Type)
  | go (o : Output σ)
  | full (o : Output σ)
  | stop (o : Output σ)
  | complete (o : Output σ)

namespace Output
variable {σ : Type} (S : Schema) (m : Heap) (d : OutputDriver σ)

/-- `output_next` -/
def outputNext (o : Output σ) : Output σ :=
  { o with
    se := o.se + 1
    state := if (S.element (o.se + 1)).n ≠ 0 then .outputElement else .outputEnd }

/-- `output_skip` -/
def outputSkip (o : Output σ) : Output σ := outputNext S { o with code := o.code + 1 }

/-- `element_next`: the entry `t` on the stack is done. -/
def elementNext (o : Output σ) (t : StackItem) : Output σ :=
  outputSkip S { o with se := t.se, base := t.base, stack := o.stack.tail }

/-- `element_skip`: no more occurrences of the entry `t` on the stack. -/
def elementSkip (o : Output σ) (t : StackItem) : Output σ :=
  if t.count < (S.element t.se).min then { o with state := .outputError }
  else elementNext S { o with n := if o.n = 0 then (S.element t.se).n else o.n } t

/-- `output_element`: an occurrence of the entry `t` on the stack. -/
def outputElement (o : Output σ) (t : StackItem) : Output σ :=
  let se := S.element t.se
  { o with
    n := if o.n = 0 then (if t.count ≥ se.min then se.n else 1) else o.n
    state := if se.simple then .outputSimple else .outputComplex }

/-- The state OUTPUT_ELEMENT. -/
def stepElement (o : Output σ) : OutputStep σ :=
  let se := S.element o.se
  let o := { o with flag := se.bit }
  if se.isAttribute then
    let o := { o with n := if o.n = 0 then se.n else o.n }
    if m.outputCount o.base se ≠ 0 then .go { o with state := .outputAttribute }
    else if se.min ≠ 0 then .go { o with state := .outputError }
    else .go (outputSkip S o)
  else if o.stack.length = maxStack then .stop o
  else
    let t : StackItem := { se := o.se, base := o.base, size := S.objectElementSize se }
    let field := o.base.plus se.offset
    if se.unbounded then
      match m.items field with
      | [] => .go (elementSkip S { o with stack := t :: o.stack } t)
      | q :: queue =>
        let t := { t with queue := q :: queue }
        .go (outputElement S { o with stack := t :: o.stack, base := q } t)
    else
      let t := { t with all := m.outputCount o.base se }
      if t.all ≠ 0 then .go (outputElement S { o with stack := t :: o.stack, base := field } t)
      else .go (elementSkip S { o with stack := t :: o.stack } t)

/-- The state OUTPUT_END, after the EE event of the entry `t` on the stack. -/
def stepEnd (o : Output σ) (t : StackItem) (stack : List StackItem) : Output σ :=
  let se := S.element t.se
  let t := { t with count := t.count + 1 }
  if se.unbounded then
    let t := { t with queue := t.queue.tail }
    match t.queue with
    | [] => elementSkip S { o with stack := t :: stack } t
    | q :: _ => outputElement S { o with stack := t :: stack, base := q, flag := o.flag + 1 } t
  else if t.count < t.all then
    outputElement S { o with
      stack := t :: stack, base := o.base.plus t.size, flag := o.flag + 1 } t
  else if t.count = se.max then
    elementNext S { o with stack := t :: stack, code := o.code - 1 } t
  else elementSkip S { o with stack := t :: stack } t

/-- One pass of `output_doc`, for the object at `obj` of type `type`. -/
def step (obj : Addr) (type : ℕ) (o : Output σ) : OutputStep σ :=
  match o.state with
  | .outputStart =>
    if type ≥ S.length then .stop o
    else .go { o with
      se := type, code := type, n := S.length, base := obj, state := .outputElement
      first := true }
  | .outputElement => stepElement S m o
  | .outputAttribute =>
    match d.outputEvent o (S.element o.se) .atEvent with
    | none => .full o
    | some o => .go { o with state := .outputAttrValue }
  | .outputAttrValue =>
    match d.outputAttrValue o (o.base.plus (S.element o.se).offset) with
    | none => .full o
    | some o => .go (outputNext S o)
  | .outputSimple =>
    match d.outputEvent o (S.element o.se) .seSimple with
    | none => .full o
    | some o => .go { o with state := .outputValue }
  | .outputValue =>
    match d.outputValue o o.base with
    | none => .full o
    | some o => .go { o with state := .outputEnd }
  | .outputEnd =>
    match o.stack with
    | [] => .complete { d.outputDone o with state := .outputComplete }
    | t :: stack =>
      match d.outputEvent o (S.element t.se) .eeEvent with
      | none => .full o
      | some o => .go (stepEnd S o t stack)
  | .outputComplex =>
    match o.stack with
    | [] => .stop o
    | t :: _ =>
      match d.outputEvent o (S.element t.se) .seComplex with
      | none => .full o
      | some o => .go { o with
          se := (S.element t.se).index + 1, state := .outputElement }
  | .outputComplete => .stop { o with state := .outputStart }
  | .outputError => .stop o

end Output
end SeClient
