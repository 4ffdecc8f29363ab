import SeClient.BitFields
import SeClient.CharacterData
import SeClient.OutputWalk
import SeClient.Targets
import SeClient.XmlDriver

/-!
# The XML output

The functions of `xml_output.c`, which write a document into a buffer.  Where there is no room for
the next piece, the call fails, and is made again when the buffer was taken away.
-/

namespace SeClient

/-- The fields of `Output` that only the XML driver uses: what is between `buffer` and `ptr`, the
size of the buffer, the indentation and the flag `open`. -/
structure XmlSink where
  text : CString := []
  size : ℕ
  indent : ℕ := 0
  isOpen : Bool := false
deriving DecidableEq, Repr

namespace XmlSink

/-- `o->end - o->ptr` -/
def room (o : XmlSink) : ℕ := o.size - o.text.length

def put (o : XmlSink) (s : CString) : XmlSink := { o with text := o.text ++ s }

/-- `output_char` -/
def outputChar (o : XmlSink) (c : UInt8) : Bool × XmlSink :=
  if o.text.length + 1 < o.size then (true, o.put [c]) else (false, o)

/-- `output_string`, of a text that was formatted; it returns its length. -/
def outputString (o : XmlSink) (s : CString) : Bool × XmlSink :=
  if s.length ≥ o.room then (false, o) else (s.length ≠ 0, o.put s)

/-- `output_escaped`; bytes that are no UTF-8 are not written. -/
def outputEscaped (o : XmlSink) : Option CString → Bool × XmlSink
  | none => (false, o)
  | some s =>
    match SeClient.outputEscaped o.room s with
    | .done out => (true, o.put out)
    | _ => (false, o)

/-- `output_hex` -/
def outputHex (o : XmlSink) (value : List UInt8) : Bool × XmlSink :=
  match SeClient.outputHex o.room value with
  | some out => (true, o.put out)
  | none => (false, o)

/-- `output_break`, of a text that was formatted. -/
def outputBreak (o : XmlSink) (first : Bool) (s : CString) : Bool × XmlSink :=
  if first then
    if s.length ≥ o.room then (false, o) else (true, o.put s)
  else if o.text.length + o.indent + 1 ≥ o.size then (false, o)
  else
    let broken := o.put (10 :: List.replicate o.indent 32)
    if s.length ≥ broken.room then (false, o) else (true, broken.put s)

end XmlSink

/-- The string that is written for what is stored, `none` for a null pointer. -/
def SchemaElement.writtenString (se : SchemaElement) : Stored → Option CString
  | .value (.text s) => some s
  | _ => if se.isPointer then none else some []

/-- The bytes that are written. -/
def SchemaElement.writtenBytes (se : SchemaElement) : Stored → List UInt8
  | .value (.binary b) => b
  | _ => List.replicate se.xsLength 0

/-- The number that is written. -/
def Stored.writtenNumber : Stored → ℤ
  | .value (.number x) => x
  | _ => 0

section Driver
variable (S : Schema) (m : Heap) (ns : Option CString)

/-- `output_value`, of what `value` points to. -/
def xmlOutputStored (o : Output XmlSink) (w : Stored) : Bool × Output XmlSink :=
  let se := S.element o.se
  let (ok, out) := match se.xsType with
    | .string | .anyURI => o.out.outputEscaped (se.writtenString w)
    | .boolean => o.out.outputString
        (if w = .flag then chars ['t', 'r', 'u', 'e'] else chars ['f', 'a', 'l', 's', 'e'])
    | .hexBinary => o.out.outputHex (se.writtenBytes w)
    | .null => (false, o.out)
    | _ => o.out.outputString (decimalText w.writtenNumber)
  (ok, { o with out := out })

/-- `output_value` -/
def xmlOutputValue (o : Output XmlSink) (a : Addr) : Bool × Output XmlSink :=
  xmlOutputStored S o (m.load (S.element o.se).xsType a o.flag)

/-- `output_quoted`, where `ptr` is set back if not all was written. -/
def xmlOutputQuoted (o : Output XmlSink) (a : Addr) : Bool × Output XmlSink :=
  let (ok, out) := o.out.outputChar 34
  if ok then
    let (ok, o₁) := xmlOutputValue S m { o with out := out } a
    if ok then
      let (ok, out) := o₁.out.outputChar 34
      if ok then (true, { o₁ with out := out }) else (false, o)
    else (false, o)
  else (false, o)

/-- The entry of an event. -/
def Output.eventEntry {σ : Type} (o : Output σ) : OutputEvent → ℕ
  | .atEvent | .seSimple => o.se
  | _ => (o.stack.head?.map StackItem.se).getD o.se

/-- `xmlns`, for the first element. -/
def namespaceText (ns : CString) : CString :=
  chars [' ', 'x', 'm', 'l', 'n', 's', '=', '"'] ++ ns ++ [34]

/-- The second part of `output_event`, behind the tag before. -/
def xmlOutputTag (o : Output XmlSink) (se : SchemaElement) (event : OutputEvent) :
    Bool × Output XmlSink :=
  let name := S.nameOf (o.eventEntry event)
  match event with
  | .eeEvent =>
    if o.out.isOpen then
      let (ok, out) := o.out.outputString [47, 62]
      if ok then (true, { o with out := { out with isOpen := false, indent := out.indent - 2 } })
      else (false, { o with out := out })
    else if se.simple then
      let (ok, out) := o.out.outputString (60 :: 47 :: (name ++ [62]))
      (ok, { o with out := out })
    else
      let (ok, out) := { o.out with indent := o.out.indent - 2 }.outputBreak o.first
        (60 :: 47 :: (name ++ [62]))
      if ok then (true, { o with out := out }) else (false, o)
  | .atEvent =>
    let (ok, out) := o.out.outputString (32 :: (name ++ [61]))
    (ok, { o with out := out })
  | .seSimple =>
    let (ok, out) := o.out.outputBreak o.first (60 :: (name ++ [62]))
    (ok, { o with out := out })
  | .seComplex =>
    let (ok, out) := o.out.outputBreak o.first (60 :: name)
    if ok then
      let (ok, out) := match ns with
        | some ns => if o.first then out.outputString (namespaceText ns) else (true, out)
        | none => (true, out)
      if ok then
        (true, { o with
          first := false, out := { out with isOpen := true, indent := out.indent + 2 } })
      else (false, { o with out := out })
    else (false, { o with out := out })

/-- `output_event` -/
def xmlOutputEvent (o : Output XmlSink) (se : SchemaElement) (event : OutputEvent) :
    Bool × Output XmlSink :=
  if (event = .seSimple ∨ event = .seComplex) ∧ o.out.isOpen then
    let (ok, out) := o.out.outputChar 62
    if ok then xmlOutputTag S ns { o with out := { out with isOpen := false } } se event
    else (false, o)
  else xmlOutputTag S ns o se event

/-- What a driver function returns, if it is not 0. -/
def succeeded {σ : Type} (r : Bool × Output σ) : Option (Output σ) := if r.1 then some r.2 else none

/-- `xml_output` -/
def xmlOutput : OutputDriver XmlSink where
  outputEvent := fun o se event => succeeded (xmlOutputEvent S ns o se event)
  outputAttrValue := fun o a => succeeded (xmlOutputQuoted S m o a)
  outputValue := fun o a => succeeded (xmlOutputValue S m o a)
  outputDone := fun o => { o with out := (o.out.outputChar 10).2 }

/-- The next call: what it returns, and what it leaves behind if it fails. -/
def xmlAttempt (o : Output XmlSink) : Bool × Output XmlSink :=
  match o.state with
  | .outputAttribute => xmlOutputEvent S ns o (S.element o.se) .atEvent
  | .outputAttrValue => xmlOutputQuoted S m o (o.base.plus (S.element o.se).offset)
  | .outputSimple => xmlOutputEvent S ns o (S.element o.se) .seSimple
  | .outputValue => xmlOutputValue S m o o.base
  | .outputEnd => xmlOutputEvent S ns o (S.element (o.eventEntry .eeEvent)) .eeEvent
  | .outputComplex => xmlOutputEvent S ns o (S.element (o.eventEntry .seComplex)) .seComplex
  | _ => (false, o)

/-- The start of a call of `output_doc`: the buffer is empty again. -/
def Output.flush (o : Output XmlSink) : Output XmlSink :=
  { o with out := { o.out with text := [] } }

/-- Calls of `output_doc` that run out of room give the buffers `buffers`, and then the loop gets
to `q`. -/
inductive Emits (obj : Addr) (type : ℕ) :
    Output XmlSink → List CString → Output XmlSink → Prop
  | refl {p : Output XmlSink} : Emits obj type p [] p
  | go {p p' q : Output XmlSink} {buffers : List CString}
      (h : Output.step S m (xmlOutput S m ns) obj type p = .go p')
      (hs : Emits obj type p' buffers q) : Emits obj type p buffers q
  | full {p p' q : Output XmlSink} {buffers : List CString}
      (h : Output.step S m (xmlOutput S m ns) obj type p = .full p')
      (hs : Emits obj type (xmlAttempt S m ns p').2.flush buffers q) :
      Emits obj type p ((xmlAttempt S m ns p').2.out.text :: buffers) q

/-- `output_doc`, called until `output_complete`, gives the buffers `buffers`. -/
def XmlOutputs (obj : Addr) (type size : ℕ) (buffers : List CString) : Prop :=
  ∃ q q' full, Emits S m ns obj type { out := { size := size } } full q ∧
    Output.step S m (xmlOutput S m ns) obj type q = .complete q' ∧
    buffers = full ++ [q'.out.text]

end Driver
end SeClient
