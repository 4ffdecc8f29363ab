import SeClient.ParseDoc

/-!
# The EXI drivers

The functions of `exi_output.c` and `exi_parse.c` that write and read event codes.  They are
the same whatever the bits are written to and read from.
-/

namespace SeClient

/-- What the EXI output writes to: `room n` says that `n` bytes of the buffer are left, and
`value` is `exi_output_value`, for the entry, the pointer and the flag. -/
structure ExiSink (σ : Type) where
  room : ℕ → σ → Bool
  bits : ℕ → ℕ → σ → σ
  bit : Bool → σ → σ
  value : ℕ → Addr → ℕ → σ → Option σ
  done : σ → σ

/-- What a reading function of the EXI parser returns and leaves behind: with `invalid` it
sets the state PARSE_INVALID. -/
structure ExiRead (ρ : Type) where
  ok : Bool
  invalid : Bool := false
  stored : Stored := .nothing
  rest : ρ

/-- What the EXI parser reads from: `header` is `exi_parse_header`, `value` is
`exi_parse_value` for an entry. -/
structure ExiSource (ρ : Type) where
  bits : ℕ → ρ → ℕ × ρ
  bit : ρ → ℕ × ρ
  truncated : ρ → Bool
  header : ρ → ExiRead ρ
  value : ℕ → ρ → ExiRead ρ
  done : ρ → ρ

/-- The fields of `Parser` that only the EXI driver uses. -/
structure ExiParser (ρ : Type) where
  token : ℕ := 0
  needToken : Bool := false
  source : ρ

section Output
variable {σ : Type} (S : Schema) (m : Heap) (k : ExiSink σ)

/-- `exi_output_event` -/
def exiOutputEvent (o : Output σ) (_ : SchemaElement) (type : OutputEvent) : Option (Output σ) :=
  if k.room 3 o.out then
    let bits := if type = .eeEvent ∧ o.n = 0 then 1 else bitCount o.n
    some { o with out := k.bits o.code.toNat bits o.out, n := 0, code := 0 }
  else none

/-- `exi_output_value` -/
def exiOutputValue (o : Output σ) (value : Addr) : Option (Output σ) :=
  (k.value o.se value o.flag o.out).map fun out => { o with out := out }

/-- The string a pointer to a value leads to is empty. -/
def Heap.emptyString (value : Addr) : Bool :=
  match m.value value with
  | some (.text (_ :: _)) => false
  | _ => true

/-- `exi_output_simple` -/
def exiOutputSimple (o : Output σ) (value : Addr) : Option (Output σ) :=
  let se := S.element o.se
  if (se.xsType = .string ∨ se.xsType = .anyURI) ∧ m.emptyString value then
    some { o with out := k.bits 4 3 o.out }
  else exiOutputValue k { o with out := k.bit false o.out } value

/-- `exi_output` -/
def exiOutput : OutputDriver σ where
  outputEvent := exiOutputEvent k
  outputAttrValue := exiOutputValue k
  outputValue := exiOutputSimple S m k
  outputDone := fun o => { o with out := k.done o.out }

end Output

section Parse
variable {ρ : Type} (S : Schema) (k : ExiSource ρ)

/-- The front after a reading function. -/
def ExiRead.front (r : ExiRead ρ) (f : Front (ExiParser ρ)) : Front (ExiParser ρ) :=
  { f with
    state := if r.invalid then .parseInvalid else f.state
    input := { f.input with source := r.rest } }

/-- `exi_parse_start` -/
def exiParseStart (f : Front (ExiParser ρ)) : Bool × Front (ExiParser ρ) :=
  let header := k.header f.input.source
  let f := header.front f
  if header.ok then
    let (type, source) := k.bits (bitCount S.length) f.input.source
    let f := { f with type := type, input := { f.input with source := source } }
    if type < S.length then
      (true, { f with se := type, input := { f.input with needToken := true } })
    else (false, { f with state := .parseInvalid })
  else (false, f)

/-- `exi_parse_simple`, in which a code of the second level is the end of the element. -/
def exiParseSimple (f : Front (ExiParser ρ)) : Bool × Stored × Front (ExiParser ρ) :=
  let (bit, source) := k.bit f.input.source
  if bit ≠ 0 then
    let (code, source) := k.bits 3 source
    let f := { f with input := { f.input with source := source } }
    if code ≠ 0 then (false, .nothing, { f with state := .parseInvalid })
    else (true, .nothing, { f with input := { f.input with needToken := false } })
  else
    let r := k.value f.se source
    (r.ok, r.stored, r.front f)

/-- `exi_parse_value` -/
def exiParseValue (f : Front (ExiParser ρ)) : Bool × Stored × Front (ExiParser ρ) :=
  let r := k.value f.se f.input.source
  (r.ok, r.stored, r.front f)

/-- `exi_event` -/
def exiEvent (n : ℕ) (f : Front (ExiParser ρ)) : Bool × Front (ExiParser ρ) :=
  let (token, source) := k.bits (bitCount n) f.input.source
  let f := { f with input := { f.input with token := token, source := source } }
  if k.truncated source then (false, f)
  else if token ≥ n then (false, { f with state := .parseInvalid })
  else (true, f)

/-- What `exi_parse_next` does once it has a token. -/
def takeToken (f : Front (ExiParser ρ)) : Front (ExiParser ρ) :=
  let se := f.se + f.input.token
  let more := (S.element se).n ≠ 0
  { f with
    se := se
    state := if more then .parseElement else .parseEnd
    input := { f.input with needToken := more } }

/-- `exi_parse_next` -/
def exiParseNext (_ : List StackItem) (f : Front (ExiParser ρ)) : Bool × Front (ExiParser ρ) :=
  let se := S.element f.se
  if se.n ≠ 0 then
    if f.input.needToken then
      let (ok, f) := exiEvent k (if se.min ≠ 0 then 1 else se.n) f
      if ok then (true, takeToken S f) else (false, f)
    else (true, takeToken S f)
  else (true, { f with state := .parseEnd })

/-- `exi_parse_end` -/
def exiParseEnd (_ : ℕ) (f : Front (ExiParser ρ)) : Bool × Front (ExiParser ρ) :=
  if f.input.needToken then
    let (bit, source) := k.bit f.input.source
    let f := { f with input := { f.input with source := source } }
    if bit ≠ 0 then (false, { f with state := .parseInvalid }) else (true, f)
  else (true, { f with input := { f.input with needToken := true } })

/-- `exi_parse_sequence`: the end of the sequence is a return value of 0 in another state. -/
def exiParseSequence (t : StackItem) (f : Front (ExiParser ρ)) : Bool × Front (ExiParser ρ) :=
  let se := S.element t.se
  let (ok, f) := exiEvent k (if t.count ≥ se.min then se.n else 1) f
  if ok then
    if f.input.token ≠ 0 then
      (false, { f with
        state := .sequenceEnd
        input := { f.input with needToken := false, token := f.input.token - 1 } })
    else (true, f)
  else (false, f)

/-- `exi_parser` -/
def exiParser : ParserDriver (ExiParser ρ) where
  parseStart := exiParseStart S k
  parseNext := exiParseNext S k
  parseEnd := exiParseEnd k
  parseSequence := exiParseSequence S k
  parseAttrValue := exiParseValue k
  parseValue := exiParseSimple k
  parseDone := fun f => { f with input := { f.input with source := k.done f.input.source } }

end Parse
end SeClient
