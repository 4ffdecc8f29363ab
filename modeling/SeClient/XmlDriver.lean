import SeClient.Numerals
import SeClient.ParseDoc
import SeClient.XmlToken

/-!
# The XML driver

The functions of `xml_parse.c`, for any row of tokens.
-/

namespace SeClient

/-- What the XML parser reads from: `token` is `xml_token`, `name`, `content` and `attr` are the
fields of `XmlParser` afterwards, `integer` and `hex` read the text of a value. -/
structure XmlSource (ρ : Type) where
  token : ρ → TokenType × ρ
  name : ρ → CString
  content : ρ → CString
  attr : ρ → CString → Option CString
  integer : XsInteger → CString → Option ℤ
  hex : ℕ → CString → Bool × Option (List UInt8)
  done : ρ → ρ

/-- The fields of `Parser` that only the XML driver uses. -/
structure XmlInput (ρ : Type) where
  token : TokenType := .startTag
  needToken : Bool := true
  empty : Bool := false
  xmlDecl : Bool := false
  ptr : CString := []
  source : ρ

section Driver
variable {ρ : Type} (S : Schema) (k : XmlSource ρ)

/-- The name of an entry. -/
def Schema.nameOf (i : ℕ) : CString := S.names.getD (S.seName i) []

/-- `parse_token`: the token is left in the parser. -/
def parseToken (f : Front (XmlInput ρ)) : Front (XmlInput ρ) :=
  if f.input.needToken then
    let (token, source) := k.token f.input.source
    let f := { f with input := { f.input with token := token, source := source } }
    match token with
    | .xmlInvalid => { f with state := .parseInvalid }
    | .xmlIncomplete => { f with input := { f.input with ptr := k.content source } }
    | _ => { f with input := { f.input with needToken := false } }
  else f

/-- `parse_text` -/
def parseTextToken (f : Front (XmlInput ρ)) : Bool × Front (XmlInput ρ) :=
  let f := parseToken k f
  match f.input.token with
  | .xmlText =>
    (true, { f with input := { f.input with ptr := k.content f.input.source, needToken := true } })
  | .endTag => (true, { f with input := { f.input with ptr := [] } })
  | _ => (false, f)

/-- An integer in `parse_value`. -/
def XmlSource.number (t : XsInteger) (data : CString) : Bool × Stored :=
  match k.integer t data with
  | some x => (true, .value (.number x))
  | none => (false, .nothing)

/-- `parse_value` -/
def xmlParseValue (f : Front (XmlInput ρ)) : Bool × Stored × Front (XmlInput ρ) :=
  let se := S.element f.se
  let data := f.input.ptr
  let number (t : XsInteger) := ((k.number t data).1, (k.number t data).2, f)
  match se.xsType with
  | .string =>
    if se.xsLength ≠ 0 ∧ data.length > se.xsLength - 1 then (false, .nothing, f)
    else (true, .value (.text data), f)
  | .boolean =>
    if data = chars ['t', 'r', 'u', 'e'] ∨ data = chars ['1'] then (true, .flag, f)
    else if data = chars ['f', 'a', 'l', 's', 'e'] ∨ data = chars ['0'] then (true, .nothing, f)
    else (false, .nothing, { f with state := .parseInvalid })
  | .hexBinary =>
    match k.hex se.xsLength data with
    | (ok, some b) => (ok, .value (.binary b), f)
    | (ok, none) => (ok, .nothing, f)
  | .anyURI => (true, .value (.text data), f)
  | .long => number .long
  | .int => number .int
  | .short => number .short
  | .byte => number .byte
  | .ulong => number .ulong
  | .uint => number .uint
  | .ushort => number .ushort
  | .ubyte => number .ubyte
  | .null => (false, .nothing, f)

/-- `parse_text_value` -/
def parseTextValue (f : Front (XmlInput ρ)) : Bool × Stored × Front (XmlInput ρ) :=
  let (ok, f) := parseTextToken k f
  if ok then xmlParseValue S k f else (false, .nothing, f)

/-- `start_tag`, for the entry `i`. -/
def startTag (i : ℕ) (f : Front (XmlInput ρ)) : Bool × Front (XmlInput ρ) :=
  let f := parseToken k f
  match f.input.token with
  | .startTag | .emptyTag =>
    if f.input.empty then (false, { f with state := .parseInvalid })
    else if S.nameOf i ≠ k.name f.input.source then (false, f)
    else
      let empty := f.input.token = .emptyTag
      let f := { f with input := { f.input with empty := empty, needToken := true } }
      if empty ∧ (S.element i).simple then (false, { f with state := .parseInvalid }) else (true, f)
  | .endTag | .xmlIncomplete => (false, f)
  | _ => (false, { f with state := .parseInvalid })

/-- `end_tag` -/
def endTag (i : ℕ) (f : Front (XmlInput ρ)) : Bool × Front (XmlInput ρ) :=
  let f := parseToken k f
  if f.input.token = .endTag ∧ S.nameOf i = k.name f.input.source then
    (true, { f with input := { f.input with needToken := true } })
  else (false, f)

/-- `find_se_name`: the index of a global element. -/
def findSeName (name : CString) : Option ℕ :=
  (List.range S.length).find? fun i => S.names.getD i [] = name

/-- The loop of `xml_start`. -/
def xmlStartLoop : ℕ → Front (XmlInput ρ) → Bool × Front (XmlInput ρ)
  | 0, f => (false, f)
  | fuel + 1, f =>
    let f := parseToken k f
    match f.input.token with
    | .xmlDecl =>
      if f.input.xmlDecl then (false, { f with state := .parseInvalid })
      else xmlStartLoop fuel
        { f with input := { f.input with xmlDecl := true, needToken := true } }
    | .startTag | .emptyTag =>
      match findSeName S (k.name f.input.source) with
      | none => (false, { f with state := .parseInvalid })
      | some i =>
        let empty := f.input.token = .emptyTag
        (true, { f with
          type := i
          se := i
          input := { f.input with empty := empty, needToken := !empty } })
    | .xmlIncomplete => (false, f)
    | _ => (false, { f with state := .parseInvalid })

/-- `xml_start` -/
def xmlStart (fuel : ℕ) (f : Front (XmlInput ρ)) : Bool × Front (XmlInput ρ) :=
  xmlStartLoop S k fuel { f with input := { f.input with needToken := true } }

/-- The loop of `xml_skip_unknown`, `depth` elements deep. -/
def skipLoop : ℕ → ℕ → Front (XmlInput ρ) → Bool × Front (XmlInput ρ)
  | _, 0, f => (true, f)
  | 0, _ + 1, f => (false, f)
  | fuel + 1, depth + 1, f =>
    let (token, source) := k.token f.input.source
    let f := { f with input := { f.input with source := source } }
    match token with
    | .startTag => skipLoop fuel (depth + 2) f
    | .endTag => skipLoop fuel depth f
    | .xmlIncomplete => (false, { f with input := { f.input with ptr := k.content source } })
    | .xmlInvalid => (false, f)
    | _ => skipLoop fuel (depth + 1) f

/-- `xml_skip_unknown` -/
def xmlSkipUnknown (fuel : ℕ) (f : Front (XmlInput ρ)) : Bool × Front (XmlInput ρ) :=
  let skipped := { f with input := { f.input with needToken := true } }
  if f.input.token = .emptyTag then (true, skipped) else skipLoop k fuel 1 skipped

/-- The element of the name of the current tag, in the sequence from the entry `i` on. -/
def findElement (i : ℕ) (name : CString) : Option ℕ :=
  (List.range' i (S.entries i).length).find? fun j =>
    !(S.element j).isAttribute && decide (S.nameOf j = name)

/-- The loop of `xml_next`, at the entry `se`. -/
def xmlNextLoop (fuel₀ : ℕ) (stack : List StackItem) :
    ℕ → ℕ → Front (XmlInput ρ) → Bool × Front (XmlInput ρ)
  | 0, se, f => if f.state ≠ .parseNext then (true, { f with se := se - 1 }) else (false, f)
  | fuel + 1, se, f =>
    if f.state ≠ .parseNext then (true, { f with se := se - 1 })
    else if (S.element se).n = 0 then
      match stack with
      | [] => xmlNextLoop fuel₀ stack fuel (se + 1) { f with state := .parseEnd }
      | t :: _ =>
        if f.input.empty then
          xmlNextLoop fuel₀ stack fuel (se + 1) { f with state := .parseEnd }
        else
          let f := parseToken k f
          match f.input.token with
          | .xmlIncomplete => (false, f)
          | .xmlInvalid =>
            xmlNextLoop fuel₀ stack fuel (se + 1) { f with state := .parseInvalid }
          | .startTag | .emptyTag =>
            match findElement S ((S.element t.se).index + 1) (k.name f.input.source) with
            | some found =>
              xmlNextLoop fuel₀ stack fuel (found + 1)
                { (startTag S k found f).2 with state := .parseElement }
            | none =>
              let (ok, f) := xmlSkipUnknown k fuel₀ f
              if ok then xmlNextLoop fuel₀ stack fuel se f else (false, f)
          | _ => xmlNextLoop fuel₀ stack fuel (se + 1) { f with state := .parseEnd }
    else if (S.element se).isAttribute then
      match k.attr f.input.source (S.nameOf se) with
      | some value =>
        xmlNextLoop fuel₀ stack fuel (se + 1)
          { f with state := .parseElement, input := { f.input with ptr := value } }
      | none =>
        xmlNextLoop fuel₀ stack fuel (se + 1) { f with input := { f.input with ptr := [] } }
    else if f.input.empty then
      xmlNextLoop fuel₀ stack fuel (se + 1)
        (if (S.element se).min ≠ 0 then { f with state := .parseInvalid } else f)
    else
      let (ok, f) := startTag S k se f
      if ok then xmlNextLoop fuel₀ stack fuel (se + 1) { f with state := .parseElement }
      else if f.input.token = .xmlIncomplete then (false, f)
      else xmlNextLoop fuel₀ stack fuel (se + 1) f

/-- `xml_next` -/
def xmlNext (fuel : ℕ) (stack : List StackItem) (f : Front (XmlInput ρ)) :
    Bool × Front (XmlInput ρ) :=
  xmlNextLoop S k fuel stack fuel f.se f

/-- `xml_end` -/
def xmlEnd (i : ℕ) (f : Front (XmlInput ρ)) : Bool × Front (XmlInput ρ) :=
  if f.input.empty then (true, { f with input := { f.input with empty := false } })
  else
    let (ok, f) := endTag S k i f
    if ok then (true, { f with input := { f.input with empty := false } }) else (false, f)

/-- `xml_sequence`, where the state that is counted up can be PARSE_INVALID. -/
def xmlSequence (t : StackItem) (f : Front (XmlInput ρ)) : Bool × Front (XmlInput ρ) :=
  let (ok, f) := startTag S k t.se f
  if ok then (true, f)
  else
    match f.input.token with
    | .startTag | .emptyTag | .endTag =>
      if t.count < (S.element t.se).min then (false, { f with state := .parseInvalid })
      else if f.state = .parseInvalid then (false, { f with state := .beyond })
      else (false, { f with state := .sequenceEnd })
    | _ => (false, f)

/-- `xml_parser`, of which the loops take up to `fuel` rounds. -/
def xmlParser (fuel : ℕ) : ParserDriver (XmlInput ρ) where
  parseStart := xmlStart S k fuel
  parseNext := xmlNext S k fuel
  parseEnd := xmlEnd S k
  parseSequence := xmlSequence S k
  parseAttrValue := xmlParseValue S k
  parseValue := parseTextValue S k
  parseDone := fun f => { f with input := { f.input with source := k.done f.input.source } }

end Driver
end SeClient
