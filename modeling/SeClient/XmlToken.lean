import SeClient.HttpLines

/-!
# XML tokens

`xml_token.c`: the tokens of a buffer, of which the rest is the string up to the NUL.  What a
token is decoded to is written over the bytes it was read from, and never more than was read, so
that it is kept apart from the rest here.  A function that returns a pointer is `some none` for
NULL, and `none` where the code writes through a pointer that is NULL or was not set.
-/

namespace SeClient

/-- `enum TokenType`. -/
inductive TokenType
  | startTag | emptyTag | endTag | xmlDecl | xmlPi | xmlText | xmlNone | xmlIncomplete | xmlInvalid
deriving DecidableEq, Repr

/-- `XmlParser`, the text decoded so far in `content`. -/
structure XmlParser where
  name : CString := []
  content : CString := []
  data : CString
  state : ℕ := 0
  token : TokenType := .xmlNone
  attr : List (CString × CString) := []
deriving DecidableEq, Repr

/-- `attr_value` -/
def attrValue (attr : List (CString × CString)) (name : CString) : Option CString :=
  (attr.find? fun a => a.1 = name).map Prod.snd

/-! ## Characters -/

/-- `ws` -/
def ws (c : UInt8) : Bool := c = 10 ∨ c = 32 ∨ c = 9 ∨ c = 13

/-- `trim` -/
def trim (data : CString) : CString := data.dropWhile ws

/-- `in_range` -/
def inRange (c a b : ℕ) : Bool := a ≤ c ∧ c ≤ b

/-- `name_start` -/
def nameStart (c : ℕ) : Bool :=
  inRange c 97 122 || inRange c 65 90 || c = 58 || c = 95 || inRange c 0xc0 0xd6 ||
    inRange c 0xd8 0xf6 || inRange c 0xf8 0x2ff || inRange c 0x370 0x37d ||
    inRange c 0x37f 0x1fff || inRange c 0x200c 0x200d || inRange c 0x2070 0x218f || inRange c 0x2c00 0x2fef ||
    inRange c 0x3001 0xd7ff || inRange c 0xf900 0xfdcf || inRange c 0xfdf0 0xfffd ||
    inRange c 0x10000 0xeffff

/-- `name_char` -/
def nameChar (c : ℕ) : Bool :=
  c = 45 || c = 46 || inRange c 48 57 || nameStart c || c = 0xb7 || inRange c 0x300 0x36f ||
    inRange c 0x203f 0x2040

/-- `xml_char` -/
def xmlChar (c : ℕ) : Bool :=
  c = 10 || c = 32 || c = 9 || c = 13 || inRange c 0x20 0xd7ff || inRange c 0xe000 0xfffd ||
    inRange c 0x10000 0x10ffff

/-- The loop of `xml_name`, behind the first character. -/
def nameRest : ℕ → CString → Option CString
  | 0, _ => none
  | fuel + 1, data =>
    match utf8Char 0 0 data with
    | none => none
    | some (c, next) => if nameChar c then nameRest fuel next else some data

/-- `xml_name`: what follows a name. -/
def xmlName (data : CString) : Option CString :=
  match utf8Char 0 0 data with
  | none => none
  | some (c, next) => if nameStart c then nameRest (data.length + 1) next else none

/-- The bytes in front of `rest`, which is the end of `data`. -/
def upTo (data rest : CString) : CString := data.take (data.length - rest.length)

/-- `hex_digit`, with the value of the digit. -/
def hexDigit (c : UInt8) : Option ℕ :=
  if 48 ≤ c ∧ c ≤ 57 then some (c.toNat - 48)
  else if 97 ≤ c ∧ c ≤ 102 then some (c.toNat - 87)
  else if 65 ≤ c ∧ c ≤ 70 then some (c.toNat - 55)
  else none

/-- `hex_number`, of a number behind digits with the value `y`. -/
def hexNumber (y : ℕ) : CString → ℕ × CString
  | [] => (y, [])
  | c :: data =>
    match hexDigit c with
    | some d => hexNumber ((y * 16 + d) % 2 ^ 32) data
    | none => (y, c :: data)

/-- The text in front of the first `pattern`, and what follows the pattern. -/
def splitAt (pattern : CString) : CString → Option (CString × CString)
  | [] => none
  | c :: data =>
    if pattern.isPrefixOf (c :: data) then some ([], (c :: data).drop pattern.length)
    else (splitAt pattern data).map fun (a, b) => (c :: a, b)

/-! ## References and attributes -/

/-- The names and characters of the entities. -/
def entities : List (CString × UInt8) :=
  [(chars ['a', 'm', 'p'], 38), (chars ['l', 't'], 60), (chars ['g', 't'], 62),
    (chars ['q', 'u', 'o', 't'], 34), (chars ['a', 'p', 'o', 's'], 39)]

/-- The number of a reference behind `#`, if there is nothing else. -/
def referenceNumber (ref : CString) : Option ℕ :=
  match ref with
  | 120 :: digits =>
    if digits.head?.any (fun c => (hexDigit c).isSome) then
      let (x, rest) := hexNumber 0 digits
      if rest = [] then some x else none
    else none
  | digits =>
    match number digits with
    | some (x, []) => some (x % 2 ^ 32).toNat
    | _ => none

/-- `xml_reference`, behind the `&`: the bytes and what follows the semicolon. -/
def xmlReference (data : CString) : Option (Option (CString × CString)) :=
  match splitAt [59] data with
  | none => some none
  | some (35 :: ref, rest) =>
    match referenceNumber ref with
    | none => some none
    | some x => (utf8Encode x).map fun bytes => some (bytes, rest)
  | some (ref, rest) => some ((entities.find? fun e => e.1 = ref).map fun e => ([e.2], rest))

/-- The loop of `att_value` after the quotation mark `q`. -/
def attLoop (q : UInt8) : ℕ → CString → CString → Option (Option (CString × CString))
  | 0, _, _ => some none
  | _ + 1, _, [] => some none
  | fuel + 1, value, c :: data =>
    if c = 60 then some none
    else if c = 38 then
      match xmlReference data with
      | none => none
      | some none => some none
      -- The `break` leads to `*value++ = c`.
      | some (some (bytes, rest)) => attLoop q fuel (value ++ bytes ++ [c]) rest
    else if c = q then some (some (value, data))
    else attLoop q fuel (value ++ [c]) data

/-- `att_value`: the value and what follows it. -/
def attValue (data : CString) : Option (Option (CString × CString)) :=
  match data with
  | [] => some none
  | q :: data => if q = 34 ∨ q = 39 then attLoop q (data.length + 1) [] data else some none

/-- `xml_eq` -/
def xmlEq (data : CString) : Option CString :=
  match trim data with
  | 61 :: data => some (trim data)
  | _ => none

/-- An attribute at the index `i` of the array. -/
def setAttr (attr : List (CString × CString)) (i : ℕ) (a : CString × CString) :
    List (CString × CString) :=
  if i < attr.length then attr.set i a else attr ++ [a]

/-- `MAX_ATTRIBUTE` -/
def maxAttribute : ℕ := 16

/-- The loop of `xml_attributes`: the array and what follows the attributes. -/
def attributesLoop : ℕ → ℕ → List (CString × CString) → CString →
    Option (Option (List (CString × CString) × CString))
  | 0, _, _, _ => some none
  | fuel + 1, i, attr, data =>
    match xmlName data with
    | none => some (some (attr, data))
    | some rest =>
      match xmlEq rest with
      | none => some none
      | some value =>
        match attValue value with
        | none => none
        | some none => some none
        | some (some (value, next)) =>
          attributesLoop fuel ((i + 1) % maxAttribute) (setAttr attr i (upTo data rest, value))
            (trim next)

/-- `xml_attributes` -/
def xmlAttributes (data : CString) : Option (Option (List (CString × CString) × CString)) :=
  attributesLoop (data.length + 1) 0 [] (trim data)

/-! ## Tags and tokens -/

/-- `xml_pi`, of the text in front of `?>`; whether it is valid. -/
def xmlPi (p : XmlParser) (data : CString) : Option (Bool × XmlParser) :=
  match xmlName data with
  | none => some (false, p)
  | some rest =>
    let p := { p with name := upTo data rest }
    match rest with
    | c :: data =>
      if ws c then
        if p.name = chars ['x', 'm', 'l'] then
          match xmlAttributes data with
          | none => none
          -- `only (NULL)`
          | some none => none
          | some (some (attr, rest)) =>
            some (trim rest = [], { p with token := .xmlDecl, attr := attr })
        else some (true, { p with token := .xmlPi, content := trim data })
      else some (true, { p with token := .xmlPi, content := [] })
    | [] => some (true, { p with token := .xmlPi, content := [] })

/-- The attributes of a start tag behind its name. -/
def tagAttributes (p : XmlParser) (data : CString) : Option (Option (XmlParser × CString)) :=
  match data with
  | c :: rest =>
    if ws c then
      match xmlAttributes rest with
      | none => none
      | some none => some none
      | some (some (attr, data)) => some (some ({ p with attr := attr }, data))
    else some (some (p, data))
  | [] => some (some (p, data))

/-- `>` at the end of a tag. -/
def closeTag (p : XmlParser) (token : TokenType) : CString → Option XmlParser
  | 62 :: data => some { p with token := token, data := data }
  | _ => none

/-- `xml_tag` -/
def xmlTag (p : XmlParser) (data : CString) : Option (Option XmlParser) :=
  match data with
  | 47 :: data =>
    match xmlName data with
    | none => some none
    | some rest => some (closeTag { p with name := upTo data rest } .endTag (trim rest))
  | data =>
    match xmlName data with
    | none => some none
    | some rest =>
      match tagAttributes { p with name := upTo data rest } rest with
      | none => none
      | some none => some none
      | some (some (p, 47 :: data)) => some (closeTag p .emptyTag data)
      | some (some (p, data)) => some (closeTag p .startTag data)

/-- The loop of `xml_token`, in which the state is a local variable: a processing instruction leaves
the field as it was on `entry`. -/
def tokenLoop (entry : ℕ) : ℕ → XmlParser → Option (TokenType × XmlParser)
  | 0, p => some (.xmlIncomplete, p)
  | fuel + 1, p =>
    match p.data with
    | [] => some (.xmlIncomplete, p)
    | c :: next =>
      match p.state with
      -- initial state
      | 0 =>
        if c = 60 then tokenLoop entry fuel { p with state := 2, data := next }
        else if ws c then tokenLoop entry fuel { p with data := trim next }
        else tokenLoop entry fuel { p with content := [], token := .xmlText, state := 1 }
      -- text
      | 1 =>
        if c = 38 then
          if 59 ∈ next then
            match xmlReference next with
            | none => none
            | some none => some (.xmlInvalid, p)
            | some (some (bytes, rest)) =>
              if p.token = .xmlText then
                tokenLoop entry fuel { p with content := p.content ++ bytes, data := rest }
              else none
          else some (.xmlIncomplete, p)
        else if c = 60 then tokenLoop entry fuel { p with state := 2, data := next }
        else
          match utf8Char 0 0 (c :: next) with
          | none => some (.xmlIncomplete, p)
          | some (x, rest) =>
            if xmlChar x then
              match utf8Encode x with
              | none => none
              | some bytes =>
                if p.token = .xmlText then
                  tokenLoop entry fuel { p with content := p.content ++ bytes, data := rest }
                else none
            else some (.xmlInvalid, p)
      -- "<" (tag)
      | 2 =>
        if c = 33 then tokenLoop entry fuel { p with state := 4, data := next }
        else if p.token = .xmlText then some (.xmlText, { p with token := .xmlNone })
        else if c = 63 then tokenLoop entry fuel { p with state := 3, data := next }
        else if 62 ∈ next then
          match xmlTag p (c :: next) with
          | none => none
          | some none => some (.xmlInvalid, p)
          | some (some p) => some (p.token, { p with state := 0 })
        else some (.xmlIncomplete, p)
      -- "<?" (processing instruction)
      | 3 =>
        match splitAt [63, 62] (c :: next) with
        | none => some (.xmlIncomplete, p)
        | some (text, rest) =>
          match xmlPi p text with
          | none => none
          | some (false, p) => some (.xmlInvalid, p)
          | some (true, p) => some (p.token, { p with state := entry, data := rest })
      -- "<!" (comment, CDATA)
      | 4 =>
        if c = 45 then tokenLoop entry fuel { p with state := 5, data := next }
        else if c = 91 then
          match splitAt [93, 93, 62] next with
          | none => some (.xmlIncomplete, p)
          | some (text, rest) =>
            -- `streq` compares the whole of the section.
            if text = chars ['C', 'D', 'A', 'T', 'A', '['] then
              tokenLoop entry fuel { p with state := 1, data := rest }
            else some (.xmlInvalid, p)
        else some (.xmlInvalid, p)
      -- "<!-" (comment)
      | 5 =>
        if c = 45 then tokenLoop entry fuel { p with state := 6, data := next }
        else some (.xmlInvalid, p)
      -- "<!--" (comment)
      | _ =>
        match splitAt [45, 45, 62] (c :: next) with
        | none => some (.xmlIncomplete, p)
        | some (text, rest) =>
          if text = [] ∨ text.getLast? = some 45 then some (.xmlInvalid, p)
          else
            let state := if p.token = .xmlText then 1 else 0
            tokenLoop entry fuel { p with state := state, data := rest }

/-- `xml_token`: the type of the token. -/
def xmlToken (p : XmlParser) : Option (TokenType × XmlParser) :=
  tokenLoop p.state (p.data.length + 2) p

end SeClient
