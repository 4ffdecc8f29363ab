import SeClient.Integers
import SeClient.StringTable

/-!
# EXI strings

A string value is written as a reference into the table of its element, as a reference
into the global table, or as a literal.  The functions are those of `exi_output.c` and
`exi_parse.c`.
-/

namespace SeClient
open Bits

/-! ### Output -/

/-- The loop of `exi_output_literal`. -/
def OutBits.outputChars : ℕ → OutBits → CString → OutBits
  | 0, o, _ => o
  | fuel + 1, o, s =>
    if s = [] then o
    else
      match utf8Char 0 0 s with
      | none => o
      | some (c, next) => outputChars fuel (o.outputUint (UInt64.ofNat c)) next

/-- `exi_output_literal`: the length is an `int`. -/
def OutBits.exiOutputLiteral (o : OutBits) (s : CString) : OutBits :=
  let length := (Int32.ofNat (utf8Length s + 2)).toInt64.toUInt64
  (o.outputUint length).outputChars s.length s

/-- The fields of `Output` that string values use. -/
structure ExiOutput where
  out : OutBits
  globals : StringTable
  locals : List StringTable
deriving DecidableEq, Repr

namespace ExiOutput

/-- `compact_id`: the reference `i` into the table `t`. -/
def compactId (o : ExiOutput) (part : UInt64) (i : ℕ) (t : StringTable) : ExiOutput :=
  let out := o.out.outputUint part
  let bits := bitCount (t.strings.length - 1)
  { o with out := if bits ≠ 0 then out.outputBits i bits else out }

/-- What `exi_output_string` does when the element's own table lacks the string. -/
def outputGlobal (o : ExiOutput) (name : ℕ) (s : CString) : ExiOutput :=
  let o := { o with locals := addString o.locals name s }
  match o.globals.findString s with
  | some i => o.compactId 1 i o.globals
  | none => { o with globals := o.globals.add s, out := o.out.exiOutputLiteral s }

/-- `exi_output_string` -/
def exiOutputString (o : ExiOutput) (name : ℕ) (s : CString) : ExiOutput :=
  match findTable o.locals name with
  | some t =>
    match t.findString s with
    | some i => o.compactId 0 i t
    | none => o.outputGlobal name s
  | none => { o with locals := newStringTable o.locals name }.outputGlobal name s

end ExiOutput

/-! ### Input -/

namespace InBits

/-- The inner loop of `exi_utf8_length`: the bytes the next code point takes in UTF-8,
`none` when its integer is longer than three bytes. -/
def codeLength : ℕ → ℕ → InBits → Option ℕ × InBits
  | 0, _, p => (none, p)
  | fuel + 1, m, p =>
    let (b, p) := p.parseByte
    if b &&& 0x80 ≠ 0 then codeLength fuel (m + 1) p
    else
      let more : Bool := m = 2 ∧ b &&& 0x70 ≠ 0 ∨ m = 3 ∧ b &&& 0x7c ≠ 0
      (some (if more then m + 1 else m), p)

/-- The result of `exi_utf8_length`; the last two are its -1. -/
inductive Utf8Length where
  | done (length : ℕ)
  | truncated
  | invalid
deriving DecidableEq, Repr

/-- `exi_utf8_length`: the bytes that the next `n` code points take in UTF-8. -/
def exiUtf8Length (p : InBits) (length : ℕ) : ℕ → Utf8Length
  | 0 => .done length
  | n + 1 =>
    match codeLength 3 1 p with
    | (none, _) => .invalid
    | (some m, p) => if p.truncated then .truncated else exiUtf8Length p (length + m) n

/-- `parse_literal`: the bytes stored, `none` when a code point has no encoding and the
pointer is lost. -/
def parseLiteral (sh : IntShift) : ℕ → InBits → Option (List UInt8 × InBits)
  | 0, p => some ([], p)
  | n + 1, p =>
    let (c, p) := p.parseUint sh
    match utf8Encode (c.toNat % 2 ^ 32) with
    | none => none
    | some b => (parseLiteral sh n p).map (fun r => (b ++ r.1, r.2))

end InBits

/-- The fields of `Parser` that string values use; `invalid` is the state PARSE_INVALID. -/
structure ExiInput where
  input : InBits
  globals : StringTable
  locals : List StringTable
  invalid : Bool
deriving DecidableEq, Repr

namespace ExiInput

/-- PARSE_INVALID and return 0. -/
def fail (p : ExiInput) : Option CString × ExiInput := (none, { p with invalid := true })

/-- The string `id` of a table, if the container holds it. -/
def lookup (p : ExiInput) (t : StringTable) (id n : ℕ) : Option CString × ExiInput :=
  match t.strings[id]? with
  | none => p.fail
  | some s => if n ≠ 0 ∧ ¬ s.length + 1 ≤ n then p.fail else (some s, p)

/-- `parse_compact_id`: `n` is the size of the container, 0 for one allocated on demand. -/
def parseCompactId (p : ExiInput) (t : Option StringTable) (n : ℕ) : Option CString × ExiInput :=
  match t with
  | none => p.fail
  | some t =>
    if t.strings.length = 0 then p.fail
    else
      let (id, q) := p.input.parseBits (bitCount (t.strings.length - 1))
      let p := { p with input := q }
      if q.truncated then (none, p) else p.lookup t id n

/-- The string literal of `exi_parse_string`, `m` code points long; `none` when the bytes do
not fit the container. -/
def parseLiteralValue (sh : IntShift) (p : ExiInput) (start : InBits) (name n m : ℕ) :
    Option (Option CString × ExiInput) :=
  match p.input.exiUtf8Length 0 m with
  | .truncated => some (none, { p with input := start.truncate })
  | .invalid => some { p with input := start }.fail
  | .done m =>
    if n ≠ 0 ∧ m ≥ n then some p.fail
    else
      match p.input.parseLiteral sh m with
      | none => none
      | some (bytes, q) =>
        if (if n ≠ 0 then n else m + 1) ≤ bytes.length then none
        else
          let s := bytes.takeWhile (· ≠ 0)
          let locals :=
            if (findTable p.locals name).isSome then p.locals else newStringTable p.locals name
          some (some s, { p with
            input := q
            locals := addString locals name s
            globals := p.globals.add s })

/-- `exi_parse_string`: the length, or which table, is taken as an `int`. -/
def exiParseString (sh : IntShift) (p : ExiInput) (name n : ℕ) :
    Option (Option CString × ExiInput) :=
  let (m, q) := p.input.parseUint sh
  let start := p.input
  let p := { p with input := q }
  if q.truncated then some (none, p)
  else
    match m.toNat % 2 ^ 32 with
    | 0 => some (p.parseCompactId (findTable p.locals name) n)
    | 1 => some (p.parseCompactId (some p.globals) n)
    | m + 2 => p.parseLiteralValue sh start name n m

end ExiInput
end SeClient
