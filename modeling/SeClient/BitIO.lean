import Mathlib.Algebra.Order.Ring.Int
import Mathlib.Data.List.Basic

/-!
# The bit stream of an EXI document

`exi_output.c` and `exi_parse.c` write and read an EXI document bit by bit through a
pointer into a byte buffer and a bit offset into the byte pointed at.
-/

namespace SeClient

/-- What the C implementation makes of the `int` expression `b << n` when it is widened to
`uint64_t`.  C says so only where the result fits an `int`. -/
structure IntShift where
  shl : UInt8 → ℕ → UInt64
  exact : ∀ b n, n < 32 → b.toNat * 2 ^ n < 2 ^ 31 → (shl b n).toNat = b.toNat * 2 ^ n

/-- The fields of `Output` that the bit functions use: `ptr` is an index into `buffer`,
whose length stands for `end`. -/
structure OutBits where
  buffer : List UInt8
  ptr : ℕ
  bit : ℕ
deriving DecidableEq, Repr

namespace OutBits

/-- `output_byte` -/
def outputByte (o : OutBits) (b : UInt8) : OutBits :=
  if o.bit ≠ 0 then
    let buffer := o.buffer.modify o.ptr (· ||| UInt8.ofNat (b.toNat >>> o.bit))
    { o with
      buffer := buffer.set (o.ptr + 1) (UInt8.ofNat (b.toNat <<< (8 - o.bit)))
      ptr := o.ptr + 1 }
  else { o with buffer := o.buffer.set o.ptr b, ptr := o.ptr + 1 }

/-- The loop of `output_uint`, at most `fuel` times around. -/
def outputUintLoop : ℕ → OutBits → UInt64 → OutBits
  | 0, o, _ => o
  | fuel + 1, o, x =>
    let b := (x &&& 0x7f).toUInt8
    let x := x >>> 7
    let o := o.outputByte (if x ≠ 0 then b ||| 0x80 else b)
    if x ≠ 0 then outputUintLoop fuel o x else o

/-- `output_uint`: 64 bits are ten groups of seven at most. -/
def outputUint (o : OutBits) (x : UInt64) : OutBits := outputUintLoop 10 o x

/-- `output_bit` -/
def outputBit (o : OutBits) (bit : Bool) : OutBits :=
  if o.bit = 7 then
    { buffer := o.buffer.modify o.ptr (· ||| bit.toUInt8), ptr := o.ptr + 1, bit := 0 }
  else
    { o with
      buffer := o.buffer.modify o.ptr (· ||| UInt8.ofNat (bit.toNat <<< (7 - o.bit)))
      bit := o.bit + 1 }

/-- The loop of `output_bits`: from byte `ptr + i` back to byte `ptr`. -/
def orBytes (buffer : List UInt8) (ptr : ℕ) : ℕ → ℕ → List UInt8
  | 0, _ => buffer
  | i + 1, bits =>
    orBytes (buffer.modify (ptr + i) (· ||| UInt8.ofNat bits)) ptr i (bits >>> 8)

/-- `output_bits` -/
def outputBits (o : OutBits) (bits n : ℕ) : OutBits :=
  let m := (o.bit + n) % 8
  let i := (o.bit + n) / 8
  if m ≠ 0 then
    let buffer := o.buffer.modify (o.ptr + i) (· ||| UInt8.ofNat (bits <<< (8 - m)))
    { buffer := orBytes buffer o.ptr i (bits >>> m), ptr := o.ptr + i, bit := m }
  else { buffer := orBytes o.buffer o.ptr i bits, ptr := o.ptr + i, bit := m }

/-- `output_integer`: the sign, then the magnitude. -/
def outputInteger (o : OutBits) (x : Int64) : OutBits :=
  let sign := decide (x < 0)
  let x := if sign then -x else x
  (o.outputBit sign).outputUint x.toUInt64

end OutBits

/-- The fields of `Parser` that the bit functions use: `rest` is the memory from `ptr` to
`end`. -/
structure InBits where
  rest : List UInt8
  bit : ℕ
  truncated : Bool
deriving DecidableEq, Repr

namespace InBits

/-- `need`: fewer than `n` bytes are left. -/
def lacks (p : InBits) (n : ℕ) : Bool := decide (p.rest.length < n)

def truncate (p : InBits) : InBits := { p with truncated := true }

/-- The byte `i` places after `ptr`.  The two reads beyond `end` that `parse_bits` makes
do not influence what it returns. -/
def byte (p : InBits) (i : ℕ) : ℕ := (p.rest.getD i 0).toNat

/-- `parse_byte` -/
def parseByte (p : InBits) : UInt8 × InBits :=
  if p.lacks (if p.bit ≠ 0 then 2 else 1) then (0, p.truncate)
  else if p.bit ≠ 0 then
    (UInt8.ofNat (p.byte 0 <<< p.bit ||| p.byte 1 >>> (8 - p.bit)), { p with rest := p.rest.drop 1 })
  else (UInt8.ofNat (p.byte 0), { p with rest := p.rest.drop 1 })

/-- `parse_bit` -/
def parseBit (p : InBits) : ℕ × InBits :=
  if p.lacks 1 then (0, p.truncate)
  else
    let bit := (p.byte 0 >>> (7 - p.bit)) % 2
    if p.bit + 1 = 8 then (bit, { p with rest := p.rest.drop 1, bit := 0 })
    else (bit, { p with bit := p.bit + 1 })

/-- `parse_bits`: the bytes are gathered in 32 bits. -/
def parseBits (p : InBits) (n : ℕ) : ℕ × InBits :=
  let bit := (p.bit + n) % 8
  let bytes := (p.bit + n) / 8
  if p.lacks (if bit ≠ 0 then bytes + 1 else bytes) then (0, p.truncate)
  else
    let bits := (List.range bytes).foldl
      (fun bits j => (bits <<< 8 ||| p.byte (j + 1)) % 2 ^ 32) (p.byte 0)
    ((bits >>> (8 - bit)) % 2 ^ n, { p with rest := p.rest.drop bytes, bit := bit })

section Integers
variable (s : IntShift)

/-- The loop of `parse_uint`, with `7 * fuel` bits still allowed. -/
def parseUintLoop : ℕ → InBits → UInt64 → ℕ → UInt64 × InBits
  | 0, p, x, _ => (x, p)
  | fuel + 1, p, x, n =>
    let (b, p) := p.parseByte
    let x := x ||| s.shl (b &&& 0x7f) n
    if !p.truncated && b &&& 0x80 ≠ 0 then parseUintLoop fuel p x (n + 7) else (x, p)

/-- `parse_uint`: up to 70 bits. -/
def parseUint (p : InBits) : UInt64 × InBits := parseUintLoop s 10 p 0 0

/-- `parse_integer`: a truncated integer is read again from its start. -/
def parseInteger (p : InBits) : Int64 × InBits :=
  let (sign, q) := p.parseBit
  let (x, q) := q.parseUint s
  let q := if q.truncated then { q with rest := p.rest, bit := p.bit } else q
  (if sign ≠ 0 then -x.toInt64 else x.toInt64, q)

end Integers
end InBits
end SeClient
