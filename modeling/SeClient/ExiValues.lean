import SeClient.ExiDriver
import SeClient.Numerals

/-!
# Values of EXI documents

`exi_parse_value` of `exi_parse.c`, which the two value functions of the EXI parser call.
-/

namespace SeClient

/-- What a reading function of a value returns, and what it has stored, in the container and
beyond it. -/
structure ExiScalar (ρ : Type) where
  ok : Bool
  invalid : Bool := false
  value : Option Value := none
  spill : Option Spill := none
  rest : ρ

/-- What the EXI parser reads from, below `exi_parse_value`: `string` is `exi_parse_string` for an
entry and the length of its container, and `binary` is `parse_binary`. -/
structure ExiBits (ρ : Type) where
  bits : ℕ → ρ → ℕ × ρ
  bit : ρ → ℕ × ρ
  integer : ρ → ℤ × ρ
  uint : ρ → ℕ × ρ
  string : ℕ → ℕ → ρ → ExiScalar ρ
  binary : ℕ → ρ → ExiScalar ρ
  truncated : ρ → Bool
  header : ρ → ExiRead ρ
  done : ρ → ρ

section Values
variable {ρ : Type} (S : Schema) (k : ExiBits ρ)

/-- A string or an octet string. -/
def ExiScalar.read (r : ExiScalar ρ) : ExiRead ρ where
  ok := r.ok
  invalid := r.invalid
  stored := match r.spill, r.value with
    | some spill, v => .spilled v spill
    | none, some v => .value v
    | none, none => .nothing
  rest := r.rest

/-- A number that is stored in a field of the type `t`. -/
def ExiBits.number (t : XsInteger) (x : ℤ) (rest : ρ) : ExiRead ρ where
  ok := !k.truncated rest
  stored := .value (.number (t.wrap x))
  rest := rest

/-- `exi_parse_value`, for the entry `i`. -/
def exiValue (i : ℕ) (r : ρ) : ExiRead ρ :=
  let se := S.element i
  match se.xsType with
  | .string => (k.string i se.xsLength r).read
  | .boolean =>
    let (bit, rest) := k.bit r
    { ok := !k.truncated rest, stored := if bit ≠ 0 then .flag else .nothing, rest := rest }
  | .hexBinary => (k.binary se.xsLength r).read
  | .anyURI => (k.string i 0 r).read
  | .long => k.number .long (k.integer r).1 (k.integer r).2
  | .int => k.number .int (k.integer r).1 (k.integer r).2
  | .short => k.number .short (k.integer r).1 (k.integer r).2
  | .byte => k.number .byte ((k.bits 8 r).1 - 128) (k.bits 8 r).2
  | .ulong => k.number .ulong (k.uint r).1 (k.uint r).2
  | .uint => k.number .uint (k.uint r).1 (k.uint r).2
  | .ushort => k.number .ushort (k.uint r).1 (k.uint r).2
  | .ubyte => k.number .ubyte (k.bits 8 r).1 (k.bits 8 r).2
  | .null => { ok := !k.truncated r, rest := r }

/-- The reading functions of the EXI parser. -/
def exiSource : ExiSource ρ where
  bits := k.bits
  bit := k.bit
  truncated := k.truncated
  header := k.header
  value := exiValue S k
  done := k.done

/-- A bit of the flag word is stored for a boolean only. -/
theorem exiValue_flag {i : ℕ} {r : ρ} (h : (exiValue S k i r).stored = .flag) :
    (S.element i).xsType = .boolean := by
  have hread : ∀ x : ExiScalar ρ, x.read.stored ≠ .flag := by
    intro x
    unfold ExiScalar.read
    cases x.spill with
    | some spill => exact Stored.noConfusion
    | none =>
      cases x.value with
      | none => exact Stored.noConfusion
      | some v => exact Stored.noConfusion
  unfold exiValue at h
  dsimp only at h
  cases htype : (S.element i).xsType with
  | boolean => rfl
  | string =>
    rw [htype] at h
    exact absurd h (hread _)
  | hexBinary =>
    rw [htype] at h
    exact absurd h (hread _)
  | anyURI =>
    rw [htype] at h
    exact absurd h (hread _)
  | _ =>
    rw [htype] at h
    cases h

end Values
end SeClient
