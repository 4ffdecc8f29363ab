import Mathlib.Data.List.Infix
import Mathlib.Data.Option.Basic

/-!
# Text pipes

The text of a pipe opened in text mode: its bytes decoded from UTF-8, strictly, and cut into lines
at any of the three ends of a line.
-/

namespace TextPipe

/-- A decoder between two characters, or inside one of `left` more bytes that is not below
`least`. -/
inductive State
  | lead
  | rest (code left least : ℕ)

/-- One byte, and the character it completes. -/
def step : State → UInt8 → Option (State × List ℕ)
  | .lead, b =>
    let n := b.toNat
    if n < 0x80 then some (.lead, [n])
    else if n < 0xC0 then none
    else if n < 0xE0 then some (.rest (n - 0xC0) 1 0x80, [])
    else if n < 0xF0 then some (.rest (n - 0xE0) 2 0x800, [])
    else if n < 0xF8 then some (.rest (n - 0xF0) 3 0x10000, [])
    else none
  | .rest code left least, b =>
    let n := b.toNat
    if n < 0x80 ∨ 0xC0 ≤ n then none
    else
      let code := code * 64 + (n - 0x80)
      if 1 < left then some (.rest code (left - 1) least, [])
      else if least ≤ code ∧ (code < 0xD800 ∨ 0xE000 ≤ code ∧ code < 0x110000) then
        some (.lead, [code])
      else none

/-- The characters of bytes that end between two characters. -/
def decodeFrom : State → List UInt8 → Option (List ℕ)
  | .lead, [] => some []
  | .rest .., [] => none
  | st, b :: s =>
    (step st b).bind fun (st, cs) => (decodeFrom st s).map (cs ++ ·)

/-- The characters of UTF-8. -/
def decode (s : List UInt8) : Option (List ℕ) := decodeFrom .lead s

/-- An ASCII character is its byte. -/
def encode (t : List ℕ) : List UInt8 := t.map UInt8.ofNat

section Decode
variable {t d : List ℕ} {s x : List UInt8} {a : ℕ}

theorem step_ascii (ha : a < 0x80) : step .lead (UInt8.ofNat a) = some (.lead, [a]) := by
  have hn : (UInt8.ofNat a).toNat = a := by
    rw [UInt8.toNat_ofNat', Nat.mod_eq_of_lt (by omega)]
  rw [step, hn]
  exact if_pos ha

/-- ASCII is decoded character by character. -/
theorem decode_ascii (ht : ∀ a ∈ t, a < 0x80) :
    decode (encode t ++ s) = (decode s).map (t ++ ·) := by
  induction t with
  | nil =>
    cases h : decode s with
    | none => exact h
    | some d => exact h
  | cons a t ih =>
    obtain ⟨ha, ht⟩ := List.forall_mem_cons.mp ht
    change (step .lead (UInt8.ofNat a)).bind _ = _
    rw [step_ascii ha]
    change (decode (encode t ++ s)).map ([a] ++ ·) = _
    rw [ih ht, Option.map_map]
    rfl

theorem decode_encode (ht : ∀ a ∈ t, a < 0x80) : decode (encode t) = some t := by
  have h := decode_ascii (s := []) ht
  rw [List.append_nil] at h
  exact h.trans (congrArg some (List.append_nil t))

/-- A character in front of ASCII ends there. -/
theorem decodeFrom_append (st : State) (ha : a < 0x80) :
    decodeFrom st (x ++ UInt8.ofNat a :: s) =
      (decodeFrom st x).bind fun d => (decode (UInt8.ofNat a :: s)).map (d ++ ·) := by
  induction x generalizing st with
  | nil =>
    cases st with
    | lead =>
      change decode _ = (decode _).map ([] ++ ·)
      simp
    | rest code left least =>
      have hn : (UInt8.ofNat a).toNat = a := by
        rw [UInt8.toNat_ofNat', Nat.mod_eq_of_lt (by omega)]
      have hstep : step (.rest code left least) (UInt8.ofNat a) = none := by
        rw [step, hn]
        exact if_pos (.inl ha)
      change (step (.rest code left least) (UInt8.ofNat a)).bind _ = none
      rw [hstep]
      rfl
  | cons b x ih =>
    have hcons : ∀ y, decodeFrom st (b :: y) =
        (step st b).bind fun r => (decodeFrom r.1 y).map (r.2 ++ ·) := by
      intro y
      cases st <;> rfl
    rw [List.cons_append, hcons, hcons]
    cases hstep : step st b with
    | none => rfl
    | some r =>
      simp only [Option.bind_some, ih]
      cases decodeFrom r.1 x with
      | none => rfl
      | some d =>
        simp only [Option.bind_some, Option.map_some, Option.map_map]
        congr 1
        funext u
        simp

/-- Bytes between two ASCII texts, the second of them not empty. -/
theorem decode_between {p q : List ℕ} (hp : ∀ a ∈ p, a < 0x80) (hq : ∀ a ∈ q, a < 0x80)
    (hne : q ≠ []) :
    decode (encode p ++ (x ++ encode q)) = (decode x).map fun d => p ++ (d ++ q) := by
  obtain ⟨a, q, rfl⟩ := List.exists_cons_of_ne_nil hne
  have hmid : decode (x ++ encode (a :: q)) = (decode x).map (· ++ (a :: q)) := by
    have happend := decodeFrom_append .lead (x := x) (s := encode q)
      (hq a List.mem_cons_self)
    have hrest : decode (UInt8.ofNat a :: encode q) = some (a :: q) := decode_encode hq
    rw [hrest] at happend
    refine happend.trans ?_
    change (decode x).bind _ = _
    cases decode x <;> rfl
  rw [decode_ascii hp, hmid, Option.map_map]
  rfl

end Decode

/-! ## Lines -/

/-- The lines that are left of a text, the first of them begun. -/
def linesFrom (begun : List ℕ) : List ℕ → List (List ℕ)
  | [] => if begun = [] then [] else [begun]
  | 13 :: 10 :: s => begun :: linesFrom [] s
  | 13 :: s => begun :: linesFrom [] s
  | 10 :: s => begun :: linesFrom [] s
  | c :: s => linesFrom (begun ++ [c]) s

/-- The lines of a text, without their ends. -/
def lines (t : List ℕ) : List (List ℕ) := linesFrom [] t

theorem linesFrom_contained {begun l t : List ℕ} (h : l ∈ linesFrom begun t) : l <:+: begun ++ t := by
  fun_induction linesFrom begun t with
  | case1 => exact absurd h List.not_mem_nil
  | case2 begun hne =>
    rw [List.mem_singleton.mp h, List.append_nil]
  | case3 begun s ih =>
    rcases List.mem_cons.mp h with rfl | h
    · exact List.IsPrefix.isInfix (List.prefix_append _ _)
    · exact (ih h).trans ⟨begun ++ [13, 10], [], by simp⟩
  | case4 begun s hs ih =>
    rcases List.mem_cons.mp h with rfl | h
    · exact List.IsPrefix.isInfix (List.prefix_append _ _)
    · exact (ih h).trans ⟨begun ++ [13], [], by simp⟩
  | case5 begun s ih =>
    rcases List.mem_cons.mp h with rfl | h
    · exact List.IsPrefix.isInfix (List.prefix_append _ _)
    · exact (ih h).trans ⟨begun ++ [10], [], by simp⟩
  | case6 begun c s h₁ h₂ h₃ ih =>
    have hpart := ih h
    rwa [List.append_assoc] at hpart

/-- A line is a part of the text. -/
theorem lines_contained {l t : List ℕ} (h : l ∈ lines t) : l <:+: t := linesFrom_contained h

theorem linesFrom_line {begun t : List ℕ} (ht : ∀ c ∈ t, c ≠ 10 ∧ c ≠ 13) :
    linesFrom begun (t ++ [10]) = [begun ++ t] := by
  induction t generalizing begun with
  | nil => simp [linesFrom]
  | cons c t ih =>
    obtain ⟨⟨hlf, hcr⟩, ht⟩ := List.forall_mem_cons.mp ht
    have hstep : linesFrom begun (c :: (t ++ [10])) = linesFrom (begun ++ [c]) (t ++ [10]) := by
      rw [linesFrom]
      all_goals (intros; omega)
    rw [List.cons_append, hstep, ih ht, List.append_assoc]
    rfl

/-- One line. -/
theorem lines_line {t : List ℕ} (ht : ∀ c ∈ t, c ≠ 10 ∧ c ≠ 13) : lines (t ++ [10]) = [t] :=
  linesFrom_line ht

end TextPipe
