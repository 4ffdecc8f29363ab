import Mathlib.Data.List.Basic

/-!
# Packing pieces into buffers

Pieces are put into a buffer for as long as they fit, and then into the next one.
-/

namespace SeClient

section Packing
variable {α : Type*} {size : ℕ} {filled piece : List α} {pieces : List (List α)}

/-- The contents of the buffers, the first of which is `filled` at the start.  A piece fits if there
is room for it and one more. -/
def pack (size : ℕ) : List α → List (List α) → List (List α)
  | filled, [] => [filled]
  | filled, piece :: pieces =>
    if filled.length + piece.length < size then pack size (filled ++ piece) pieces
    else filled :: pack size piece pieces

theorem pack_fits (h : filled.length + piece.length < size) :
    pack size filled (piece :: pieces) = pack size (filled ++ piece) pieces := if_pos h

theorem pack_full (h : ¬filled.length + piece.length < size) :
    pack size filled (piece :: pieces) = filled :: pack size piece pieces := if_neg h

theorem pack_ne_nil : pack size filled pieces ≠ [] := by
  induction pieces generalizing filled with
  | nil => simp [pack]
  | cons piece pieces ih =>
    rw [pack]
    split
    · exact ih
    · simp

/-- The buffers are the pieces, one behind the other. -/
theorem flatten_pack (size : ℕ) (filled : List α) (pieces : List (List α)) :
    (pack size filled pieces).flatten = filled ++ pieces.flatten := by
  induction pieces generalizing filled with
  | nil => simp [pack]
  | cons piece pieces ih =>
    rw [pack]
    split
    · rw [ih, List.flatten_cons, List.append_assoc]
    · rw [List.flatten_cons, ih, List.flatten_cons]

/-- Nothing is written behind the end of a buffer. -/
theorem length_pack (hfilled : filled.length < size)
    (hpieces : ∀ piece ∈ pieces, piece.length < size) :
    ∀ buffer ∈ pack size filled pieces, buffer.length < size := by
  induction pieces generalizing filled with
  | nil =>
    intro buffer hbuffer
    rw [pack, List.mem_singleton] at hbuffer
    exact hbuffer ▸ hfilled
  | cons piece pieces ih =>
    have hpiece := hpieces piece List.mem_cons_self
    have hrest := fun p hp => hpieces p (List.mem_cons_of_mem piece hp)
    intro buffer hbuffer
    rw [pack] at hbuffer
    split at hbuffer
    · rename_i hfits
      exact ih (by rwa [List.length_append]) hrest buffer hbuffer
    · rcases List.mem_cons.1 hbuffer with rfl | hbuffer
      · exact hfilled
      · exact ih hpiece hrest buffer hbuffer

/-- One buffer is enough where all fits into it. -/
theorem pack_one (h : filled.length + pieces.flatten.length < size) :
    pack size filled pieces = [filled ++ pieces.flatten] := by
  induction pieces generalizing filled with
  | nil => simp [pack]
  | cons piece pieces ih =>
    rw [List.flatten_cons, List.length_append] at h
    rw [pack_fits (by omega), ih (by rw [List.length_append]; omega), List.flatten_cons,
      List.append_assoc]

end Packing
end SeClient
