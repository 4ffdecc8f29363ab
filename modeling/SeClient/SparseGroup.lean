import SeClient.ParallelCount
import Mathlib.Data.List.Count

/-!
# Groups of a sparse hash table

A group holds up to 58 elements in an array without gaps.  Its bitmap says which positions are
occupied, and the rank of a position in the bitmap is the index of its element in the array.
-/

namespace SeClient

/-- `~0UL` -/
def ones : UInt64 := ~~~0

/-- `1ull << i` -/
def bitAt64 (i : ℕ) : UInt64 := 1 <<< UInt64.ofNat i

/-- The number of bits set below position `i`, counted in parallel. -/
def bitRank (bits : UInt64) (i : ℕ) : ℕ :=
  if i = 0 then 0
  else
    let r : UInt64 := bits <<< UInt64.ofNat (64 - i)
    let r : UInt64 := r - ((r >>> 1) &&& (ones / (3 : UInt64)))
    let r : UInt64 := (r &&& (ones / (5 : UInt64))) + ((r >>> 2) &&& (ones / (5 : UInt64)))
    let r : UInt64 := (r + (r >>> 4)) &&& (ones / (17 : UInt64))
    let r : UInt64 := (r * (ones / (255 : UInt64))) >>> 56
    r.toNat

/-- `slot` is null before the first element; `bits` is the count in the upper 6 bits and the bitmap
in the lower 58. -/
structure SparseGroup (α : Type) where
  slot : Option (List α)
  bits : UInt64

section
variable {α : Type}

/-- The memory after `n` elements at `src` are moved to `dst`. -/
def memmove (memory : List α) (dst src n : ℕ) : List α :=
  memory.take dst ++ (memory.drop src).take n ++ memory.drop (dst + n)

/-- The memory after a change of its size: what is added is not initialised. -/
def realloc (junk : α) (memory : List α) (size : ℕ) : List α :=
  memory.take size ++ List.replicate (size - memory.length) junk

/-- Inserts `data` at position `i` of the group. -/
def sgInsert (null junk : α) (g : SparseGroup α) (i : ℕ) (data : α) : SparseGroup α :=
  let s := bitRank g.bits i
  let count := (g.bits >>> 58).toNat + 1
  let slot :=
    match g.slot with
    | some slot => memmove (realloc junk slot count) (s + 1) s (count - (s + 1))
    | none => List.replicate count null
  { slot := some (slot.set s data), bits := (g.bits + bitAt64 58) ||| bitAt64 i }

def sgEmpty (g : SparseGroup α) (i : ℕ) : Bool := g.bits &&& bitAt64 i = 0

/-- The element that `sg_element` points to. -/
def sgElement (g : SparseGroup α) (i : ℕ) : Option α :=
  g.slot.bind fun slot => slot[bitRank g.bits i]?

/-- A group as it is allocated. -/
def newGroup : SparseGroup α := ⟨none, 0⟩

/-- Calls of `sg_insert`, one after the other. -/
def sgInserts (null junk : α) (g : SparseGroup α) : List (ℕ × α) → SparseGroup α
  | [] => g
  | (i, data) :: calls => sgInserts null junk (sgInsert null junk g i data) calls

/-- The number of occupied positions. -/
def SparseGroup.occupied (g : SparseGroup α) : ℕ := (List.range 58).countP fun i => !sgEmpty g i

end

/-! ## The rank -/

section
variable {bits : UInt64} {i : ℕ}

theorem toNat_pairs (r : UInt64) :
    (r - ((r >>> 1) &&& (ones / (3 : UInt64)))).toNat = ParallelCount.pairs 8 r.toNat := by
  have hland : ((r >>> 1) &&& (ones / (3 : UInt64))).toNat =
      r.toNat >>> 1 &&& ParallelCount.mask 0x55 8 := by
    rw [UInt64.toNat_and, UInt64.toNat_shiftRight]
    rfl
  have hle : ((r >>> 1) &&& (ones / (3 : UInt64))).toNat ≤ r.toNat := by
    rw [hland, Nat.shiftRight_eq_div_pow]
    exact Nat.le_trans Nat.and_le_left (Nat.div_le_self _ _)
  rw [UInt64.toNat_sub_of_le _ _ hle, hland]
  rfl

theorem nibbles_le (w : ℕ) : ParallelCount.nibbles 8 w ≤ 2 * 0x3333333333333333 := by
  have h₁ : w &&& ParallelCount.mask 0x33 8 ≤ 0x3333333333333333 := Nat.and_le_right
  have h₂ : w >>> 2 &&& ParallelCount.mask 0x33 8 ≤ 0x3333333333333333 := Nat.and_le_right
  unfold ParallelCount.nibbles
  omega

theorem toNat_nibbles (r : UInt64) :
    ((r &&& (ones / (5 : UInt64))) + ((r >>> 2) &&& (ones / (5 : UInt64)))).toNat =
      ParallelCount.nibbles 8 r.toNat := by
  have hle := nibbles_le r.toNat
  have hsum : (r &&& (ones / (5 : UInt64))).toNat + ((r >>> 2) &&& (ones / (5 : UInt64))).toNat =
      ParallelCount.nibbles 8 r.toNat := by
    rw [UInt64.toNat_and, UInt64.toNat_and, UInt64.toNat_shiftRight]
    rfl
  rw [UInt64.toNat_add, hsum]
  omega

theorem toNat_bytes {r : UInt64} (h : r.toNat ≤ 2 * 0x3333333333333333) :
    ((r + (r >>> 4)) &&& (ones / (17 : UInt64))).toNat = ParallelCount.bytes 8 r.toNat := by
  have hsum : (r + (r >>> 4)).toNat = r.toNat + r.toNat >>> 4 := by
    have hshift : (r >>> 4).toNat = r.toNat >>> 4 := UInt64.toNat_shiftRight r 4
    rw [UInt64.toNat_add, hshift, Nat.shiftRight_eq_div_pow]
    omega
  rw [UInt64.toNat_and, hsum]
  rfl

theorem toNat_sum (r : UInt64) :
    ((r * (ones / (255 : UInt64))) >>> 56).toNat =
      r.toNat * ParallelCount.mask 1 8 % 2 ^ 64 / 2 ^ 56 := by
  have hmask : (ones / (255 : UInt64) : UInt64).toNat = ParallelCount.mask 1 8 := by decide
  rw [UInt64.toNat_shiftRight, UInt64.toNat_mul, hmask]
  exact Nat.shiftRight_eq_div_pow _ _

/-- **The rank of a position** is the number of bits set below it. -/
theorem bitRank_eq_count (hi : i ≤ 57) : bitRank bits i = ParallelCount.count i bits.toNat := by
  unfold bitRank
  split
  · rename_i h
    rw [h]
    rfl
  · rename_i h
    obtain ⟨r, hr⟩ : ∃ r, r = bits <<< UInt64.ofNat (64 - i) := ⟨_, rfl⟩
    have hshift : r.toNat = bits.toNat * 2 ^ (64 - i) % 2 ^ 64 := by
      rw [hr, UInt64.toNat_shiftLeft, UInt64.toNat_ofNat', Nat.shiftLeft_eq,
        show (64 - i) % 2 ^ 64 % 64 = 64 - i by omega]
    have hcount : ParallelCount.count 64 r.toNat = ParallelCount.count i bits.toNat := by
      have h := ParallelCount.count_mul_two_pow (64 - i) i bits.toNat
      rw [Nat.sub_add_cancel (by omega)] at h
      rw [hshift, ParallelCount.count_mod, h]
    have hpairs := toNat_pairs r
    have hnibbles := toNat_nibbles (r - ((r >>> 1) &&& (ones / (3 : UInt64))))
    have hbytes := toNat_bytes (hnibbles.trans_le (nibbles_le _))
    rw [← hr, toNat_sum, hbytes, hnibbles, hpairs, ParallelCount.count_word r.toNat_lt, hcount]

end

/-! ## Insertion -/

section
variable {α : Type} {null junk data : α} {g : SparseGroup α} {content : ℕ → Option α} {i j : ℕ}

/-- What is held below position `n`, in the order of the positions. -/
def heldBelow (content : ℕ → Option α) (n : ℕ) : List α := (List.range n).filterMap content

/-- What is held above position `n`. -/
def heldAbove (content : ℕ → Option α) (n : ℕ) : List α :=
  (List.range' (n + 1) (57 - n)).filterMap content

/-- The group holds `content`: the bitmap tells what is occupied, the count how much, and the slots
are in the order of the positions. -/
structure SparseGroup.Holds (g : SparseGroup α) (content : ℕ → Option α) : Prop where
  occupied : ∀ i < 58, g.bits.toNat.testBit i = (content i).isSome
  counted : g.bits.toNat / 2 ^ 58 = (heldBelow content 58).length
  slots : g.slot.getD [] = heldBelow content 58

theorem heldBelow_split (hi : i ≤ 57) :
    heldBelow content 58 = heldBelow content i ++ (content i).toList ++ heldAbove content i := by
  have hrange : List.range 58 = List.range i ++ i :: List.range' (i + 1) (57 - i) := by
    rw [List.range_eq_range', List.range_eq_range', ← List.range'_succ,
      show 57 - i + 1 = 58 - i by omega]
    have h : List.range' 0 i ++ List.range' (0 + i) (58 - i) = List.range' 0 (i + (58 - i)) :=
      List.range'_append_1
    rw [Nat.zero_add, show i + (58 - i) = 58 by omega] at h
    exact h.symm
  unfold heldBelow heldAbove
  rw [hrange, List.filterMap_append, List.append_assoc]
  congr 1
  cases h : content i with
  | none => rw [List.filterMap_cons_none h, Option.toList_none, List.nil_append]
  | some d => rw [List.filterMap_cons_some h, Option.toList_some, List.singleton_append]

theorem length_heldBelow (content : ℕ → Option α) (n : ℕ) :
    (heldBelow content n).length = (List.range n).countP fun j => (content j).isSome :=
  List.length_filterMap_eq_countP

theorem length_heldBelow_le (content : ℕ → Option α) (n : ℕ) :
    (heldBelow content n).length ≤ n := by
  rw [length_heldBelow]
  have h := List.countP_le_length (p := fun j => (content j).isSome) (l := List.range n)
  rwa [List.length_range] at h

/-- The index of an element is the number of those held below its position. -/
theorem SparseGroup.Holds.bitRank_eq (h : g.Holds content) (hi : i ≤ 57) :
    bitRank g.bits i = (heldBelow content i).length := by
  rw [bitRank_eq_count hi, length_heldBelow, ParallelCount.count]
  refine List.countP_congr fun j hj => ?_
  rw [h.occupied j (by have := List.mem_range.mp hj; omega)]

/-! The bits after an insertion. -/

theorem toNat_bitAt64 (hi : i < 64) : (bitAt64 i).toNat = 2 ^ i := by
  unfold bitAt64
  rw [UInt64.toNat_shiftLeft, UInt64.toNat_ofNat', show i % 2 ^ 64 % 64 = i by omega,
    UInt64.toNat_one, Nat.one_shiftLeft, Nat.mod_eq_of_lt (Nat.pow_lt_pow_right (by decide) hi)]

theorem sgEmpty_iff (hi : i ≤ 57) : sgEmpty g i = true ↔ g.bits.toNat.testBit i = false := by
  unfold sgEmpty
  rw [decide_eq_true_iff, ← UInt64.toNat_inj, UInt64.toNat_and, toNat_bitAt64 (by omega),
    UInt64.toNat_zero, Nat.and_two_pow]
  cases g.bits.toNat.testBit i
  · simp
  · simp

theorem toNat_add_count (h : g.bits.toNat / 2 ^ 58 ≤ 57) :
    (g.bits + bitAt64 58).toNat = g.bits.toNat + 2 ^ 58 := by
  rw [UInt64.toNat_add, toNat_bitAt64 (by decide)]
  omega

theorem occupied_insert (h : g.bits.toNat / 2 ^ 58 ≤ 57) (hi : i ≤ 57) (hj : j < 58) :
    (sgInsert null junk g i data).bits.toNat.testBit j =
      (g.bits.toNat.testBit j || decide (i = j)) := by
  have hlow : (g.bits.toNat + 2 ^ 58).testBit j = g.bits.toNat.testBit j := by
    rw [Nat.add_comm, Nat.testBit_two_pow_add_gt hj]
  show (g.bits + bitAt64 58 ||| bitAt64 i).toNat.testBit j = _
  rw [UInt64.toNat_or, toNat_add_count h, toNat_bitAt64 (by omega), Nat.testBit_or, hlow,
    Nat.testBit_two_pow]

theorem counted_insert (h : g.bits.toNat / 2 ^ 58 ≤ 57) (hi : i ≤ 57) :
    (sgInsert null junk g i data).bits.toNat / 2 ^ 58 = g.bits.toNat / 2 ^ 58 + 1 := by
  have hzero : 2 ^ i / 2 ^ 58 = 0 := Nat.div_eq_of_lt (Nat.pow_lt_pow_right (by decide) (by omega))
  show (g.bits + bitAt64 58 ||| bitAt64 i).toNat / 2 ^ 58 = _
  rw [UInt64.toNat_or, toNat_add_count h, toNat_bitAt64 (by omega), Nat.or_div_two_pow, hzero,
    Nat.or_zero, Nat.add_div_right _ (Nat.two_pow_pos 58)]

/-- The memory after `data` is put between `low` and `high`. -/
theorem memmove_set (low high : List α) :
    (memmove (low ++ high ++ [junk]) (low.length + 1) low.length high.length).set low.length data =
      low ++ data :: high := by
  obtain ⟨x, rest, hrest⟩ : ∃ x rest, high ++ [junk] = x :: rest :=
    List.exists_cons_of_ne_nil (List.append_ne_nil_of_right_ne_nil _ (List.cons_ne_nil _ _))
  have hlength : rest.length = high.length := by
    have h := congrArg List.length hrest
    rw [List.length_append, List.length_singleton, List.length_cons] at h
    omega
  have hlow : (low ++ high ++ [junk]).take (low.length + 1) = low ++ [x] := by
    rw [List.append_assoc, hrest, List.take_length_add_append, List.take_one, List.head?_cons,
      Option.toList_some]
  have hhigh : ((low ++ high ++ [junk]).drop low.length).take high.length = high := by
    rw [List.append_assoc, List.drop_left, List.take_left]
  have hnone : (low ++ high ++ [junk]).drop (low.length + 1 + high.length) = [] := by
    apply List.drop_eq_nil_of_le
    simp only [List.length_append, List.length_singleton]
    omega
  unfold memmove
  rw [hlow, hhigh, hnone, List.append_nil, List.append_assoc, List.set_append_right _ _ (le_refl _),
    Nat.sub_self, List.singleton_append, List.set_cons_zero]

theorem heldBelow_update (hi : i ≤ 57) :
    heldBelow (Function.update content i (some data)) 58 =
      heldBelow content i ++ data :: heldAbove content i := by
  have hbelow : heldBelow (Function.update content i (some data)) i = heldBelow content i := by
    refine List.filterMap_congr fun j hj => ?_
    rw [Function.update_of_ne (Nat.ne_of_lt (List.mem_range.mp hj))]
  have habove : heldAbove (Function.update content i (some data)) i = heldAbove content i := by
    refine List.filterMap_congr fun j hj => ?_
    rw [Function.update_of_ne]
    have := List.mem_range'_1.mp hj
    omega
  rw [heldBelow_split hi, hbelow, habove, Function.update_self, Option.toList_some,
    List.append_assoc, List.singleton_append]

/-- **One insertion** at a position that is not occupied. -/
theorem SparseGroup.Holds.insert (h : g.Holds content) (hi : i ≤ 57) (hfree : content i = none) :
    (sgInsert null junk g i data).Holds (Function.update content i (some data)) := by
  have hheld : heldBelow content 58 = heldBelow content i ++ heldAbove content i := by
    rw [heldBelow_split hi, hfree, Option.toList_none, List.append_nil]
  have hcount : g.bits.toNat / 2 ^ 58 =
      (heldBelow content i).length + (heldAbove content i).length := by
    rw [h.counted, hheld, List.length_append]
  have hle : g.bits.toNat / 2 ^ 58 ≤ 57 := by
    have hbelow := length_heldBelow_le content i
    have habove : (heldAbove content i).length ≤ 57 - i := by
      refine Nat.le_trans (List.length_filterMap_le _ _) ?_
      rw [List.length_range']
    omega
  constructor
  · intro j hj
    rw [occupied_insert hle hi hj, h.occupied j hj]
    by_cases hij : j = i
    · rw [hij, Function.update_self, decide_eq_true rfl, Bool.or_true, Option.isSome_some]
    · rw [Function.update_of_ne hij, decide_eq_false (fun h => hij h.symm), Bool.or_false]
  · rw [counted_insert hle hi, hcount, heldBelow_update hi, List.length_append,
      List.length_cons, Nat.add_assoc]
  · have hshift : (g.bits >>> 58).toNat = g.bits.toNat / 2 ^ 58 := by
      rw [UInt64.toNat_shiftRight]
      exact Nat.shiftRight_eq_div_pow _ _
    have hslots := h.slots
    rw [hheld] at hslots
    rw [heldBelow_update hi]
    unfold sgInsert
    rw [h.bitRank_eq hi, hshift, hcount]
    cases hslot : g.slot with
    | none =>
      rw [hslot] at hslots
      obtain ⟨hbelow, habove⟩ := List.append_eq_nil_iff.mp hslots.symm
      rw [hbelow, habove]
      rfl
    | some slot =>
      rw [hslot, Option.getD_some] at hslots
      have hrealloc : realloc junk slot
          ((heldBelow content i).length + (heldAbove content i).length + 1) =
          heldBelow content i ++ heldAbove content i ++ [junk] := by
        unfold realloc
        rw [← List.length_append, ← hslots, Nat.add_sub_cancel_left,
          List.take_of_length_le (Nat.le_succ _)]
        rfl
      have hrest : (heldBelow content i).length + (heldAbove content i).length + 1 -
          ((heldBelow content i).length + 1) = (heldAbove content i).length := by omega
      show (memmove (realloc junk slot _) _ _ _).set _ data = _
      rw [hrest, hrealloc, memmove_set]

/-! ## Sequences of insertions -/

/-- What is held after calls of `sg_insert`. -/
def heldAfter (content : ℕ → Option α) : List (ℕ × α) → ℕ → Option α
  | [] => content
  | (i, data) :: calls => heldAfter (Function.update content i (some data)) calls

theorem newGroup_holds : (newGroup : SparseGroup α).Holds fun _ => none := by
  have hheld : heldBelow (fun _ => (none : Option α)) 58 = [] :=
    List.filterMap_eq_nil_iff.mpr fun _ _ => rfl
  constructor
  · intro i hi
    exact Nat.zero_testBit i
  · show (0 : UInt64).toNat / 2 ^ 58 = _
    rw [hheld, UInt64.toNat_zero, Nat.zero_div, List.length_nil]
  · rw [hheld]
    rfl

variable {calls : List (ℕ × α)}

theorem heldAfter_of_notMem (hi : i ∉ calls.map Prod.fst) :
    heldAfter content calls i = content i := by
  induction calls generalizing content with
  | nil => rfl
  | cons c calls ih =>
    rw [List.map_cons, List.mem_cons, not_or] at hi
    unfold heldAfter
    rw [ih hi.2, Function.update_of_ne hi.1]

theorem heldAfter_of_mem (hnodup : (calls.map Prod.fst).Nodup) {c : ℕ × α} (hc : c ∈ calls) :
    heldAfter content calls c.1 = some c.2 := by
  induction calls generalizing content with
  | nil => cases hc
  | cons d calls ih =>
    rw [List.map_cons, List.nodup_cons] at hnodup
    unfold heldAfter
    rcases List.mem_cons.mp hc with rfl | hc
    · rw [heldAfter_of_notMem hnodup.1, Function.update_self]
    · exact ih hnodup.2 hc

/-- **A sequence of insertions** at positions that are not occupied. -/
theorem sgInserts_holds (h : g.Holds content) (hrange : ∀ c ∈ calls, c.1 ≤ 57)
    (hnodup : (calls.map Prod.fst).Nodup) (hfree : ∀ c ∈ calls, content c.1 = none) :
    (sgInserts null junk g calls).Holds (heldAfter content calls) := by
  induction calls generalizing g content with
  | nil => exact h
  | cons c calls ih =>
    rw [List.map_cons, List.nodup_cons] at hnodup
    have hhead : c ∈ c :: calls := List.mem_cons_self
    have hnext : (sgInsert null junk g c.1 c.2).Holds (Function.update content c.1 (some c.2)) :=
      h.insert (hrange c hhead) (hfree c hhead)
    apply ih hnext
    · intro d hd
      exact hrange d (List.mem_cons_of_mem _ hd)
    · exact hnodup.2
    · intro d hd
      have hne : d.1 ≠ c.1 := by
        intro heq
        exact hnodup.1 (heq ▸ List.mem_map_of_mem hd)
      rw [Function.update_of_ne hne]
      exact hfree d (List.mem_cons_of_mem _ hd)

theorem SparseGroup.Holds.sgElement_eq (h : g.Holds content) (hi : i ≤ 57)
    (hdata : content i = some data) : sgElement g i = some data := by
  have hslots := h.slots
  rw [heldBelow_split hi, hdata, Option.toList_some] at hslots
  unfold sgElement
  rw [h.bitRank_eq hi]
  cases hslot : g.slot with
  | none =>
    rw [hslot, Option.getD_none, List.append_assoc] at hslots
    exact absurd hslots.symm (List.append_ne_nil_of_right_ne_nil _ (List.cons_ne_nil _ _))
  | some slot =>
    rw [hslot, Option.getD_some] at hslots
    show slot[_]? = _
    rw [hslots, List.append_assoc, List.getElem?_append_right (le_refl _), Nat.sub_self]
    rfl

theorem SparseGroup.Holds.sgEmpty_iff (h : g.Holds content) (hi : i ≤ 57) :
    sgEmpty g i = true ↔ content i = none := by
  rw [SeClient.sgEmpty_iff hi, h.occupied i (by omega), Option.isSome_eq_false_iff,
    Option.isNone_iff_eq_none]

/-- The count of the group is the number of occupied positions. -/
theorem SparseGroup.Holds.count_eq (h : g.Holds content) :
    (g.bits >>> 58).toNat = g.occupied := by
  have hshift : (g.bits >>> 58).toNat = g.bits.toNat / 2 ^ 58 := by
    rw [UInt64.toNat_shiftRight]
    exact Nat.shiftRight_eq_div_pow _ _
  rw [hshift, h.counted, length_heldBelow]
  unfold SparseGroup.occupied
  refine List.countP_congr fun i hi => ?_
  have hi : i ≤ 57 := by
    have := List.mem_range.mp hi
    omega
  rw [Bool.not_eq_true', ← Bool.not_eq_true, h.sgEmpty_iff hi, ← ne_eq,
    Option.isSome_iff_ne_none]

/-- **Groups are indexed by rank.**  `bit_rank` counts the bits below every position of every word.
After every sequence of insertions at distinct positions, each position designates what was inserted
there, all others are empty, and the count is the number of occupied positions. -/
theorem sparse_group_indexed :
    (∀ (bits : UInt64) (i : ℕ), i ≤ 57 → bitRank bits i = ParallelCount.count i bits.toNat) ∧
    ∀ (α : Type) (null junk : α) (calls : List (ℕ × α)), (∀ c ∈ calls, c.1 ≤ 57) →
      (calls.map Prod.fst).Nodup →
      (∀ c ∈ calls, sgElement (sgInserts null junk newGroup calls) c.1 = some c.2) ∧
      (∀ i ≤ 57, sgEmpty (sgInserts null junk newGroup calls) i = true ↔ i ∉ calls.map Prod.fst) ∧
      ((sgInserts null junk newGroup calls).bits >>> 58).toNat =
        (sgInserts null junk newGroup calls).occupied := by
  refine ⟨fun bits i hi => bitRank_eq_count hi, ?_⟩
  intro α null junk calls hrange hnodup
  have h : (sgInserts null junk newGroup calls).Holds (heldAfter (fun _ => none) calls) :=
    sgInserts_holds newGroup_holds hrange hnodup fun _ _ => rfl
  refine ⟨?_, ?_, h.count_eq⟩
  · intro c hc
    exact h.sgElement_eq (hrange c hc) (heldAfter_of_mem hnodup hc)
  · intro i hi
    rw [h.sgEmpty_iff hi]
    constructor
    · intro hnone hmem
      obtain ⟨c, hc, rfl⟩ := List.mem_map.mp hmem
      rw [heldAfter_of_mem hnodup hc] at hnone
      cases hnone
    · exact heldAfter_of_notMem

/-- Three insertions, the last of them below the others. -/
theorem sparse_group_three :
    sgElement (sgInserts 0 0 newGroup [(57, 7), (5, 8), (0, 9)]) 57 = some 7 :=
  (sparse_group_indexed.2 ℕ 0 0 [(57, 7), (5, 8), (0, 9)] (by decide) (by decide)).1 (57, 7)
    (by decide)

end
end SeClient
