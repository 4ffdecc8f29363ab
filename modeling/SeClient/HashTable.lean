import SeClient.SparseGroup
import SeClient.Passes
import SeClient.Probing

/-!
# The sparse hash table

A table of sparse groups with open addressing: the n-th probe is n places behind the one before it.
A deleted entry keeps its place with a null pointer, so that what was put behind it is still found.
-/

namespace SeClient

/-- `get_key`, `hash` and `compare`; two keys are equal when `compare` is 0. -/
structure HashKind (δ κ : Type) where
  getKey : δ → κ
  hash : κ → UInt32
  compare : κ → κ → ℤ

/-- `compare` is an equivalence that respects the hash. -/
structure HashKind.Lawful {δ κ : Type} (k : HashKind δ κ) : Prop where
  refl : ∀ a, k.compare a a = 0
  symm : ∀ a b, k.compare a b = 0 → k.compare b a = 0
  trans : ∀ a b c, k.compare a b = 0 → k.compare b c = 0 → k.compare a c = 0
  hash : ∀ a b, k.compare a b = 0 → k.hash a = k.hash b

/-- `HashTable`: an entry is a pointer to an item, or null; `mark` is the place in `g` and `i`. -/
structure HashTable (δ : Type) where
  table : List (SparseGroup (Option δ))
  size : ℕ
  min : ℤ
  max : ℤ
  items : ℤ := 0
  mark : Option (ℕ × ℕ) := none

/-- `HashPointer`: a group and the index of a slot. -/
structure HashPointer where
  g : ℕ
  i : ℤ

/-- What `hash_iterate` begins with. -/
def HashPointer.first : HashPointer := ⟨0, -1⟩

/-- The slots of a group up to its count. -/
def SparseGroup.elements {α : Type} (g : SparseGroup α) : List α :=
  (g.slot.getD []).take (g.bits >>> 58).toNat

namespace HashTable
variable {δ κ : Type} (k : HashKind δ κ)

/-! ## Traversal -/

/-- The first entry from index `i` on that is not null. -/
def firstEntry : List (Option δ) → ℤ → Option (ℤ × δ)
  | [], _ => none
  | some data :: _, i => some (i, data)
  | none :: slots, i => firstEntry slots (i + 1)

/-- `next_group:`, with the groups behind group `g`. -/
def nextGroup : List (SparseGroup (Option δ)) → HashPointer → HashPointer × Option δ
  | [], p => (p, none)
  | sg :: groups, p =>
    match firstEntry sg.elements 0 with
    | some (i, data) => (⟨p.g + 1, i⟩, some data)
    | none => nextGroup groups ⟨p.g + 1, sg.elements.length⟩

/-- The slots of the group that a pointer is in. -/
def slotsAt (ht : HashTable δ) (p : HashPointer) : List (Option δ) :=
  (ht.table[p.g]?.map SparseGroup.elements).getD []

/-- `hash_next` -/
def hashNext (ht : HashTable δ) (p : HashPointer) : HashPointer × Option δ :=
  let i := p.i + 1
  match firstEntry ((ht.slotsAt p).drop i.toNat) i with
  | some (i, data) => (⟨p.g, i⟩, some data)
  | none => nextGroup (ht.table.drop (p.g + 1)) ⟨p.g, Max.max i (ht.slotsAt p).length⟩

/-- `foreach_h` from a pointer on; `none` when it has not ended after `fuel` items. -/
def foreachFrom (ht : HashTable δ) : ℕ → HashPointer → Option (List δ)
  | 0, _ => none
  | fuel + 1, p =>
    match ht.hashNext p with
    | (_, none) => some []
    | (p, some data) => (foreachFrom ht fuel p).map (data :: ·)

/-- `foreach_h` -/
def foreach (ht : HashTable δ) (fuel : ℕ) : Option (List δ) := ht.foreachFrom fuel .first

/-! ## Entries -/

/-- `hash_new`, with `min` and `max` in the arithmetic of `int`. -/
def hashNew (size : ℕ) : HashTable δ where
  table := List.replicate ((size + 57) / 58) newGroup
  size := size
  min := (Int.bmod (size * 40) (2 ^ 32)).tdiv 100
  max := (Int.bmod (size * 80) (2 ^ 32)).tdiv 100

/-- The table with another mark. -/
def marked (ht : HashTable δ) (mark : Option (ℕ × ℕ)) : HashTable δ := { ht with mark := mark }

/-- `hash_insert`; `none` when there is no place. -/
def hashInsert (ht : HashTable δ) (data : δ) : Option (HashTable δ) :=
  ht.mark.map fun m =>
    { ht with table := ht.table.modify m.1 fun g => sgInsert none none g m.2 (some data) }

/-- `*e = data` for the entry at a place. -/
def setEntry (ht : HashTable δ) (e : ℕ × ℕ) (data : Option δ) : HashTable δ :=
  { ht with table := ht.table.modify e.1 fun g =>
      { g with slot := g.slot.map fun slot => slot.set (bitRank g.bits e.2) data } }

/-- `*e` -/
def entry (ht : HashTable δ) (e : ℕ × ℕ) : Option δ :=
  ((ht.table[e.1]?.bind fun g => sgElement g e.2)).join

/-- The place with an index: its group and the position in it. -/
def place (index : ℕ) : ℕ × ℕ := (index / 58, index % 58)

/-- A pass of the loop of `hash_find`, on the mark, the index and the probes.  It ends with the mark
and the place of the entry, or with `none` outside of the memory of the table. -/
def findPass (ht : HashTable δ) (key : κ) (s : Option (ℕ × ℕ) × ℕ × ℕ) :
    (Option (ℕ × ℕ) × ℕ × ℕ) ⊕ Option (Option (ℕ × ℕ) × Option (ℕ × ℕ)) :=
  let e := place s.2.1
  let probes := s.2.2 + 1
  let index := (s.2.1 + probes) &&& (ht.size - 1)
  match ht.table[e.1]? with
  | none => .inr none
  | some g =>
    if g.slot.isNone || sgEmpty g e.2 then .inr (some (s.1.or (some e), none))
    else
      match sgElement g e.2 with
      | none => .inr none
      | some none => .inl (s.1.or (some e), index, probes)
      | some (some data) =>
        if k.compare key (k.getKey data) = 0 then .inr (some (s.1, some e))
        else .inl (s.1, index, probes)

/-- `hash_find`: the place of the entry, if there is one; `none` when it has not ended. -/
def hashFind (ht : HashTable δ) (fuel : ℕ) (key : κ) :
    Option (HashTable δ × Option (ℕ × ℕ)) :=
  (Passes.loop (ht.findPass k key) fuel
      (none, (k.hash key).toNat &&& (ht.size - 1), 0)).join.map fun r =>
    (ht.marked r.1, r.2)

/-- `hash_resize`, which frees the table. -/
def hashResize (ht : HashTable δ) (fuel size : ℕ) : Option (HashTable δ) :=
  (ht.foreach fuel).bind fun items =>
    items.foldlM hashInsert { hashNew size with items := ht.items }

/-- `hash_put`; the caller has no table any more when it has been freed. -/
def hashPut (ht : HashTable δ) (fuel : ℕ) (data : δ) : Option (Option (HashTable δ)) :=
  (ht.hashFind k fuel (k.getKey data)).bind fun r =>
    let ht := r.1
    match r.2 with
    | some e => some (some (ht.setEntry e (some data)))
    | none =>
      if ht.items = ht.max then
        ((ht.hashResize fuel (ht.size * 2)).bind (hashInsert · data)).map fun _ => none
      else (ht.hashInsert data).map fun ht => some { ht with items := ht.items + 1 }

/-- `hash_delete` -/
def hashDelete (ht : HashTable δ) (fuel : ℕ) (key : κ) :
    Option (Option (HashTable δ) × Option δ) :=
  (ht.hashFind k fuel key).bind fun r =>
    let ht := r.1
    match r.2 with
    | none => some (some ht, none)
    | some e =>
      let tmp := ht.entry e
      let ht := ht.setEntry e none
      if ht.items = ht.min then (ht.hashResize fuel (ht.size / 2)).map fun _ => (none, tmp)
      else some (some { ht with items := ht.items - 1 }, tmp)

/-- `hash_get` -/
def hashGet (ht : HashTable δ) (fuel : ℕ) (key : κ) : Option (HashTable δ × Option δ) :=
  (ht.hashFind k fuel key).map fun r => (r.1, r.2.bind r.1.entry)

end HashTable

/-! ## Calls -/

/-- The calls on a table and a pointer into it. -/
inductive HashCall (δ κ : Type)
  | put (data : δ)
  | delete (key : κ)
  | get (key : κ)
  | iterate
  | next

/-- The table of the caller, if it has not been freed, and its pointer. -/
structure HashState (δ : Type) where
  table : Option (HashTable δ)
  pointer : HashPointer := HashPointer.first

/-- A call with what it returns; `none` when it has not ended, or when it is not defined. -/
def HashState.call {δ κ : Type} (k : HashKind δ κ) (fuel : ℕ) (s : HashState δ) :
    HashCall δ κ → Option (Option δ × HashState δ)
  | .put data => s.table.bind fun ht => (ht.hashPut k fuel data).map fun t =>
      (none, { s with table := t })
  | .delete key => s.table.bind fun ht => (ht.hashDelete k fuel key).map fun r =>
      (r.2, { s with table := r.1 })
  | .get key => s.table.bind fun ht => (ht.hashGet k fuel key).map fun r =>
      (r.2, { s with table := some r.1 })
  | .iterate => s.table.map fun ht =>
      let r := ht.hashNext HashPointer.first
      (r.2, { s with pointer := r.1 })
  | .next => s.table.map fun ht =>
      let r := ht.hashNext s.pointer
      (r.2, { s with pointer := r.1 })

section
variable {δ κ : Type} (k : HashKind δ κ)

/-- A call ends with an answer. -/
def HashState.Returns (s : HashState δ) (c : HashCall δ κ) (a : Option δ) (s' : HashState δ) :
    Prop := ∃ fuel, s.call k fuel c = some (a, s')

/-- What the map holds after a call: the item put most recently with an equal key and not deleted
since. -/
def heldThen (held : κ → Option δ) : HashCall δ κ → κ → Option δ
  | .put data => fun key => if k.compare key (k.getKey data) = 0 then some data else held key
  | .delete key' => fun key => if k.compare key key' = 0 then none else held key
  | _ => held

/-- What a call has to return. -/
def Expected (held : κ → Option δ) : HashCall δ κ → Option δ → Prop
  | .get key, a => a = held key
  | .delete key, a => a = held key
  | _, _ => True

/-- A traversal visits each item that is held exactly once. -/
def Traverses (ht : HashTable δ) (held : κ → Option δ) : Prop :=
  ∃ fuel items, ht.foreach fuel = some items ∧
    items.Pairwise (fun d e => ¬k.compare (k.getKey d) (k.getKey e) = 0) ∧
    ∀ d, d ∈ items ↔ held (k.getKey d) = some d

/-- **Calls on a table are calls on a finite map.** -/
def Refines : List (HashCall δ κ) → HashState δ → (κ → Option δ) → Prop
  | [], s, held => ∃ ht, s.table = some ht ∧ Traverses k ht held
  | c :: calls, s, held => ∃ a s', s.Returns k c a s' ∧ Expected held c a ∧
      Refines calls s' (heldThen k held c)

end

/-! ## Cells -/

/-- What is at a position of a group: nothing ever, or an entry. -/
def cellOf {δ : Type} (g : SparseGroup (Option δ)) (i : ℕ) : Option (Option δ) :=
  if g.slot.isNone || sgEmpty g i then none else sgElement g i

section
variable {δ : Type} {g : SparseGroup (Option δ)} {content content' : ℕ → Option (Option δ)}
  {data : Option δ} {i j : ℕ}

theorem SparseGroup.Holds.congr (h : g.Holds content) (heq : ∀ i ≤ 57, content i = content' i) :
    g.Holds content' := by
  have hheld : heldBelow content 58 = heldBelow content' 58 := by
    refine List.filterMap_congr fun i hi => heq i ?_
    have := List.mem_range.mp hi
    omega
  constructor
  · intro i hi
    rw [h.occupied i hi, heq i (by omega)]
  · rw [h.counted, hheld]
  · rw [h.slots, hheld]

theorem SparseGroup.Holds.cellOf_eq (h : g.Holds content) (hi : i ≤ 57) :
    cellOf g i = content i := by
  unfold cellOf
  cases hcontent : content i with
  | none =>
    rw [(h.sgEmpty_iff hi).mpr hcontent, Bool.or_true, if_pos rfl]
  | some d =>
    have hused : sgEmpty g i = false := by
      rw [← Bool.not_eq_true, h.sgEmpty_iff hi, hcontent]
      exact Option.some_ne_none d
    have hslot : g.slot.isNone = false := by
      have hslots := h.slots
      rw [heldBelow_split hi, hcontent, Option.toList_some] at hslots
      cases hnone : g.slot with
      | none =>
        rw [hnone, Option.getD_none, List.append_assoc] at hslots
        exact absurd hslots.symm (List.append_ne_nil_of_right_ne_nil _ (List.cons_ne_nil _ _))
      | some slot => rfl
    rw [hslot, hused, Bool.or_false, if_neg Bool.false_ne_true, h.sgElement_eq hi hcontent]

theorem SparseGroup.Holds.cells (h : g.Holds content) : g.Holds (cellOf g) :=
  h.congr fun _ hi => (h.cellOf_eq hi).symm

/-- `*e = data` for the entry at position `i`. -/
theorem SparseGroup.Holds.set (h : g.Holds content) (hi : i ≤ 57) (hused : content i ≠ none) :
    SparseGroup.Holds { g with slot := g.slot.map fun slot => slot.set (bitRank g.bits i) data }
      (Function.update content i (some data)) := by
  obtain ⟨old, hold⟩ := Option.ne_none_iff_exists'.mp hused
  have hsplit : heldBelow content 58 = heldBelow content i ++ (content i).toList ++
      heldAbove content i := heldBelow_split hi
  rw [hold, Option.toList_some, List.append_assoc, List.singleton_append] at hsplit
  constructor
  · intro j hj
    rw [h.occupied j hj]
    by_cases hij : j = i
    · rw [hij, Function.update_self, hold, Option.isSome_some, Option.isSome_some]
    · rw [Function.update_of_ne hij]
  · rw [h.counted, heldBelow_update hi, hsplit, List.length_append, List.length_append,
      List.length_cons, List.length_cons]
  · have hslots := h.slots
    rw [heldBelow_update hi]
    cases hslot : g.slot with
    | none =>
      rw [hslot, Option.getD_none, hsplit] at hslots
      exact absurd hslots.symm (List.append_ne_nil_of_right_ne_nil _ (List.cons_ne_nil _ _))
    | some slot =>
      rw [hslot, Option.getD_some, hsplit] at hslots
      show slot.set _ data = _
      rw [hslots, h.bitRank_eq hi, List.set_append_right _ _ (Nat.le_refl _), Nat.sub_self,
        List.set_cons_zero]

end

namespace HashTable
variable {δ : Type} {ht ht' : HashTable δ} {index index' : ℕ}

/-- What is at an index: `none` when nothing has ever been put there, `some none` when it has been
deleted. -/
def cell (ht : HashTable δ) (index : ℕ) : Option (Option δ) :=
  ht.table[index / 58]?.bind fun g => cellOf g (index % 58)

/-- The groups hold what their bitmaps say. -/
def Sound (ht : HashTable δ) : Prop := ∀ g ∈ ht.table, g.Holds (cellOf g)

/-- **A group is changed at one position.** -/
theorem Sound.write {f : SparseGroup (Option δ) → SparseGroup (Option δ)} {data : Option δ}
    (h : ht.Sound) (hindex : index / 58 < ht.table.length)
    (hf : ∀ g, g.Holds (cellOf g) → cellOf g (index % 58) = ht.cell index →
      (f g).Holds (Function.update (cellOf g) (index % 58) (some data))) :
    Sound { ht with table := ht.table.modify (index / 58) f } ∧
      ({ ht with table := ht.table.modify (index / 58) f } : HashTable δ).cell =
        Function.update ht.cell index (some data) := by
  obtain ⟨g, hg⟩ : ∃ g, ht.table[index / 58]? = some g := ⟨_, List.getElem?_eq_getElem hindex⟩
  have hholds := h g (List.mem_of_getElem? hg)
  have hcell : cellOf g (index % 58) = ht.cell index := by
    unfold cell
    rw [hg]
    rfl
  have hnew := hf g hholds hcell
  constructor
  · intro g' hg'
    obtain ⟨n, hn⟩ := List.mem_iff_getElem?.mp hg'
    dsimp only at hn
    by_cases hsame : index / 58 = n
    · subst hsame
      rw [List.getElem?_modify_eq, hg] at hn
      obtain rfl := Option.some.inj hn
      exact hnew.cells
    · rw [List.getElem?_modify_ne _ _ hsame] at hn
      exact h g' (List.mem_of_getElem? hn)
  · funext j
    unfold cell
    dsimp only
    by_cases hsame : index / 58 = j / 58
    · rw [← hsame, List.getElem?_modify_eq, hg]
      show cellOf (f g) (j % 58) = _
      rw [hnew.cellOf_eq (by omega)]
      by_cases hj : j = index
      · subst hj
        rw [Function.update_self, Function.update_self]
      · rw [Function.update_of_ne hj, Function.update_of_ne (by omega), ← hsame, hg]
        rfl
    · rw [List.getElem?_modify_ne _ _ hsame, Function.update_of_ne (fun h => hsame (by rw [h]))]

/-! ## The search -/

variable {κ : Type} {k : HashKind δ κ} {key : κ} {mark : Option (ℕ × ℕ)} {n : ℕ} {data : δ}

/-- The index of a probe for a key. -/
def probe (k : HashKind δ κ) (ht : HashTable δ) (key : κ) (n : ℕ) : ℕ :=
  Probing.probe (ht.size - 1) (k.hash key).toNat n

theorem Sound.cell_group (h : ht.Sound) (hindex : index / 58 < ht.table.length) :
    ∃ g, ht.table[index / 58]? = some g ∧ cellOf g (index % 58) = ht.cell index ∧
      ((g.slot.isNone || sgEmpty g (index % 58)) = true ↔ ht.cell index = none) ∧
      (ht.cell index ≠ none → sgElement g (index % 58) = ht.cell index) := by
  have hg : ht.table[index / 58]? = some ht.table[index / 58] := List.getElem?_eq_getElem hindex
  have hcell : cellOf ht.table[index / 58] (index % 58) = ht.cell index := by
    unfold cell
    rw [hg]
    rfl
  have hholds := h _ (List.mem_of_getElem? hg)
  refine ⟨_, hg, hcell, ⟨fun hempty => ?_, fun hnone => ?_⟩, fun hused => ?_⟩
  · rw [← hcell, cellOf, if_pos hempty]
  · rw [← hcell] at hnone
    rw [(hholds.sgEmpty_iff (by omega)).mpr hnone, Bool.or_true]
  · rw [← hcell] at hused ⊢
    unfold cellOf at hused ⊢
    by_cases hempty : (ht.table[index / 58].slot.isNone ||
        sgEmpty ht.table[index / 58] (index % 58)) = true
    · rw [if_pos hempty] at hused
      exact absurd rfl hused
    · rw [if_neg hempty]

variable (k key mark n) in
theorem findPass_unused (h : ht.Sound) (hindex : index / 58 < ht.table.length)
    (hcell : ht.cell index = none) :
    ht.findPass k key (mark, index, n) = .inr (some (mark.or (some (place index)), none)) := by
  obtain ⟨g, hg, -, hempty, -⟩ := h.cell_group hindex
  unfold findPass place
  dsimp only
  rw [hg]
  dsimp only
  rw [if_pos (hempty.mpr hcell)]

variable (k key mark n) in
theorem findPass_deleted (h : ht.Sound) (hindex : index / 58 < ht.table.length)
    (hcell : ht.cell index = some none) : ht.findPass k key (mark, index, n) =
      .inl (mark.or (some (place index)), (index + (n + 1)) &&& (ht.size - 1), n + 1) := by
  obtain ⟨g, hg, -, hempty, helement⟩ := h.cell_group hindex
  have hused : ht.cell index ≠ none := hcell ▸ Option.some_ne_none none
  unfold findPass place
  dsimp only
  rw [hg]
  dsimp only
  rw [if_neg (mt hempty.mp hused), helement hused, hcell]

variable (k key mark n) in
theorem findPass_live (h : ht.Sound) (hindex : index / 58 < ht.table.length)
    (hcell : ht.cell index = some (some data)) : ht.findPass k key (mark, index, n) =
      if k.compare key (k.getKey data) = 0 then .inr (some (mark, some (place index)))
      else .inl (mark, (index + (n + 1)) &&& (ht.size - 1), n + 1) := by
  obtain ⟨g, hg, -, hempty, helement⟩ := h.cell_group hindex
  have hused : ht.cell index ≠ none := hcell ▸ Option.some_ne_none (some data)
  unfold findPass place
  dsimp only
  rw [hg]
  dsimp only
  rw [if_neg (mt hempty.mp hused), helement hused, hcell]

/-- The search passes over a place: an entry is there, not one with the key. -/
def Passed (k : HashKind δ κ) (ht : HashTable δ) (key : κ) (index : ℕ) : Prop :=
  ht.cell index ≠ none ∧
    ∀ data, ht.cell index = some (some data) → ¬k.compare key (k.getKey data) = 0

/-- **The passes of a search**, and what is marked on the way. -/
theorem findPass_leads (h : ht.Sound) (hrange : ∀ n, ht.probe k key n / 58 < ht.table.length)
    (hpassed : ∀ j < n, ht.Passed k key (ht.probe k key j)) :
    ∃ mark, Passes.Leads (ht.findPass k key) (none, ht.probe k key 0, 0)
        (mark, ht.probe k key n, n) ∧
      ((∀ j < n, ht.cell (ht.probe k key j) ≠ some none) → mark = none) := by
  induction n with
  | zero => exact ⟨none, .refl _, fun _ => rfl⟩
  | succ n ih =>
    obtain ⟨mark, hleads, hmark⟩ := ih fun j hj => hpassed j (Nat.lt_succ_of_lt hj)
    obtain ⟨hused, hother⟩ := hpassed n (Nat.lt_succ_self n)
    obtain ⟨entry, hcell⟩ := Option.ne_none_iff_exists'.mp hused
    cases entry with
    | none =>
      have hpass := findPass_deleted k key mark n h (hrange n) hcell
      refine ⟨_, hleads.trans (.step hpass), fun hclear => ?_⟩
      exact absurd hcell (hclear n (Nat.lt_succ_self n))
    | some data =>
      have hpass := findPass_live k key mark n h (hrange n) hcell
      rw [if_neg (hother data hcell)] at hpass
      exact ⟨mark, hleads.trans (.step hpass),
        fun hclear => hmark fun j hj => hclear j (Nat.lt_succ_of_lt hj)⟩

theorem hashFind_of_ends {r : Option (ℕ × ℕ) × Option (ℕ × ℕ)}
    (hends : Passes.Ends (ht.findPass k key) (none, ht.probe k key 0, 0) (some r)) :
    ∃ fuel, ht.hashFind k fuel key = some (ht.marked r.1, r.2) := by
  obtain ⟨fuel, hloop⟩ := hends.loop
  refine ⟨fuel, ?_⟩
  unfold hashFind
  change (Passes.loop _ fuel (none, ht.probe k key 0, 0)).join.map _ = _
  rw [hloop]
  rfl

/-- The entry that a search ends at. -/
theorem hashFind_entry (h : ht.Sound) (hrange : ∀ n, ht.probe k key n / 58 < ht.table.length)
    (hpassed : ∀ j < n, ht.Passed k key (ht.probe k key j))
    (hcell : ht.cell (ht.probe k key n) = some (some data))
    (hkey : k.compare key (k.getKey data) = 0) :
    ∃ fuel mark, ht.hashFind k fuel key =
      some (ht.marked mark, some (place (ht.probe k key n))) := by
  obtain ⟨mark, hleads, -⟩ := findPass_leads h hrange hpassed
  have hpass := findPass_live k key mark n h (hrange n) hcell
  rw [if_pos hkey] at hpass
  obtain ⟨fuel, hfind⟩ := hashFind_of_ends (hleads.ends.mpr (.last hpass))
  exact ⟨fuel, mark, hfind⟩

/-- The place that a search without an entry marks. -/
theorem hashFind_place (h : ht.Sound) (hrange : ∀ n, ht.probe k key n / 58 < ht.table.length)
    (hpassed : ∀ j < n, ht.Passed k key (ht.probe k key j))
    (hcell : ht.cell (ht.probe k key n) = none) :
    ∃ fuel mark, ht.hashFind k fuel key = some (ht.marked mark, none) ∧
      ((∀ j < n, ht.cell (ht.probe k key j) ≠ some none) →
        mark = some (place (ht.probe k key n))) := by
  obtain ⟨mark, hleads, hmark⟩ := findPass_leads h hrange hpassed
  have hpass := findPass_unused k key mark n h (hrange n) hcell
  obtain ⟨fuel, hfind⟩ := hashFind_of_ends (hleads.ends.mpr (.last hpass))
  refine ⟨fuel, _, hfind, fun hclear => ?_⟩
  rw [hmark hclear]
  rfl

end HashTable
end SeClient
