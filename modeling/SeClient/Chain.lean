import Mathlib.Logic.Function.Basic
import Mathlib.Data.List.Basic
import Mathlib.Data.List.Nodup
import Mathlib.Order.Lattice

/-!
# Intrusive singly linked lists

A record that carries its own link is a node of at most one list at a time, and a
family of such lists is nothing but one map `next` and a few heads.  This module
relates that map to the lists of nodes a reader has in mind.

* `Linked next h l`: following `next` from `h` visits exactly `l` and then ends.
* `relink`, `listRemove`, `insertSorted`: the pointer algorithms.  A loop over a
  chain takes fuel and answers `none` when it does not end in time, so a cyclic
  chain is a chain the loop never leaves.
* Their specifications: on a chain that represents `l` they produce a chain that
  represents the list with the node removed or inserted, and no other node's link
  changes.
-/

namespace Chain

variable {P : Type*}

/-- `Linked next h l`: following `next` from `h` visits exactly the nodes of `l`,
in order, and then ends. -/
def Linked (next : P → Option P) : Option P → List P → Prop
  | h, [] => h = none
  | h, a :: l => h = some a ∧ Linked next (next a) l

section Basic
variable {next next' : P → Option P} {h h' : Option P} {a : P} {l r : List P}

@[simp] theorem linked_nil : Linked next h [] ↔ h = none := Iff.rfl

@[simp] theorem linked_cons :
    Linked next h (a :: l) ↔ h = some a ∧ Linked next (next a) l := Iff.rfl

/-- The list a head represents is determined by the links. -/
theorem Linked.unique (hl : Linked next h l) (hr : Linked next h r) : l = r := by
  induction l generalizing h r with
  | nil =>
    cases r with
    | nil => rfl
    | cons b r => rw [linked_nil] at hl; rw [hl] at hr; exact absurd hr.1 (by simp)
  | cons b l ih =>
    cases r with
    | nil => rw [linked_nil] at hr; rw [hr] at hl; exact absurd hl.1 (by simp)
    | cons c r =>
      have hbc : b = c := Option.some.inj (hl.1.symm.trans hr.1)
      subst hbc
      rw [ih hl.2 hr.2]

/-- **Frame.**  A chain survives every change of links outside its own nodes. -/
theorem Linked.congr (hl : Linked next h l) (hn : ∀ b ∈ l, next' b = next b) :
    Linked next' h l := by
  induction l generalizing h with
  | nil => exact hl
  | cons b l ih =>
    refine ⟨hl.1, ?_⟩
    rw [hn b List.mem_cons_self]
    exact ih hl.2 (fun c hc => hn c (List.mem_cons_of_mem _ hc))

/-- Inside a chain, every suffix is a chain of its own. -/
theorem Linked.suffix (hl : Linked next h (l ++ r)) : ∃ h', Linked next h' r := by
  induction l generalizing h with
  | nil => exact ⟨h, hl⟩
  | cons b l ih => exact ih hl.2

/-- The link of a node leads to the rest of the chain. -/
theorem Linked.rest (hl : Linked next h (l ++ a :: r)) : Linked next (next a) r := by
  obtain ⟨_, hr⟩ := hl.suffix
  exact hr.2

theorem Linked.head_eq (hl : Linked next h l) : h = l.head? := by
  cases l with
  | nil => exact hl
  | cons b l => exact hl.1

/-- Inside a chain, every suffix is the chain at its own first node. -/
theorem Linked.tail (hl : Linked next h (l ++ r)) : Linked next r.head? r := by
  obtain ⟨h', hr⟩ := hl.suffix
  rw [← hr.head_eq]
  exact hr

/-- The first `fuel` nodes of the chain at `h`. -/
def walk (next : P → Option P) : Nat → Option P → List P
  | 0, _ => []
  | _ + 1, none => []
  | fuel + 1, some a => a :: walk next fuel (next a)

theorem Linked.walk {fuel : Nat} (hl : Linked next h l) (hf : l.length ≤ fuel) :
    walk next fuel h = l := by
  induction l generalizing h fuel with
  | nil =>
    rw [linked_nil] at hl
    subst hl
    cases fuel <;> rfl
  | cons b l ih =>
    obtain ⟨rfl, hl⟩ := hl
    cases fuel with
    | zero => exact absurd hf (Nat.not_succ_le_zero _)
    | succ fuel => rw [Chain.walk, ih hl (Nat.le_of_succ_le_succ hf)]

end Basic

/-! ## The pointer algorithms -/

variable [DecidableEq P]

/-- The assignment `prev->next = v`, where `none` stands for the head cell of the
list: the pair of the links and the head afterwards. -/
def relink (next : P → Option P) (h : Option P) (prev v : Option P) :
    (P → Option P) × Option P :=
  match prev with
  | none => (next, v)
  | some p => (Function.update next p v, h)

/-- Walk from `l` to `link` with a trailing pointer and link it out. -/
def removeLoop (next : P → Option P) (h : Option P) (link : P) :
    Nat → Option P → Option P → Option ((P → Option P) × Option P)
  | 0, _, _ => none
  | _ + 1, _, none => some (next, h)
  | fuel + 1, prev, some l =>
    if l = link then some (relink next h prev (next l))
    else removeLoop next h link fuel (some l) (next l)

/-- Remove a node from a chain: the links and the head afterwards. -/
def listRemove (fuel : Nat) (next : P → Option P) (h : Option P) (link : P) :
    Option ((P → Option P) × Option P) :=
  removeLoop next h link fuel none h

/-- Walk from `l` while the new node compares greater: the trailing pointer and
the place where the walk stops. -/
def seek (next : P → Option P) (greater : P → Bool) :
    Nat → Option P → Option P → Option (Option P × Option P)
  | 0, _, _ => none
  | _ + 1, prev, none => some (prev, none)
  | fuel + 1, prev, some l =>
    if greater l then seek next greater fuel (some l) (next l) else some (prev, some l)

/-- Insert a node into a sorted chain: the links and the head afterwards. -/
def insertSorted (fuel : Nat) (next : P → Option P) (h : Option P) (item : P)
    (compare : P → P → Int) : Option ((P → Option P) × Option P) := do
  let (prev, l) ← seek next (fun b => decide (0 < compare item b)) fuel none h
  let (next, h) := relink next h prev (some item)
  some (Function.update next item l, h)

/-- The list `insertSorted` makes of a list: the item goes before the first node
it does not compare greater than. -/
def place (compare : P → P → Int) (item : P) (l : List P) : List P :=
  l.takeWhile (fun b => decide (0 < compare item b)) ++
    item :: l.dropWhile (fun b => decide (0 < compare item b))

/-- Link every node that `p` holds of out of a chain, at the node `l` behind `prev`: the links,
the head and the last node that stays. -/
def removeIf (p : P → Bool) : Nat → (P → Option P) → Option P → Option P → Option P →
    Option ((P → Option P) × Option P × Option P)
  | 0, _, _, _, _ => none
  | _ + 1, next, h, prev, none => some (next, h, prev)
  | fuel + 1, next, h, prev, some l =>
    if p l then
      let r := relink next h prev (next l)
      removeIf p fuel r.1 r.2 prev (next l)
    else removeIf p fuel next h (some l) (next l)

section Relink
variable {next : P → Option P} {h v : Option P} {a : P} {l r s : List P}

omit [DecidableEq P] in
theorem getLast?_append_cons (l : List P) (a : P) : (l ++ [a]).getLast? = some a := by simp

/-- Redirecting the last node of `l` (or the head cell, when `l` is empty) makes
`l` be followed by whatever chain the new link leads to. -/
theorem Linked.relink (hl : Linked next h (l ++ r)) (hnd : l.Nodup)
    (hv : Linked next v s) (hs : ∀ b ∈ l, b ∉ s) :
    Linked (Chain.relink next h l.getLast? v).1 (Chain.relink next h l.getLast? v).2 (l ++ s) := by
  rcases l.eq_nil_or_concat with rfl | ⟨k, p, rfl⟩
  · exact hv
  · rw [List.concat_eq_append] at *
    rw [getLast?_append_cons]
    have hps : p ∉ s := hs p (by simp)
    have hpk : p ∉ k := fun hk => by
      rw [List.nodup_append] at hnd
      exact hnd.2.2 p hk p (by simp) rfl
    have hv' : Linked (Function.update next p v) v s :=
      hv.congr fun b hb => Function.update_of_ne (fun he : b = p => hps (he ▸ hb)) _ _
    clear hnd hv hs
    simp only [Chain.relink]
    induction k generalizing h with
    | nil =>
      refine ⟨hl.1, ?_⟩
      rw [Function.update_self]
      exact hv'
    | cons b k ih =>
      have hbp : b ≠ p := fun he => hpk (he ▸ List.mem_cons_self)
      refine ⟨hl.1, ?_⟩
      rw [Function.update_of_ne hbp]
      exact ih hl.2 (fun hk => hpk (List.mem_cons_of_mem _ hk))

/-- Redirecting the last node of `l` leaves every link outside `l` alone. -/
theorem relink_next_of_not_mem (ha : a ∉ l) :
    (Chain.relink next h l.getLast? v).1 a = next a := by
  rcases l.eq_nil_or_concat with rfl | ⟨k, p, rfl⟩
  · rfl
  · rw [List.concat_eq_append, getLast?_append_cons] at *
    exact Function.update_of_ne (fun he : a = p => ha (by rw [he]; simp)) _ _

/-- Linking the node after `l` out of a chain. -/
theorem Linked.unlink (hl : Linked next h (l ++ a :: r)) (hnd : (l ++ a :: r).Nodup) :
    Linked (Chain.relink next h l.getLast? (next a)).1
      (Chain.relink next h l.getLast? (next a)).2 (l ++ r) := by
  obtain ⟨hl', hr', hd⟩ := List.nodup_append.mp hnd
  refine hl.relink hl' hl.rest fun b hb hbr => ?_
  exact hd b hb b (List.mem_cons_of_mem _ hbr) rfl

end Relink

/-! ## Specifications -/

section Remove
variable {next next' : P → Option P} {h h' : Option P} {link : P} {k l : List P}

private theorem removeLoop_spec {fuel : Nat} {e : Option P} (hnd : (k ++ l).Nodup)
    (hk : link ∉ k) (hl : Linked next h (k ++ l)) (he : Linked next e l)
    (hres : removeLoop next h link fuel k.getLast? e = some (next', h')) :
    Linked next' h' (k ++ l.erase link) ∧ ∀ b, b ∉ k ++ l → next' b = next b := by
  induction l generalizing fuel k e with
  | nil =>
    rw [linked_nil] at he
    subst he
    cases fuel with
    | zero => cases hres
    | succ fuel =>
      obtain ⟨rfl, rfl⟩ := Prod.mk.inj (Option.some.inj hres)
      exact ⟨hl, fun _ _ => rfl⟩
  | cons a l ih =>
    obtain ⟨rfl, he⟩ := he
    cases fuel with
    | zero => cases hres
    | succ fuel =>
      rw [removeLoop] at hres
      split at hres
      · rename_i hal
        subst hal
        obtain ⟨rfl, rfl⟩ := Prod.mk.inj (Option.some.inj hres)
        rw [List.erase_cons_head]
        refine ⟨hl.unlink hnd, fun b hb => relink_next_of_not_mem fun hbk => hb ?_⟩
        exact List.mem_append_left _ hbk
      · rename_i hal
        rw [List.erase_cons_tail (by simpa using hal)]
        have hassoc : k ++ a :: l = (k ++ [a]) ++ l := by simp
        have hlink : link ∉ k ++ [a] := by
          simpa [List.mem_append, hk] using fun he : link = a => hal he.symm
        rw [hassoc] at hl hnd
        rw [← getLast?_append_cons k a] at hres
        have := ih hnd hlink hl he hres
        rw [List.append_assoc, List.singleton_append] at this
        rw [hassoc]
        exact this

/-- **`listRemove` removes the node from the represented list**, and touches no
link outside it. -/
theorem listRemove_spec {fuel : Nat} (hl : Linked next h l) (hnd : l.Nodup)
    (hres : listRemove fuel next h link = some (next', h')) :
    Linked next' h' (l.erase link) ∧ ∀ b, b ∉ l → next' b = next b :=
  removeLoop_spec (k := []) hnd List.not_mem_nil hl hl hres

private theorem removeLoop_links {fuel : Nat} {e prev : Option P}
    (hprev : ∀ p, prev = some p → next p = e)
    (hres : removeLoop next h link fuel prev e = some (next', h')) :
    next' = next ∨ ∃ p, next p = some link ∧ next' = Function.update next p (next link) := by
  induction fuel generalizing prev e with
  | zero => cases hres
  | succ fuel ih =>
    cases e with
    | none =>
      obtain ⟨rfl, -⟩ := Prod.mk.inj (Option.some.inj hres)
      exact Or.inl rfl
    | some a =>
      rw [removeLoop] at hres
      split at hres
      · rename_i hal
        subst hal
        have hrelink := (Prod.mk.inj (Option.some.inj hres)).1
        cases prev with
        | none => exact Or.inl hrelink.symm
        | some p => exact Or.inr ⟨p, hprev p rfl, hrelink.symm⟩
      · exact ih (fun p hp => by rw [← Option.some.inj hp]) hres

/-- `listRemove` changes one link at most, whatever the links are: that to the removed node. -/
theorem listRemove_links {fuel : Nat} (hres : listRemove fuel next h link = some (next', h')) :
    next' = next ∨ ∃ p, next p = some link ∧ next' = Function.update next p (next link) :=
  removeLoop_links (fun _ hp => absurd hp (Option.some_ne_none _).symm) hres

/-- A chain loses one node at most when a node is removed from any chain. -/
theorem Linked.skip {h' : Option P} {p : P} (hl : Linked next h' l) (hnd : l.Nodup)
    (hp : next p = some link) :
    ∃ l', l'.Sublist l ∧ Linked (Function.update next p (next link)) h' l' := by
  by_cases hmem : p ∈ l
  · obtain ⟨u, r, rfl⟩ := List.append_of_mem hmem
    have hrest := hl.rest
    rw [hp] at hrest
    cases r with
    | nil => exact nomatch hrest
    | cons a r =>
      obtain rfl := Option.some.inj hrest.1
      have hsplit : u ++ p :: link :: r = (u ++ [p]) ++ link :: r := by simp
      rw [hsplit] at hl hnd ⊢
      have hskip := hl.unlink hnd
      rw [getLast?_append_cons] at hskip
      exact ⟨(u ++ [p]) ++ r, (List.sublist_cons_self link r).append_left _, hskip⟩
  · refine ⟨l, List.Sublist.refl l, hl.congr fun b hb => ?_⟩
    have hne : b ≠ p := fun hbp => hmem (hbp ▸ hb)
    exact Function.update_of_ne hne _ _

private theorem removeLoop_total {fuel : Nat} {e prev : Option P} (he : Linked next e l)
    (hf : l.length < fuel) : (removeLoop next h link fuel prev e).isSome := by
  induction l generalizing fuel e prev with
  | nil =>
    rw [linked_nil] at he
    subst he
    cases fuel with
    | zero => exact absurd hf (Nat.not_lt_zero _)
    | succ fuel => rfl
  | cons a l ih =>
    obtain ⟨rfl, he⟩ := he
    cases fuel with
    | zero => exact absurd hf (Nat.not_lt_zero _)
    | succ fuel =>
      rw [removeLoop]
      split
      · rfl
      · exact ih he (Nat.lt_of_succ_lt_succ hf)

/-- On a chain that ends, `listRemove` returns. -/
theorem listRemove_total {fuel : Nat} (hl : Linked next h l) (hf : l.length < fuel) :
    (listRemove fuel next h link).isSome :=
  removeLoop_total hl hf

end Remove

section RemoveIf
variable {next next' : P → Option P} {h h' last : Option P} {p : P → Bool} {k l : List P}

private theorem removeIf_loop {fuel : Nat} {e : Option P} (hnd : (k ++ l).Nodup)
    (hl : Linked next h (k ++ l)) (he : Linked next e l)
    (hres : removeIf p fuel next h k.getLast? e = some (next', h', last)) :
    Linked next' h' (k ++ l.filter fun b => !p b) ∧
      last = (k ++ l.filter fun b => !p b).getLast? ∧ ∀ b, b ∉ k ++ l → next' b = next b := by
  induction l generalizing fuel k e next h with
  | nil =>
    rw [linked_nil] at he
    subst he
    cases fuel with
    | zero => cases hres
    | succ fuel =>
      simp only [removeIf, Option.some.injEq, Prod.mk.injEq] at hres
      obtain ⟨rfl, rfl, rfl⟩ := hres
      exact ⟨hl, by simp, fun _ _ => rfl⟩
  | cons a l ih =>
    obtain ⟨rfl, he⟩ := he
    cases fuel with
    | zero => cases hres
    | succ fuel =>
      rw [removeIf] at hres
      split at hres
      · rename_i hp
        obtain ⟨hk, hal, hd⟩ := List.nodup_append.mp hnd
        obtain ⟨ha, hlnd⟩ := List.nodup_cons.mp hal
        have hakl : ∀ b ∈ l, b ∉ k := fun b hb hbk => hd b hbk b (List.mem_cons_of_mem _ hb) rfl
        have hnd' : (k ++ l).Nodup :=
          List.nodup_append.mpr ⟨hk, hlnd, fun b hb c hc hbc => hakl c hc (hbc ▸ hb)⟩
        have he' : Linked (Chain.relink next h k.getLast? (next a)).1 (next a) l :=
          he.congr fun b hb => relink_next_of_not_mem (hakl b hb)
        obtain ⟨hlinked, hlast, hframe⟩ := ih hnd' (hl.unlink hnd) he' hres
        rw [List.filter_cons_of_neg (by simpa using hp)]
        refine ⟨hlinked, hlast, fun b hb => ?_⟩
        have hbk : b ∉ k := fun hbk => hb (List.mem_append_left _ hbk)
        have hbl : b ∉ k ++ l := fun hbl => hb <| by
          rcases List.mem_append.mp hbl with hbl | hbl
          · exact List.mem_append_left _ hbl
          · exact List.mem_append_right _ (List.mem_cons_of_mem _ hbl)
        rw [hframe b hbl, relink_next_of_not_mem hbk]
      · rename_i hp
        have hassoc : k ++ a :: l = (k ++ [a]) ++ l := by simp
        rw [hassoc] at hl hnd
        rw [← getLast?_append_cons k a] at hres
        have hih := ih hnd hl he hres
        rw [List.filter_cons_of_pos (by simpa using hp), hassoc]
        rw [List.append_assoc, List.singleton_append] at hih
        exact hih

/-- **`removeIf` filters the represented list**, returns its last node, and touches no link
outside it. -/
theorem removeIf_spec {fuel : Nat} (hl : Linked next h l) (hnd : l.Nodup)
    (hres : removeIf p fuel next h none h = some (next', h', last)) :
    Linked next' h' (l.filter fun b => !p b) ∧ last = (l.filter fun b => !p b).getLast? ∧
      ∀ b, b ∉ l → next' b = next b :=
  removeIf_loop (k := []) hnd hl hl hres

private theorem removeIf_isSome {fuel : Nat} {e prev : Option P} (he : Linked next e l)
    (hnd : l.Nodup) (hprev : ∀ b ∈ l, prev ≠ some b) (hf : l.length < fuel) :
    (removeIf p fuel next h prev e).isSome := by
  induction l generalizing fuel e prev next h with
  | nil =>
    rw [linked_nil] at he
    subst he
    cases fuel with
    | zero => exact absurd hf (Nat.not_lt_zero _)
    | succ fuel => rfl
  | cons a l ih =>
    obtain ⟨rfl, he⟩ := he
    obtain ⟨ha, hlnd⟩ := List.nodup_cons.mp hnd
    cases fuel with
    | zero => exact absurd hf (Nat.not_lt_zero _)
    | succ fuel =>
      have hf := Nat.lt_of_succ_lt_succ hf
      rw [removeIf]
      split
      · refine ih (he.congr fun b hb => ?_) hlnd
          (fun b hb => hprev b (List.mem_cons_of_mem _ hb)) hf
        cases prev with
        | none => rfl
        | some q =>
          refine Function.update_of_ne (fun hbq => ?_) _ _
          exact hprev b (List.mem_cons_of_mem _ hb) (congrArg some hbq.symm)
      · exact ih he hlnd (fun b hb hab => ha (Option.some.inj hab ▸ hb)) hf

/-- On a chain that ends, `removeIf` returns. -/
theorem removeIf_total {fuel : Nat} (hl : Linked next h l) (hnd : l.Nodup)
    (hf : l.length < fuel) : (removeIf p fuel next h none h).isSome :=
  removeIf_isSome hl hnd (by simp) hf

end RemoveIf

section Insert
variable {next next' : P → Option P} {h h' : Option P} {item : P} {k l : List P}
  {compare : P → P → Int}

omit [DecidableEq P] in
/-- Where `seek` stops. -/
theorem seek_spec {greater : P → Bool} {fuel : Nat} {e prev stop : Option P}
    (he : Linked next e l) (hres : seek next greater fuel k.getLast? e = some (prev, stop)) :
    prev = (k ++ l.takeWhile greater).getLast? ∧ Linked next stop (l.dropWhile greater) := by
  induction l generalizing fuel k e with
  | nil =>
    rw [linked_nil] at he
    subst he
    cases fuel with
    | zero => cases hres
    | succ fuel =>
      obtain ⟨rfl, rfl⟩ := Prod.mk.inj (Option.some.inj hres)
      simp
  | cons a l ih =>
    obtain ⟨rfl, he⟩ := he
    cases fuel with
    | zero => cases hres
    | succ fuel =>
      rw [seek] at hres
      split at hres
      · rename_i hg
        rw [← getLast?_append_cons k a] at hres
        have := ih he hres
        rw [List.takeWhile_cons_of_pos hg, List.dropWhile_cons_of_pos hg]
        simpa using this
      · rename_i hg
        obtain ⟨rfl, rfl⟩ := Prod.mk.inj (Option.some.inj hres)
        rw [List.takeWhile_cons_of_neg hg, List.dropWhile_cons_of_neg hg]
        exact ⟨by simp, rfl, he⟩

/-- **`insertSorted` places a new node in the represented list**, and touches no
link outside it. -/
theorem insertSorted_spec {fuel : Nat} (hl : Linked next h l) (hnd : l.Nodup)
    (hitem : item ∉ l)
    (hres : insertSorted fuel next h item compare = some (next', h')) :
    Linked next' h' (place compare item l) ∧ ∀ b, b ∉ item :: l → next' b = next b := by
  rw [insertSorted] at hres
  simp only [Option.bind_eq_bind, Option.bind_eq_some_iff, Option.some.injEq,
    Prod.mk.injEq] at hres
  obtain ⟨⟨prev, stop⟩, hseek, rfl, rfl⟩ := hres
  have hspec := seek_spec (k := []) hl hseek
  rw [List.nil_append] at hspec
  obtain ⟨rfl, hstop⟩ := hspec
  set greater : P → Bool := fun b => decide (0 < compare item b)
  have hsplit : l.takeWhile greater ++ l.dropWhile greater = l := List.takeWhile_append_dropWhile
  have hmem : ∀ b, b ∈ l.takeWhile greater → b ∈ l := fun b hb => by
    rw [← hsplit]; exact List.mem_append_left _ hb
  have hmem' : ∀ b, b ∈ l.dropWhile greater → b ∈ l := fun b hb => by
    rw [← hsplit]; exact List.mem_append_right _ hb
  rw [← hsplit] at hl hnd
  obtain ⟨hnd1, _, hdis⟩ := List.nodup_append.mp hnd
  -- link the item in front of the rest first: that does not disturb the chain
  have hitem' : Linked (Function.update next item stop) (some item)
      (item :: l.dropWhile greater) := by
    refine ⟨rfl, ?_⟩
    rw [Function.update_self]
    exact hstop.congr fun b hb =>
      Function.update_of_ne (fun he : b = item => hitem (he ▸ hmem' b hb)) _ _
  have hl' : Linked (Function.update next item stop) h
      (l.takeWhile greater ++ l.dropWhile greater) :=
    hl.congr fun b hb => by
      rw [hsplit] at hb
      exact Function.update_of_ne (fun he : b = item => hitem (he ▸ hb)) _ _
  have hfin := hl'.relink hnd1 hitem' fun b hb hb' => by
    rcases List.mem_cons.mp hb' with rfl | hb'
    · exact hitem (hmem _ hb)
    · exact hdis b hb b hb' rfl
  have hcomm : (Chain.relink (Function.update next item stop) h
      (l.takeWhile greater).getLast? (some item)) =
      (Function.update (Chain.relink next h (l.takeWhile greater).getLast? (some item)).1
        item stop, (Chain.relink next h (l.takeWhile greater).getLast? (some item)).2) := by
    rcases hlast : (l.takeWhile greater).getLast? with _ | p
    · rfl
    · have hp : p ≠ item := fun he =>
        hitem (he ▸ hmem p (List.mem_of_getLast? hlast))
      simp only [Chain.relink]
      rw [Function.update_comm hp]
  rw [hcomm] at hfin
  refine ⟨hfin, fun b hb => ?_⟩
  rw [List.mem_cons, not_or] at hb
  rw [Function.update_of_ne hb.1]
  exact relink_next_of_not_mem fun hbl => hb.2 (hmem b hbl)

omit [DecidableEq P] in
/-- On a chain that ends, `seek` returns. -/
theorem seek_total {g : P → Bool} {fuel : Nat} {e p : Option P}
    (he : Linked next e l) (hf : l.length < fuel) :
    (seek next g fuel p e).isSome := by
  induction l generalizing fuel e p with
  | nil =>
    rw [linked_nil] at he
    subst he
    cases fuel with
    | zero => exact absurd hf (Nat.not_lt_zero _)
    | succ fuel => rfl
  | cons a l ih =>
    obtain ⟨rfl, he⟩ := he
    cases fuel with
    | zero => exact absurd hf (Nat.not_lt_zero _)
    | succ fuel =>
      rw [seek]
      split
      · exact ih he (Nat.lt_of_succ_lt_succ hf)
      · rfl

omit [DecidableEq P] in
/-- Where `seek` stops does not depend on the fuel. -/
theorem seek_unique {g : P → Bool} {fuel fuel' : Nat} {e p : Option P} {r r' : Option P × Option P}
    (h : seek next g fuel p e = some r) (h' : seek next g fuel' p e = some r') : r = r' := by
  induction fuel generalizing fuel' p e with
  | zero => cases h
  | succ fuel ih =>
    cases fuel' with
    | zero => cases h'
    | succ fuel' =>
      cases e with
      | none => exact Option.some.inj (h.symm.trans h')
      | some l =>
        rw [seek] at h h'
        by_cases hg : g l = true
        · rw [if_pos hg] at h h'
          exact ih h h'
        · rw [if_neg hg] at h h'
          exact Option.some.inj (h.symm.trans h')

/-- On a chain that ends, `insertSorted` returns. -/
theorem insertSorted_total {fuel : Nat} (hl : Linked next h l) (hf : l.length < fuel) :
    (insertSorted fuel next h item compare).isSome := by
  obtain ⟨r, hr⟩ := Option.isSome_iff_exists.mp
    (seek_total (g := fun b => decide (0 < compare item b)) (p := none) hl hf)
  simp [insertSorted, hr]

omit [DecidableEq P] in
@[simp] theorem mem_place {b : P} : b ∈ place compare item l ↔ b = item ∨ b ∈ l := by
  rw [place, List.mem_append, List.mem_cons]
  constructor
  · rintro (hb | hb | hb)
    · exact Or.inr (List.takeWhile_prefix _ |>.subset hb)
    · exact Or.inl hb
    · exact Or.inr (List.dropWhile_suffix _ |>.subset hb)
  · rintro (hb | hb)
    · exact Or.inr (Or.inl hb)
    · rw [← List.takeWhile_append_dropWhile (p := fun b => decide (0 < compare item b)) (l := l),
        List.mem_append] at hb
      exact hb.elim Or.inl (fun h => Or.inr (Or.inr h))

omit [DecidableEq P] in
theorem place_perm (compare : P → P → Int) (item : P) (l : List P) :
    (place compare item l).Perm (item :: l) := by
  rw [place]
  refine List.perm_middle.trans ?_
  rw [List.takeWhile_append_dropWhile]

omit [DecidableEq P] in
theorem place_nodup (hnd : l.Nodup) (hitem : item ∉ l) : (place compare item l).Nodup :=
  (place_perm compare item l).nodup_iff.mpr (List.nodup_cons.mpr ⟨hitem, hnd⟩)

omit [DecidableEq P] in
/-- Placing by a comparison whose sign is the order of a key keeps a list sorted
by that key. -/
theorem place_pairwise {K : Type*} [LinearOrder K] (key : P → K)
    (hcmp : ∀ b ∈ l, 0 < compare item b ↔ key b < key item)
    (hl : l.Pairwise (fun a b => key a ≤ key b)) :
    (place compare item l).Pairwise (fun a b => key a ≤ key b) := by
  induction l with
  | nil => simp [place]
  | cons a l ih =>
    obtain ⟨ha, hl'⟩ := List.pairwise_cons.mp hl
    have ih := ih (fun b hb => hcmp b (List.mem_cons_of_mem _ hb)) hl'
    by_cases hg : 0 < compare item a
    · have hcons : place compare item (a :: l) = a :: place compare item l := by
        simp [place, hg]
      rw [hcons, List.pairwise_cons]
      refine ⟨fun b hb => ?_, ih⟩
      rcases mem_place.mp hb with rfl | hb
      · exact le_of_lt ((hcmp a List.mem_cons_self).mp hg)
      · exact ha b hb
    · have hcons : place compare item (a :: l) = item :: a :: l := by
        simp [place, hg]
      have hia : key item ≤ key a :=
        le_of_not_gt fun hlt => hg ((hcmp a List.mem_cons_self).mpr hlt)
      rw [hcons, List.pairwise_cons]
      refine ⟨fun b hb => ?_, hl⟩
      rcases List.mem_cons.mp hb with rfl | hb
      · exact hia
      · exact le_trans hia (ha b hb)

end Insert

end Chain
