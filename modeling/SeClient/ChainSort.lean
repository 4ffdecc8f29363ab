import SeClient.Chain

/-!
# Sorting chains

Quicksort on singly linked nodes: the nodes behind the first are put in front of two other chains
by how they compare with it, both are sorted, and the links joined.  No node is copied, and no node
outside the chain is touched.

* `listLength`, `listCat`, `partition`, `quickSort`: the pointer algorithms, with fuel for loops.
* `quickSort_spec`: a chain of the same nodes, in order.
-/

namespace Chain

variable {P : Type*}

/-- Follow the links from `h` to the end and count. -/
def listLength (next : P → Option P) : ℕ → Option P → Option ℕ
  | _, none => some 0
  | 0, some _ => none
  | fuel + 1, some a => (listLength next fuel (next a)).map (· + 1)

/-- The last node of the chain at `a`. -/
def lastNode (next : P → Option P) : ℕ → P → Option P
  | 0, _ => none
  | fuel + 1, a => (next a).elim (some a) (lastNode next fuel)

variable [DecidableEq P]

/-- Join two chains: the last node of the first leads to the second. -/
def listCat (fuel : ℕ) (next : P → Option P) (la lb : Option P) :
    Option ((P → Option P) × Option P) :=
  la.elim (some (next, lb)) fun a =>
    (lastNode next fuel a).map fun p => (Function.update next p lb, some a)

/-- Put the nodes from `y` on in front of `a` or `b`: the links and both heads afterwards. -/
def partition (compare : P → P → ℤ) (x : P) : ℕ → (P → Option P) → Option P → Option P → Option P →
    Option ((P → Option P) × Option P × Option P)
  | _, next, none, a, b => some (next, a, b)
  | 0, _, some _, _, _ => none
  | fuel + 1, next, some y, a, b =>
    if compare x y < 0 then partition compare x fuel (Function.update next y b) (next y) a (some y)
    else partition compare x fuel (Function.update next y a) (next y) (some y) b

/-- Sort a chain: the links and the head afterwards. -/
def quickSort (compare : P → P → ℤ) : ℕ → (P → Option P) → Option P →
    Option ((P → Option P) × Option P)
  | 0, _, _ => none
  | fuel + 1, next, list => (listLength next (fuel + 1) list).bind fun n =>
    if n ≤ 1 then some (next, list)
    else list.bind fun x =>
      (partition compare x fuel next (next x) none none).bind fun r =>
      (quickSort compare fuel r.1 r.2.1).bind fun s =>
      (quickSort compare fuel s.1 r.2.2).bind fun u =>
      listCat fuel (Function.update u.1 x u.2) s.2 (some x)

/-! ## Length and joining -/

section
variable {next : P → Option P} {h h' : Option P} {l r : List P} {fuel : ℕ}

omit [DecidableEq P] in
theorem Linked.listLength (hl : Linked next h l) (hf : l.length ≤ fuel) :
    listLength next fuel h = some l.length := by
  induction l generalizing h fuel with
  | nil =>
    rw [linked_nil] at hl
    subst hl
    unfold Chain.listLength
    rfl
  | cons a l ih =>
    obtain ⟨rfl, hl⟩ := hl
    cases fuel with
    | zero => exact absurd hf (Nat.not_succ_le_zero _)
    | succ fuel =>
      unfold Chain.listLength
      rw [ih hl (Nat.le_of_succ_le_succ hf)]
      rfl

omit [DecidableEq P] in
/-- The last node of a chain that is not empty. -/
theorem Linked.lastNode_eq {a : P} (hl : Linked next (some a) l) (hf : l.length ≤ fuel) :
    Chain.lastNode next fuel a = l.getLast? := by
  induction l generalizing a fuel with
  | nil => exact absurd hl (Option.some_ne_none a)
  | cons b l ih =>
    obtain ⟨hab, hl⟩ := hl
    obtain rfl := Option.some.inj hab
    cases fuel with
    | zero => exact absurd hf (Nat.not_succ_le_zero _)
    | succ fuel =>
      unfold Chain.lastNode
      cases l with
      | nil =>
        rw [linked_nil] at hl
        rw [hl]
        rfl
      | cons c l =>
        rw [hl.1, List.getLast?_cons_cons]
        exact ih ⟨rfl, hl.2⟩ (Nat.le_of_succ_le_succ hf)

/-- Joining two chains that have no node in common. -/
theorem listCat_spec (hl : Linked next h l) (hr : Linked next h' r) (hnd : (l ++ r).Nodup)
    (hf : l.length ≤ fuel) : ∃ next' h'', listCat fuel next h h' = some (next', h'') ∧
      Linked next' h'' (l ++ r) ∧ ∀ c, c ∉ l → next' c = next c := by
  obtain ⟨hl', hr', hd⟩ := List.nodup_append.mp hnd
  have hlinked :
      Linked (relink next h l.getLast? h').1 (relink next h l.getLast? h').2 (l ++ r) := by
    refine Linked.relink (r := []) ?_ hl' hr fun b hb hbr => hd b hb b hbr rfl
    rwa [List.append_nil]
  refine ⟨_, _, ?_, hlinked, fun c hc => relink_next_of_not_mem hc⟩
  cases h with
  | none =>
    obtain rfl : l = [] := hl.unique rfl
    rfl
  | some a =>
    have hlast := hl.lastNode_eq hf
    unfold listCat
    rw [Option.elim_some, hlast]
    cases hp : l.getLast? with
    | none =>
      obtain rfl := List.getLast?_eq_none_iff.mp hp
      exact absurd hl (Option.some_ne_none a)
    | some p => rfl

end

/-! ## Partition -/

section
variable {compare : P → P → ℤ} {x : P} {next : P → Option P} {h a b : Option P} {l la lb : List P}
  {fuel : ℕ}

/-- Moving a node in front of a chain. -/
theorem Linked.push {y : P} (ha : Linked next a la) (hy : y ∉ la) :
    Linked (Function.update next y a) (some y) (y :: la) := by
  refine ⟨rfl, ?_⟩
  rw [Function.update_self]
  exact ha.congr fun c hc => Function.update_of_ne (fun he : c = y => hy (he ▸ hc)) _ _

/-- Moving a node leaves the chains alone that it is not in. -/
theorem Linked.frame {y : P} {v : Option P} (ha : Linked next a la) (hy : y ∉ la) :
    Linked (Function.update next y v) a la :=
  ha.congr fun c hc => Function.update_of_ne (fun he : c = y => hy (he ▸ hc)) _ _

theorem partition_spec (hl : Linked next h l) (ha : Linked next a la) (hb : Linked next b lb)
    (hnd : (l ++ (la ++ lb)).Nodup) (hf : l.length ≤ fuel) : ∃ next' a' b' la' lb',
      partition compare x fuel next h a b = some (next', a', b') ∧
      Linked next' a' la' ∧ Linked next' b' lb' ∧ (la' ++ lb').Perm (l ++ (la ++ lb)) ∧
      (∀ c ∈ la', c ∈ la ∨ ¬compare x c < 0) ∧ (∀ c ∈ lb', c ∈ lb ∨ compare x c < 0) ∧
      ∀ c, c ∉ l → next' c = next c := by
  induction l generalizing next h a b la lb fuel with
  | nil =>
    rw [linked_nil] at hl
    subst hl
    refine ⟨next, a, b, la, lb, ?_, ha, hb, List.Perm.refl _, ?_, ?_, ?_⟩
    · unfold partition
      rfl
    · exact fun c hc => Or.inl hc
    · exact fun c hc => Or.inl hc
    · exact fun c _ => rfl
  | cons y l ih =>
    obtain ⟨rfl, hl⟩ := hl
    cases fuel with
    | zero => exact absurd hf (Nat.not_succ_le_zero _)
    | succ fuel =>
      have hf := Nat.le_of_succ_le_succ hf
      obtain ⟨hy, hnd⟩ : y ∉ l ++ (la ++ lb) ∧ (l ++ (la ++ lb)).Nodup := List.nodup_cons.mp hnd
      rw [List.mem_append, List.mem_append, not_or, not_or] at hy
      obtain ⟨hyl, hya, hyb⟩ := hy
      unfold partition
      by_cases hxy : compare x y < 0
      · rw [if_pos hxy]
        have hperm : (l ++ (la ++ y :: lb)).Perm (y :: l ++ (la ++ lb)) := by
          rw [← List.append_assoc, List.cons_append, ← List.append_assoc]
          exact List.perm_middle
        have hnd' : (l ++ (la ++ y :: lb)).Nodup := by
          refine hperm.nodup_iff.mpr (List.nodup_cons.mpr ⟨?_, hnd⟩)
          simp [hyl, hya, hyb]
        obtain ⟨next', a', b', la', lb', heq, ha', hb', hp, hla, hlb, hframe⟩ :=
          ih (hl.frame hyl) (ha.frame hya) (hb.push hyb) hnd' hf
        refine ⟨next', a', b', la', lb', heq, ha', hb', hp.trans hperm, hla, ?_, ?_⟩
        · intro c hc
          rcases hlb c hc with hc | hc
          · rcases List.mem_cons.mp hc with rfl | hc
            · exact Or.inr hxy
            · exact Or.inl hc
          · exact Or.inr hc
        · intro c hc
          obtain ⟨hcy, hcl⟩ := not_or.mp (mt List.mem_cons.mpr hc)
          rw [hframe c hcl, Function.update_of_ne hcy]
      · rw [if_neg hxy]
        have hperm : (l ++ (y :: la ++ lb)).Perm (y :: l ++ (la ++ lb)) := List.perm_middle
        have hnd' : (l ++ (y :: la ++ lb)).Nodup := by
          refine hperm.nodup_iff.mpr (List.nodup_cons.mpr ⟨?_, hnd⟩)
          simp [hyl, hya, hyb]
        obtain ⟨next', a', b', la', lb', heq, ha', hb', hp, hla, hlb, hframe⟩ :=
          ih (hl.frame hyl) (ha.push hya) (hb.frame hyb) hnd' hf
        refine ⟨next', a', b', la', lb', heq, ha', hb', hp.trans hperm, ?_, hlb, ?_⟩
        · intro c hc
          rcases hla c hc with hc | hc
          · rcases List.mem_cons.mp hc with rfl | hc
            · exact Or.inr hxy
            · exact Or.inl hc
          · exact Or.inr hc
        · intro c hc
          obtain ⟨hcy, hcl⟩ := not_or.mp (mt List.mem_cons.mpr hc)
          rw [hframe c hcl, Function.update_of_ne hcy]

end

/-! ## Quicksort -/

/-- A comparison of which the sign is a total preorder. -/
structure Preorders (compare : P → P → ℤ) : Prop where
  flip : ∀ a b, ¬compare a b < 0 → compare b a ≤ 0
  trans : ∀ a b c, compare a b ≤ 0 → compare b c ≤ 0 → compare a c ≤ 0

section
variable {compare : P → P → ℤ} {next : P → Option P} {h : Option P} {l : List P} {fuel : ℕ}

/-- **Quicksort** makes a sorted chain of the nodes of a chain. -/
theorem quickSort_spec (hcompare : Preorders compare) (hl : Linked next h l) (hnd : l.Nodup)
    (hf : l.length < fuel) : ∃ next' h' l', quickSort compare fuel next h = some (next', h') ∧
      Linked next' h' l' ∧ l'.Perm l ∧ (l'.Pairwise fun a b => compare a b ≤ 0) ∧
      ∀ c, c ∉ l → next' c = next c := by
  induction fuel generalizing next h l with
  | zero => exact absurd hf (Nat.not_lt_zero _)
  | succ fuel ih =>
    unfold quickSort
    rw [hl.listLength (Nat.le_of_lt hf), Option.bind_some]
    by_cases hshort : l.length ≤ 1
    · rw [if_pos hshort]
      refine ⟨next, h, l, rfl, hl, List.Perm.refl l, ?_, fun c _ => rfl⟩
      cases l with
      | nil => exact List.Pairwise.nil
      | cons x l =>
        obtain rfl := List.length_eq_zero_iff.mp (Nat.le_zero.mp (Nat.le_of_succ_le_succ hshort))
        exact List.pairwise_singleton _ x
    · rw [if_neg hshort]
      cases l with
      | nil => exact absurd (Nat.zero_le 1) hshort
      | cons x l =>
        obtain ⟨rfl, hl⟩ := hl
        obtain ⟨hx, hnd⟩ := List.nodup_cons.mp hnd
        have hf : l.length < fuel := Nat.lt_of_succ_lt_succ hf
        have hnd' : (l ++ ([] ++ [])).Nodup := by rwa [List.append_nil, List.append_nil]
        have hnil : Linked next none [] := rfl
        obtain ⟨next₁, a, b, la, lb, heq₁, ha, hb, hperm, hla, hlb, hframe₁⟩ :=
          @partition_spec P _ compare x _ _ _ _ _ _ _ _ hl hnil hnil hnd' (Nat.le_of_lt hf)
        rw [List.append_nil, List.append_nil] at hperm
        obtain ⟨hla', hlb', hd⟩ := List.nodup_append.mp (hperm.nodup_iff.mpr hnd)
        have hlength := hperm.length_eq
        rw [List.length_append] at hlength
        -- the smaller nodes, the others, and both with the pivot between them
        obtain ⟨next₂, a', la₂, heq₂, ha₂, hpa, hsa, hframe₂⟩ := ih ha hla' (by omega)
        have hb₂ : Linked next₂ b lb :=
          hb.congr fun c hc => hframe₂ c fun hca => hd c hca c hc rfl
        obtain ⟨next₃, b', lb₂, heq₃, hb₃, hpb, hsb, hframe₃⟩ := ih hb₂ hlb' (by omega)
        have ha₃ : Linked next₃ a' la₂ :=
          ha₂.congr fun c hc => hframe₃ c fun hcb => hd c (hpa.mem_iff.mp hc) c hcb rfl
        have hperm' : (la₂ ++ lb₂).Perm l := (hpa.append hpb).trans hperm
        have hxall : x ∉ la₂ ++ lb₂ := fun hmem => hx (hperm'.mem_iff.mp hmem)
        rw [List.mem_append, not_or] at hxall
        have hall : (la₂ ++ x :: lb₂).Perm (x :: l) := List.perm_middle.trans (hperm'.cons x)
        have hle : la₂.length ≤ fuel := by
          rw [hpa.length_eq]
          omega
        obtain ⟨next₄, h', heq₄, hl₄, hframe₄⟩ := listCat_spec (ha₃.frame hxall.1)
          (hb₃.push hxall.2) (hall.nodup_iff.mpr (List.nodup_cons.mpr ⟨hx, hnd⟩)) hle
        refine ⟨next₄, h', la₂ ++ x :: lb₂, ?_, hl₄, hall, ?_, fun c hc => ?_⟩
        · rw [Option.bind_some, heq₁, Option.bind_some, heq₂, Option.bind_some, heq₃,
            Option.bind_some, heq₄]
        · have hbelow : ∀ c ∈ la₂, compare c x ≤ 0 := by
            intro c hc
            refine hcompare.flip x c ?_
            exact (hla c (hpa.mem_iff.mp hc)).resolve_left List.not_mem_nil
          have habove : ∀ c ∈ lb₂, compare x c ≤ 0 := by
            intro c hc
            exact Int.le_of_lt ((hlb c (hpb.mem_iff.mp hc)).resolve_left List.not_mem_nil)
          refine List.pairwise_append.mpr ⟨hsa, List.pairwise_cons.mpr ⟨habove, hsb⟩, ?_⟩
          intro c hc d hdmem
          rcases List.mem_cons.mp hdmem with rfl | hdmem
          · exact hbelow c hc
          · exact hcompare.trans c x d (hbelow c hc) (habove d hdmem)
        · obtain ⟨hcx, hcl⟩ := not_or.mp (mt List.mem_cons.mpr hc)
          have hcall : c ∉ la ++ lb := fun hmem => hcl (hperm.mem_iff.mp hmem)
          rw [List.mem_append, not_or] at hcall
          have hca : c ∉ la₂ := fun hmem => hcall.1 (hpa.mem_iff.mp hmem)
          rw [hframe₄ c hca, Function.update_of_ne hcx, hframe₃ c hcall.2, hframe₂ c hcall.1,
            hframe₁ c hcl]

end
end Chain
