import SeClient.Schedule

/-!
# The board behind the links

The links of the block queues stand for a `Board`: for every Schedule and every
queue name, a list of blocks.  `Links.Represents` says that they do, which takes more
than three chains that end: the queues share one link per block, so no block may
be in two of them.

The link operations of `schedule.c` are the board operations one expects, as long as a
block that is put into a queue is in no queue before (`Board.Loose`).
-/

namespace SeClient

/-- The blocks of every queue, head first. -/
abbrev Board := ScheduleId → QueueName → List BlockId

namespace Board
variable (q : Board) {s s' : ScheduleId} {n n' : QueueName} {l : List BlockId} {b : BlockId}

/-- The board with one queue replaced. -/
def set (s : ScheduleId) (n : QueueName) (l : List BlockId) : Board :=
  Function.update q s (Function.update (q s) n l)

/-- The block is in no queue. -/
def Loose (b : BlockId) : Prop := ∀ s n, b ∉ q s n

theorem set_apply : q.set s n l s' n' = if s' = s ∧ n' = n then l else q s' n' := by
  unfold set
  by_cases hs : s' = s
  · subst hs
    rw [Function.update_self, Function.update_apply]
    by_cases hn : n' = n <;> simp [hn]
  · rw [Function.update_of_ne hs, if_neg (fun h => hs h.1)]

@[simp] theorem set_same : q.set s n l s n = l := by rw [set_apply, if_pos ⟨rfl, rfl⟩]

theorem set_of_ne (h : ¬(s' = s ∧ n' = n)) : q.set s n l s' n' = q s' n' := by
  rw [set_apply, if_neg h]

@[simp] theorem set_of_name_ne (h : n' ≠ n) : q.set s n l s' n' = q s' n' :=
  q.set_of_ne fun h' => h h'.2

theorem mem_set : b ∈ q.set s n l s' n' ↔
    (s' = s ∧ n' = n ∧ b ∈ l) ∨ (¬(s' = s ∧ n' = n) ∧ b ∈ q s' n') := by
  rw [set_apply]
  split
  · rename_i h; simp [h.1, h.2]
  · rename_i h; simp [h]; tauto

@[simp] theorem set_self : q.set s n (q s n) = q := by
  funext s' n'
  rw [set_apply]
  split
  · rename_i h; rw [h.1, h.2]
  · rfl

@[simp] theorem set_set (k : List BlockId) : (q.set s n l).set s n k = q.set s n k := by
  funext s' n'
  by_cases h : s' = s ∧ n' = n
  · rw [h.1, h.2, set_same, set_same]
  · rw [set_of_ne _ h, set_of_ne _ h, set_of_ne _ h]

/-- A block outside a board is outside the board with one queue shortened. -/
theorem Loose.set {q : Board} (h : q.Loose b) (hl : b ∉ l) : (q.set s n l).Loose b := by
  intro s' n'
  rw [mem_set]
  rintro (⟨_, _, hb⟩ | ⟨_, hb⟩)
  · exact hl hb
  · exact h s' n' hb

end Board

/-! ## What the links stand for -/

/-- The links stand for the board: every queue is a chain that ends, and every block is
in at most one queue, once. -/
structure Links.Represents (l : Links) (q : Board) : Prop where
  linked : ∀ s n, Chain.Linked l.next (l.head s n) (q s n)
  nodup : ∀ s n, (q s n).Nodup
  once : ∀ {b s n s' n'}, b ∈ q s n → b ∈ q s' n' → s = s' ∧ n = n'

namespace Links
variable {l l' : Links} {q r : Board} {s s' : ScheduleId} {n n' : QueueName} {b : BlockId}
  {k pre rest : List BlockId}

@[simp] theorem setHead_next {v : Option BlockId} : (l.setHead s n v).next = l.next := rfl

@[simp] theorem setHead_same {v : Option BlockId} : (l.setHead s n v).head s n = v := by
  simp [setHead]

theorem setHead_of_ne {v : Option BlockId} (h : ¬(s' = s ∧ n' = n)) :
    (l.setHead s n v).head s' n' = l.head s' n' := by
  unfold setHead
  by_cases hs : s' = s
  · subst hs
    simp only [Function.update_self]
    exact Function.update_of_ne (fun hn => h ⟨rfl, hn⟩) _ _
  · simp only [Function.update_of_ne hs]

@[simp] theorem setHead_of_name_ne {v : Option BlockId} (h : n' ≠ n) :
    (l.setHead s n v).head s' n' = l.head s' n' :=
  setHead_of_ne fun h' => h h'.2

theorem setHead_setHead {v v' : Option BlockId} :
    (l.setHead s n v).setHead s n v' = l.setHead s n v' := by
  simp [setHead]

theorem setHead_comm {v v' : Option BlockId} (h : n ≠ n') :
    (l.setHead s n v).setHead s n' v' = (l.setHead s n' v').setHead s n v := by
  simp only [setHead, Function.update_self, Function.update_idem]
  rw [Function.update_comm h]

/-- **The frame rule.**  One queue changes, and with it only links of blocks that
were in that queue or in none. -/
theorem Represents.update (h : l.Represents q)
    (hk : Chain.Linked l'.next (l'.head s n) k) (hnd : k.Nodup)
    (hmem : ∀ b ∈ k, b ∈ q s n ∨ q.Loose b)
    (hhead : ∀ s' n', ¬(s' = s ∧ n' = n) → l'.head s' n' = l.head s' n')
    (hnext : ∀ b s' n', ¬(s' = s ∧ n' = n) → b ∈ q s' n' → l'.next b = l.next b) :
    l'.Represents (q.set s n k) := by
  have hout : ∀ {b s' n'}, b ∈ k → ¬(s' = s ∧ n' = n) → b ∉ q s' n' := by
    intro b s' n' hb hne hb'
    rcases hmem b hb with hq | hq
    · exact hne (h.once hb' hq)
    · exact hq _ _ hb'
  constructor
  · intro s' n'
    by_cases he : s' = s ∧ n' = n
    · obtain ⟨rfl, rfl⟩ := he
      rw [Board.set_same]
      exact hk
    · rw [Board.set_of_ne _ he, hhead _ _ he]
      exact (h.linked s' n').congr fun b hb => hnext b s' n' he hb
  · intro s' n'
    rw [Board.set_apply]
    split
    · exact hnd
    · exact h.nodup s' n'
  · intro b s₁ n₁ s₂ n₂ h₁ h₂
    rcases (Board.mem_set _).mp h₁ with ⟨hs₁, hn₁, hb₁⟩ | ⟨hne₁, hb₁⟩ <;>
      rcases (Board.mem_set _).mp h₂ with ⟨hs₂, hn₂, hb₂⟩ | ⟨hne₂, hb₂⟩
    · exact ⟨hs₁.trans hs₂.symm, hn₁.trans hn₂.symm⟩
    · exact absurd hb₂ (hout hb₁ hne₂)
    · exact absurd hb₁ (hout hb₂ hne₁)
    · exact h.once hb₁ hb₂

/-- Moving a head forward drops what is before it. -/
theorem Represents.setHead {x y : List BlockId} {v : Option BlockId} (h : l.Represents q)
    (hq : q s n = x ++ y) (hv : Chain.Linked l.next v y) :
    (l.setHead s n v).Represents (q.set s n y) := by
  have hnd := h.nodup s n
  rw [hq] at hnd
  refine h.update ?_ hnd.of_append_right (fun b hb => Or.inl ?_)
    (fun s' n' hne => setHead_of_ne hne) (fun _ _ _ _ _ => rfl)
  · rw [setHead_same]; exact hv
  · rw [hq]; exact List.mem_append_right _ hb

/-- `link_insert` at the head of a queue. -/
theorem Represents.linkInsert (h : l.Represents q) (hb : q.Loose b) :
    (l.linkInsert s n b).Represents (q.set s n (b :: q s n)) := by
  have hne : ∀ {x s' n'}, x ∈ q s' n' → x ≠ b := fun hx he => hb _ _ (he ▸ hx)
  refine h.update ?_ (List.nodup_cons.mpr ⟨hb s n, h.nodup s n⟩) (fun x hx => ?_)
    (fun s' n' hn => setHead_of_ne hn) (fun x s' n' _ hx => Function.update_of_ne (hne hx) _ _)
  · refine ⟨setHead_same, ?_⟩
    have hlink : (l.linkInsert s n b).next b = l.head s n := Function.update_self ..
    rw [hlink]
    exact (h.linked s n).congr fun x hx => Function.update_of_ne (hne hx) _ _
  · rcases List.mem_cons.mp hx with rfl | hx
    · exact Or.inr hb
    · exact Or.inl hx

/-- `insert_sorted` into a queue. -/
theorem Represents.insertSorted {fuel : Nat} {compare : BlockId → BlockId → Int}
    (h : l.Represents q) (hb : q.Loose b)
    (hres : l.insertSorted fuel s n b compare = some l') :
    l'.Represents (q.set s n (Chain.place compare b (q s n))) := by
  obtain ⟨⟨next, hd⟩, hins, rfl⟩ := Option.map_eq_some_iff.mp hres
  obtain ⟨hlink, hframe⟩ :=
    Chain.insertSorted_spec (h.linked s n) (h.nodup s n) (hb s n) hins
  refine h.update ?_ (Chain.place_nodup (h.nodup s n) (hb s n)) (fun x hx => ?_)
    (fun s' n' hn => setHead_of_ne hn) (fun x s' n' hn hx => hframe x ?_)
  · rw [setHead_same]; exact hlink
  · rcases Chain.mem_place.mp hx with rfl | hx
    · exact Or.inr hb
    · exact Or.inl hx
  · rw [List.mem_cons, not_or]
    exact ⟨fun he => hb _ _ (he ▸ hx), fun hx' => hn (h.once hx hx')⟩

/-- `list_remove` from a queue. -/
theorem Represents.listRemove {fuel : Nat} (h : l.Represents q)
    (hres : l.listRemove fuel s n b = some l') :
    l'.Represents (q.set s n ((q s n).erase b)) := by
  obtain ⟨⟨next, hd⟩, hrem, rfl⟩ := Option.map_eq_some_iff.mp hres
  obtain ⟨hlink, hframe⟩ := Chain.listRemove_spec (h.linked s n) (h.nodup s n) hrem
  refine h.update ?_ ((h.nodup s n).erase _) (fun x hx => Or.inl (List.mem_of_mem_erase hx))
    (fun s' n' hn => setHead_of_ne hn) (fun x s' n' hn hx => hframe x fun hx' => ?_)
  · rw [setHead_same]; exact hlink
  · exact hn (h.once hx hx')

/-- Linking the block after `pre` out of its queue. -/
theorem Represents.relink (h : l.Represents q) (hq : q s n = pre ++ b :: rest) :
    (l.relink s n pre.getLast? (l.next b)).Represents (q.set s n (pre ++ rest)) := by
  have hlink := h.linked s n
  have hnd := h.nodup s n
  rw [hq] at hlink hnd
  have hun := hlink.unlink hnd
  refine h.update ?_ ?_ (fun x hx => Or.inl ?_) (fun s' n' hn => setHead_of_ne hn)
    (fun x s' n' hn hx => Chain.relink_next_of_not_mem fun hx' => ?_)
  · rw [Links.relink, setHead_same, setHead_next]; exact hun
  · exact hnd.sublist (List.Sublist.append_left (List.sublist_cons_self _ _) _)
  · rw [hq]
    rcases List.mem_append.mp hx with hx | hx
    · exact List.mem_append_left _ hx
    · exact List.mem_append_right _ (List.mem_cons_of_mem _ hx)
  · exact hn (h.once hx (by rw [hq]; exact List.mem_append_left _ hx'))

/-- Linking a block into one queue and then out of another, as the loop of
`insert_block` does it, is the same the other way round. -/
theorem linkInsert_relink {prev v : Option BlockId} (hp : prev ≠ some b) (hn : n ≠ n') :
    (l.linkInsert s n b).relink s n' prev v = (l.relink s n' prev v).linkInsert s n b := by
  have hn' := hn.symm
  rcases prev with _ | p
  · simp only [Links.linkInsert, Links.relink, Chain.relink, Links.setHead, Function.update_self,
      Function.update_of_ne hn, Function.update_idem, Links.mk.injEq, true_and]
    rw [Function.update_comm hn]
  · have hpb : p ≠ b := fun he => hp (by rw [he])
    simp only [Links.linkInsert, Links.relink, Chain.relink, Links.setHead, Function.update_self,
      Function.update_of_ne hn, Function.update_of_ne hn', Function.update_idem, Links.mk.injEq]
    rw [Function.update_comm hpb.symm, Function.update_comm hn]
    exact ⟨rfl, rfl⟩

/-- A block that `insert_block` supersedes moves from one queue to the head of another. -/
theorem Represents.demote (h : l.Represents q) (hq : q s .scheduled = pre ++ b :: rest) :
    ((l.linkInsert s .superseded b).relink s .scheduled pre.getLast? (l.next b)).Represents
      ((q.set s .scheduled (pre ++ rest)).set s .superseded (b :: q s .superseded)) ∧
    ∀ x ∈ rest,
      ((l.linkInsert s .superseded b).relink s .scheduled pre.getLast? (l.next b)).next x =
        l.next x := by
  have hnd := h.nodup s .scheduled
  rw [hq] at hnd
  have hb : b ∉ pre ∧ b ∉ rest := by
    have := List.nodup_middle.mp hnd
    rw [List.nodup_cons, List.mem_append, not_or] at this
    exact this.1
  have hprev : pre.getLast? ≠ some b := fun he => hb.1 (List.mem_of_getLast? he)
  have hloose : (q.set s .scheduled (pre ++ rest)).Loose b := by
    intro s' n'
    rw [Board.mem_set]
    rintro (⟨_, _, hm⟩ | ⟨hne, hm⟩)
    · exact (List.mem_append.mp hm).elim hb.1 hb.2
    · exact hne (h.once hm (by rw [hq]; simp))
  rw [linkInsert_relink hprev (by decide)]
  refine ⟨?_, fun x hx => ?_⟩
  · have := (h.relink hq).linkInsert (s := s) (n := .superseded) hloose
    rwa [Board.set_of_name_ne _ (by decide)] at this
  · have hxb : x ≠ b := fun he => hb.2 (he ▸ hx)
    have hxp : x ∉ pre := fun hp =>
      (List.nodup_append.mp hnd).2.2 x hp x (List.mem_cons_of_mem _ hx) rfl
    exact (Function.update_of_ne hxb _ _).trans (Chain.relink_next_of_not_mem hxp)

end Links

/-! ## Reading a queue -/

/-- The blocks of a queue in the order of the links, as far as there are blocks. -/
def World.queue (w : World) (s : ScheduleId) (n : QueueName) : List BlockId :=
  Chain.walk w.links.next w.core.freshBlock (w.links.head s n)

end SeClient
