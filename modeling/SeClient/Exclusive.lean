import SeClient.Runs
import Mathlib.Data.List.Pairwise

/-!
# Exclusive control modes

The EventBlocks of the `active` queue share out the control modes of a device: a block that
`insert_active` puts there takes its modes from the others, or leaves theirs to them.

**Exclusive modes** (`active_exclusive`): in every run of `insert_active`, `update_schedule` and
`remove_block` no two blocks of the queue have a mode in common, and a block that came with some
mode still has one.
-/

namespace SeClient
open Transition

/-! ## Masks -/

section Masks
variable {n : ℕ} {x y z : BitVec n}

theorem trim_and_self (x y : BitVec n) : (x &&& ~~~y) &&& y = 0 := by
  rw [BitVec.and_assoc, BitVec.and_comm (~~~y) y]
  simp

theorem trim_and (h : x &&& y = 0) (z : BitVec n) : (x &&& ~~~z) &&& y = 0 := by
  rw [BitVec.and_assoc, BitVec.and_comm (~~~z) y, ← BitVec.and_assoc, h]
  simp

theorem and_trim (h : x &&& y = 0) (z : BitVec n) : x &&& (y &&& ~~~z) = 0 := by
  rw [← BitVec.and_assoc, h]
  simp

theorem trim_zero (x : BitVec n) : x &&& ~~~0#n = x := by
  rw [BitVec.not_zero, BitVec.and_allOnes]

end Masks

/-! ## What leaves the modes alone -/

/-- The events of the blocks and their control bases are the same. -/
structure SameBases (c c' : Core) : Prop where
  event : ∀ b, (c'.block b).event = (c.block b).event
  type : ∀ e, c'.type e = c.type e
  base : ∀ e, c'.derBase e = c.derBase e
  freshBlock : c'.freshBlock = c.freshBlock

/-- The control modes of the blocks are the same, too. -/
structure SameModes (c c' : Core) : Prop extends SameBases c c' where
  der : ∀ b, (c'.block b).der = (c.block b).der

theorem SameBases.trans {c c' c'' : Core} (h : SameBases c c') (h' : SameBases c' c'') :
    SameBases c c'' where
  event b := (h'.event b).trans (h.event b)
  type e := (h'.type e).trans (h.type e)
  base e := (h'.base e).trans (h.base e)
  freshBlock := h'.freshBlock.trans h.freshBlock

theorem SameBases.modifyBlock {c : Core} {b : BlockId} {f : EventBlock → EventBlock}
    (hf : ∀ x, (f x).event = x.event) : SameBases c (c.modifyBlock b f) where
  event x := by
    rw [Core.modifyBlock_block]
    split
    · rename_i h
      rw [h, hf]
    · rfl
  type _ := rfl
  base _ := rfl
  freshBlock := rfl

namespace SameModes
variable {c c' c'' : Core}

theorem refl (c : Core) : SameModes c c :=
  ⟨⟨fun _ => rfl, fun _ => rfl, fun _ => rfl, rfl⟩, fun _ => rfl⟩

theorem trans (h : SameModes c c') (h' : SameModes c' c'') : SameModes c c'' :=
  ⟨h.toSameBases.trans h'.toSameBases, fun b => (h'.der b).trans (h.der b)⟩

/-- Blocks and resources are what they were. -/
theorem of_eq (hblock : c'.block = c.block) (hstub : c'.stub = c.stub)
    (hfresh : c'.freshBlock = c.freshBlock) : SameModes c c' where
  der b := by rw [hblock]
  event b := by rw [hblock]
  type e := by unfold Core.type; rw [hstub]
  base e := by unfold Core.derBase Core.data; rw [hstub]
  freshBlock := hfresh

theorem modifyBlock {b : BlockId} {f : EventBlock → EventBlock}
    (hf : ∀ x, (f x).der = x.der ∧ (f x).event = x.event) : SameModes c (c.modifyBlock b f) where
  toSameBases := .modifyBlock fun x => (hf x).2
  der x := by
    rw [Core.modifyBlock_block]
    split
    · rename_i h
      rw [h, (hf _).1]
    · rfl

theorem modifyStub {s : StubId} {f : Stub → Stub}
    (hf : (f (c.stub s)).type = (c.stub s).type ∧ (f (c.stub s)).data = (c.stub s).data) :
    SameModes c (c.modifyStub s f) where
  der _ := rfl
  event _ := rfl
  type e := by
    unfold Core.type
    by_cases he : e = s
    · rw [he, Core.modifyStub_same]
      exact hf.1
    · rw [Core.modifyStub_of_ne _ _ he]
  base e := by
    unfold Core.derBase Core.data
    by_cases he : e = s
    · rw [he, Core.modifyStub_same, hf.2]
    · rw [Core.modifyStub_of_ne _ _ he]
  freshBlock := rfl

variable (c) in
theorem insertEvent (d : EventData) (type : EventType) (time : Int) :
    SameModes c (c.insertEvent d type time) := by
  unfold Core.insertEvent
  dsimp only
  split <;> exact of_eq rfl rfl rfl

variable (c) in
theorem deviceResponse (device : Option StubId) (event : StubId) (status : ResponseType) :
    SameModes c (c.deviceResponse device event status) := by
  unfold Core.deviceResponse
  dsimp only
  split
  · exact of_eq rfl rfl rfl
  · exact refl c

variable (c) in
theorem pollResource (s : StubId) : SameModes c (c.pollResource s) := by
  unfold Core.pollResource
  dsimp only
  split
  · exact refl c
  · split
    · exact (modifyStub ⟨rfl, rfl⟩).trans (insertEvent _ _ _ _)
    · exact refl c

theorem depReset {fuel : ℕ} {s : StubId} (h : Core.depReset fuel c s = some c') :
    SameModes c c' := by
  induction fuel generalizing c c' s with
  | zero => cases h
  | succ fuel ih =>
    refine foldlM_preserves h (fun c₁ d c₂ _ h₁ h₂ => h₁.trans (SameModes.trans ?_ (ih h₂)))
      (modifyStub ⟨rfl, rfl⟩)
    split <;> exact modifyStub ⟨rfl, rfl⟩

theorem updateResource {fuel : ℕ} {s : StubId} (h : Core.updateResource fuel c s = some c') :
    SameModes c c' := by
  unfold Core.updateResource at h
  dsimp only at h
  split at h
  · exact Option.some.inj h ▸ refl c
  · obtain ⟨c₂, hreset, rfl⟩ := Option.map_eq_some_iff.mp h
    have hsend : SameModes c₂ (Core.getSeq (c₂.modifyStub s fun t => { t with status := -1 }) s 0
        ((c₂.modifyStub s fun t => { t with status := -1 }).stub s).all.toInt) :=
      (modifyStub (s := s) (f := fun t => { t with status := -1 }) ⟨rfl, rfl⟩).trans
        (of_eq rfl rfl rfl)
    refine trans ?_ hsend
    generalize hc₁ : (if (c.stub s).all ≠ 0 then c.modifyStub s fun t => { t with offset := 0 }
      else c) = c₁ at hreset
    have hoffset : SameModes c c₁ := by
      rw [← hc₁]
      split
      · exact modifyStub ⟨rfl, rfl⟩
      · exact refl c
    have hlist : SameModes c₁ (c₁.modifyStub s fun t => { t with list := t.reqs, reqs := [] }) :=
      modifyStub ⟨rfl, rfl⟩
    refine (hoffset.trans hlist).trans ?_
    split at hreset
    · exact depReset hreset
    · rw [← Option.some.inj hreset]
      exact modifyStub ⟨rfl, rfl⟩

variable (c) (s : ScheduleId) (eb a : BlockId)

theorem removeEvent (d : EventData) : SameModes c (c.removeEvent d) := of_eq rfl rfl rfl

theorem noteStart : SameModes c (c.noteStart eb) := of_eq rfl rfl rfl

theorem modifySchedule (f : Schedule → Schedule) : SameModes c (c.modifySchedule s f) :=
  of_eq rfl rfl rfl

theorem beginBlock : SameModes c (c.beginBlock s eb) := by
  unfold Core.beginBlock
  refine trans ?_ (deviceResponse _ _ _ _)
  refine trans ?_ (noteStart _ _)
  refine trans ?_ (insertEvent _ _ _ _)
  exact modifyBlock fun _ => ⟨rfl, rfl⟩

theorem activateBlock : SameModes c (c.activateBlock s eb) := by
  unfold Core.activateBlock
  dsimp only
  refine trans ?_ (pollResource _ _)
  split
  · refine (beginBlock c s eb).trans ?_
    exact modifyStub ⟨rfl, rfl⟩
  · exact modifyStub ⟨rfl, rfl⟩

theorem supersedeActive : SameModes c (c.supersedeActive s eb a) := by
  unfold Core.supersedeActive
  dsimp only
  refine trans ?_ (deviceResponse _ _ _ _)
  refine trans ?_ (modifyBlock fun _ => ⟨rfl, rfl⟩)
  split
  · refine trans ?_ (insertEvent _ _ _ _)
    exact modifyBlock fun _ => ⟨rfl, rfl⟩
  · exact modifyBlock fun _ => ⟨rfl, rfl⟩

theorem yieldActive : SameModes c (c.yieldActive s eb) := by
  unfold Core.yieldActive
  refine trans ?_ (deviceResponse _ _ _ _)
  exact modifyBlock fun _ => ⟨rfl, rfl⟩

theorem expireBlock : SameModes c (c.expireBlock s eb) := by
  unfold Core.expireBlock
  dsimp only
  refine trans ?_ (modifyBlock fun _ => ⟨rfl, rfl⟩)
  split
  · exact (deviceResponse c _ _ _).trans (insertEvent _ _ _ _)
  · exact refl c

theorem retireBlock : SameModes c (c.retireBlock s eb) := by
  unfold Core.retireBlock
  refine trans ?_ (deviceResponse _ _ _ _)
  exact modifyBlock fun _ => ⟨rfl, rfl⟩

theorem armTimer (last : Int) : SameModes c (c.armTimer s last) := by
  unfold Core.armTimer
  dsimp only
  split
  · refine trans ?_ (modifySchedule _ _ _)
    split
    · refine trans ?_ (insertEvent _ _ _ _)
      exact removeEvent c _
    · exact refl c
  · exact modifySchedule _ _ _

variable {c s eb}

theorem startBlock {fuel : ℕ} (h : c.startBlock fuel s eb = some c') : SameModes c c' := by
  unfold Core.startBlock at h
  split at h
  · obtain ⟨c₁, hupdate, hres⟩ := Option.bind_eq_some_iff.mp h
    rw [← Option.some.inj hres]
    exact (updateResource hupdate).trans (modifyBlock fun _ => ⟨rfl, rfl⟩)
  · exact Option.some.inj h ▸ activateBlock c s eb
  · exact Option.some.inj h ▸ refl c

end SameModes

/-! ## The modes of a queue -/

/-- The blocks of a list have no mode in common, and each has one unless its control has none. -/
structure Exclusive (c : Core) (l : List BlockId) : Prop where
  apart : l.Pairwise fun a b => (c.block a).der &&& (c.block b).der = 0
  used : ∀ b ∈ l, c.derBase (c.block b).event ≠ 0 → (c.block b).der ≠ 0

/-- A block that has no mode in common with the blocks of a list. -/
structure Beside (c : Core) (eb : BlockId) (l : List BlockId) : Prop where
  apart : ∀ a ∈ l, (c.block a).der &&& (c.block eb).der = 0
  used : c.derBase (c.block eb).event ≠ 0 → (c.block eb).der ≠ 0

section Exclusive
variable {c c' : Core} {l l' u : List BlockId} {a b eb : BlockId}

theorem Exclusive.sublist (h : Exclusive c l) (hl : l'.Sublist l) : Exclusive c l' :=
  ⟨h.apart.sublist hl, fun b hb => h.used b (hl.subset hb)⟩

/-- The blocks of the list are what they were. -/
theorem Exclusive.congr (h : Exclusive c l) (hder : ∀ b ∈ l, (c'.block b).der = (c.block b).der)
    (hbase : ∀ b ∈ l, c'.derBase (c'.block b).event = c.derBase (c.block b).event) :
    Exclusive c' l := by
  refine ⟨h.apart.imp_of_mem fun ha hb hab => ?_, fun b hb => ?_⟩
  · rw [hder _ ha, hder _ hb]
    exact hab
  · rw [hder b hb, hbase b hb]
    exact h.used b hb

/-- Some of the blocks give up modes, but not all they have. -/
theorem Exclusive.trim (h : Exclusive c l)
    (hder : ∀ b ∈ l, ∃ z, (c'.block b).der = (c.block b).der &&& ~~~z)
    (hused : ∀ b ∈ l, c'.derBase (c'.block b).event ≠ 0 → (c'.block b).der ≠ 0) :
    Exclusive c' l := by
  refine ⟨h.apart.imp_of_mem fun ha hb hab => ?_, hused⟩
  obtain ⟨x, hx⟩ := hder _ ha
  obtain ⟨y, hy⟩ := hder _ hb
  rw [hx, hy]
  exact and_trim (trim_and hab x) y

theorem SameBases.control (h : SameBases c c') (b : BlockId) :
    c'.derBase (c'.block b).event = c.derBase (c.block b).event := by
  rw [h.event, h.base]

theorem Exclusive.same (h : Exclusive c l) (hc : SameModes c c') : Exclusive c' l :=
  h.congr (fun b _ => hc.der b) fun b _ => hc.control b

theorem Beside.same (h : Beside c eb l) (hc : SameModes c c') : Beside c' eb l := by
  refine ⟨fun a ha => ?_, ?_⟩
  · rw [hc.der, hc.der]
    exact h.apart a ha
  · rw [hc.der, hc.control]
    exact h.used

/-- The queue that `insert_sorted` makes. -/
theorem Exclusive.place (h : Exclusive c l) (hb : Beside c eb l)
    (compare : BlockId → BlockId → Int) : Exclusive c (Chain.place compare eb l) := by
  have hsymm : ∀ {x y : BlockId}, (c.block x).der &&& (c.block y).der = 0 →
      (c.block y).der &&& (c.block x).der = 0 := fun hxy => by
    rw [BitVec.and_comm]
    exact hxy
  refine ⟨((Chain.place_perm compare eb l).pairwise_iff hsymm).mpr
    (List.pairwise_cons.mpr ⟨fun a ha => hsymm (hb.apart a ha), h.apart⟩), fun x hx => ?_⟩
  rcases Chain.mem_place.mp hx with rfl | hx
  · exact hb.used
  · exact h.used x hx

/-- What `block_supersede` does to the modes of the two blocks. -/
inductive Bout (c c' : Core) (eb a : BlockId) : Bool → Prop
  | beaten : (c'.block eb).der = (c.block eb).der → Bout c c' eb a true
  | trimmed : (c'.block eb).der = (c.block eb).der → (c.block eb).der ≠ 0 →
      (c'.block a).der = (c.block a).der &&& ~~~(c.block eb).der → (c'.block a).der ≠ 0 →
      Bout c c' eb a false
  | trims : (c'.block a).der = (c.block a).der →
      (c'.block eb).der = (c.block eb).der &&& ~~~(c.block a).der → Bout c c' eb a false

theorem blockSupersede_bout (c : Core) (hne : a ≠ eb) :
    Bout c (c.blockSupersede eb a).1 eb a (c.blockSupersede eb a).2 ∧
      SameBases c (c.blockSupersede eb a).1 ∧
      ∀ b, b ≠ eb → b ≠ a → ((c.blockSupersede eb a).1.block b).der = (c.block b).der := by
  unfold Core.blockSupersede
  dsimp only
  split
  · split
    · rename_i hder
      have heb : ((c.modifyBlock a fun e => { e with der := e.der &&& ~~~(c.block eb).der }).block
          eb).der = (c.block eb).der := by
        rw [Core.modifyBlock_block, if_neg hne.symm]
      refine ⟨?_, ?_, fun b _ hb => ?_⟩
      · cases hwon : decide (((c.modifyBlock a fun e =>
          { e with der := e.der &&& ~~~(c.block eb).der }).block a).der = 0) with
        | true => exact .beaten heb
        | false =>
          refine .trimmed heb hder ?_ (of_decide_eq_false hwon)
          rw [Core.modifyBlock_block, if_pos rfl]
      · exact SameBases.modifyBlock (f := fun e => { e with der := e.der &&& ~~~(c.block eb).der })
          fun _ => rfl
      · rw [Core.modifyBlock_block, if_neg hb]
    · exact ⟨.beaten rfl, (SameModes.refl c).toSameBases, fun _ _ _ => rfl⟩
  · refine ⟨.trims ?_ ?_, ?_, fun b hb _ => ?_⟩
    · rw [Core.modifyBlock_block, if_neg hne]
    · rw [Core.modifyBlock_block, if_pos rfl]
    · exact SameBases.modifyBlock (f := fun e => { e with der := e.der &&& ~~~(c.block a).der })
        fun _ => rfl
    · rw [Core.modifyBlock_block, if_neg hb]

end Exclusive

/-! ## Insertion -/

namespace World
variable {w w' : World} {s : ScheduleId} {eb : BlockId} {u rest l : List BlockId}
  {cur : Option BlockId} {fuel : ℕ} {lost : Bool}

/-- **The loop of `insert_active`.**  The new block is beside the blocks that it has passed. -/
theorem insertActiveLoop_exclusive (hcur : Chain.Linked w.links.next cur rest)
    (hlinked : Chain.Linked w.links.next (w.links.head s .active) (u ++ rest))
    (hnd : (u ++ rest).Nodup) (heb : eb ∉ u ++ rest) (hex : Exclusive w.core (u ++ rest))
    (hbeside : Beside w.core eb u)
    (hres : insertActiveLoop s eb fuel w cur = some (w', lost)) :
    ∃ l, l <:+ u ++ rest ∧ Chain.Linked w'.links.next (w'.links.head s .active) l ∧
      SameBases w.core w'.core ∧ Exclusive w'.core l ∧ (lost = false → Beside w'.core eb l) := by
  induction rest generalizing fuel w u cur with
  | nil =>
    rw [Chain.linked_nil] at hcur
    subst hcur
    cases fuel with
    | zero => cases hres
    | succ fuel =>
      obtain ⟨rfl, rfl⟩ := Prod.mk.inj (Option.some.inj hres)
      rw [List.append_nil] at *
      exact ⟨u, List.suffix_refl u, hlinked, (SameModes.refl _).toSameBases, hex, fun _ => hbeside⟩
  | cons a rest ih =>
    obtain ⟨rfl, hcur⟩ := hcur
    cases fuel with
    | zero => cases hres
    | succ fuel =>
      have hane : a ≠ eb := fun h => heb (by rw [h]; simp)
      have hsplit : u ++ a :: rest = (u ++ [a]) ++ rest := by simp
      obtain ⟨hbout, hbases, hothers⟩ := blockSupersede_bout w.core hane
      rw [insertActiveLoop] at hres
      dsimp only at hres
      generalize w.core.blockSupersede eb a = r at hbout hbases hothers hres
      obtain ⟨c, won⟩ := r
      dsimp only at hbout hbases hothers hres
      have hkept : ∀ b ∈ u ++ rest, (c.block b).der = (w.core.block b).der := fun b hb => by
        refine hothers b (fun h => heb ?_) fun h => ?_
        · rw [← h]
          exact ((List.sublist_cons_self a rest).append_left u).subset hb
        · rw [h] at hb
          exact (List.nodup_middle.mp hnd).notMem hb
      cases hbout with
      | beaten hder =>
        -- The queue starts behind the block that is superseded.
        rw [if_pos rfl] at hres
        have hsame := SameModes.supersedeActive c s eb a
        have hrest : rest.Sublist (u ++ a :: rest) :=
          (List.sublist_cons_self a rest).trans (List.sublist_append_right u _)
        obtain ⟨l, hl, hlinked', hbases', hex', hbeside'⟩ := ih (u := []) (w := ⟨w.links.setHead s
            .active (w.links.next a), c.supersedeActive s eb a⟩) hcur
          (by rw [Links.setHead_same]; exact hcur) (hnd.sublist hrest)
          (fun h => heb (hrest.subset h))
          (((hex.sublist hrest).congr (fun b hb => hkept b (List.mem_append_right u hb))
            fun b _ => hbases.control b).same hsame)
          (⟨fun _ h => absurd h List.not_mem_nil, by
            rw [hsame.der, hsame.control, hder, hbases.control]
            exact hbeside.used⟩) hres
        exact ⟨l, hl.trans ((List.suffix_cons a rest).trans (List.suffix_append u _)), hlinked',
          (hbases.trans hsame.toSameBases).trans hbases', hex', hbeside'⟩
      | trimmed hder hne hless hused =>
        rw [if_neg Bool.false_ne_true, if_neg (by rw [hder]; exact hne)] at hres
        rw [hsplit] at hlinked hnd heb ⊢
        have hcase : ∀ b ∈ (u ++ [a]) ++ rest, b = a ∨ b ∈ u ++ rest := fun b hb => by
          rw [List.append_assoc, List.mem_append, List.mem_append, List.mem_singleton] at hb
          rw [List.mem_append]
          tauto
        have hex' : Exclusive c ((u ++ [a]) ++ rest) := by
          rw [hsplit] at hex
          refine hex.trim (fun b hb => ?_) fun b hb hbase => ?_
          · rcases hcase b hb with rfl | hb
            · exact ⟨_, hless⟩
            · exact ⟨0, by rw [hkept b hb]; exact (trim_zero _).symm⟩
          · rcases hcase b hb with rfl | hb'
            · exact hused
            · rw [hkept b hb']
              rw [hbases.control] at hbase
              exact hex.used b hb hbase
        have hbeside' : Beside c eb (u ++ [a]) := by
          refine ⟨fun b hb => ?_, by rw [hder, hbases.control]; exact hbeside.used⟩
          rw [hder]
          rcases List.mem_append.mp hb with hb | hb
          · rw [hkept b (List.mem_append_left _ hb)]
            exact hbeside.apart b hb
          · rw [List.mem_singleton.mp hb, hless]
            exact trim_and_self _ _
        obtain ⟨l, hl, hlinked', hbases', hex'', hbeside''⟩ := ih (u := u ++ [a])
          (w := ⟨w.links, c⟩) hcur hlinked hnd heb hex' hbeside' hres
        exact ⟨l, hl, hlinked', hbases.trans hbases', hex'', hbeside''⟩
      | trims hder hless =>
        have hex' : Exclusive c (u ++ a :: rest) := by
          refine hex.congr (fun b hb => ?_) fun b _ => hbases.control b
          rcases List.mem_cons.mp (List.perm_middle.subset hb) with rfl | hb
          · exact hder
          · exact hkept b hb
        rw [if_neg Bool.false_ne_true] at hres
        by_cases hnone : (c.block eb).der = 0
        · -- The new block is superseded: the queue stays as it is.
          rw [if_pos hnone] at hres
          obtain ⟨rfl, rfl⟩ := Prod.mk.inj (Option.some.inj hres)
          have hsame := SameModes.yieldActive c s eb
          exact ⟨_, List.suffix_refl _, hlinked, hbases.trans hsame.toSameBases, hex'.same hsame,
            fun h => absurd h (by decide)⟩
        · rw [if_neg hnone] at hres
          rw [hsplit] at hlinked hnd heb hex' ⊢
          have hbeside' : Beside c eb (u ++ [a]) := by
            refine ⟨fun b hb => ?_, fun _ => hnone⟩
            rw [hless]
            rcases List.mem_append.mp hb with hb | hb
            · rw [hkept b (List.mem_append_left _ hb)]
              exact and_trim (hbeside.apart b hb) _
            · rw [List.mem_singleton.mp hb, hder, BitVec.and_comm]
              exact trim_and_self _ _
          obtain ⟨l, hl, hlinked', hbases', hex'', hbeside''⟩ := ih (u := u ++ [a])
            (w := ⟨w.links, c⟩) hcur hlinked hnd heb hex' hbeside' hres
          exact ⟨l, hl, hlinked', hbases.trans hbases', hex'', hbeside''⟩

/-- The `active` queue of a Schedule: its blocks have exclusive modes. -/
structure ActiveQueue (w : World) (s : ScheduleId) (l : List BlockId) : Prop where
  linked : Chain.Linked w.links.next (w.links.head s .active) l
  nodup : l.Nodup
  known : ∀ b ∈ l, b < w.core.freshBlock
  exclusive : Exclusive w.core l

theorem ActiveQueue.queue_eq (h : ActiveQueue w s l) : w.queue s .active = l := by
  refine h.linked.walk ?_
  have hsub : l ⊆ List.range w.core.freshBlock := fun b hb => List.mem_range.mpr (h.known b hb)
  simpa using h.nodup.length_le_of_subset hsub

/-- The queue stands, and the modes are what they were. -/
theorem ActiveQueue.same {c' : Core} (h : ActiveQueue w s l) (hc : SameModes w.core c') :
    ActiveQueue ⟨w.links, c'⟩ s l :=
  ⟨h.linked, h.nodup, fun b hb => by rw [hc.freshBlock]; exact h.known b hb,
    h.exclusive.same hc⟩

/-- Another queue has moved. -/
theorem ActiveQueue.setHead (h : ActiveQueue w s l) {n : QueueName} (hn : n ≠ .active)
    (v : Option BlockId) : ActiveQueue ⟨w.links.setHead s n v, w.core⟩ s l := by
  refine ⟨?_, h.nodup, h.known, h.exclusive⟩
  show Chain.Linked w.links.next _ l
  rw [Links.setHead_of_name_ne hn.symm]
  exact h.linked

/-- **`insert_active`** of a block that is not in the queue. -/
theorem insertActive_exclusive (h : ActiveQueue w s l) (heb : eb ∉ l)
    (hknown : eb < w.core.freshBlock)
    (htype : w.core.type (w.core.block eb).event = SeType.derControl)
    (hres : w.insertActive fuel s eb = some w') :
    ∃ l', ActiveQueue w' s l' ∧ SameBases w.core w'.core := by
  unfold insertActive at hres
  obtain ⟨⟨w₁, lost⟩, hloop, hres⟩ := Option.bind_eq_some_iff.mp hres
  have hload : w.core.loadDer eb = w.core.modifyBlock eb fun e =>
      { e with der := w.core.derBase (w.core.block eb).event } := if_pos htype
  have hbases : SameBases w.core (w.core.loadDer eb) := by
    rw [hload]
    exact SameBases.modifyBlock (f := fun e =>
      { e with der := w.core.derBase (w.core.block eb).event }) fun _ => rfl
  have hkept : ∀ b ∈ l, ((w.core.loadDer eb).block b).der = (w.core.block b).der := by
    intro b hb
    have hne : b ≠ eb := fun hbe => heb (hbe ▸ hb)
    rw [hload, Core.modifyBlock_of_ne _ _ hne]
  have hbeside : Beside (w.core.loadDer eb) eb [] := by
    refine ⟨fun _ h => absurd h List.not_mem_nil, ?_⟩
    rw [hbases.control, hload, Core.modifyBlock_same]
    exact id
  obtain ⟨k, hk, hlinked, hbases', hex, hbeside'⟩ := insertActiveLoop_exclusive (u := [])
    (w := ⟨w.links, w.core.loadDer eb⟩) h.linked h.linked h.nodup heb
    (h.exclusive.congr hkept fun b _ => hbases.control b) hbeside hloop
  have hall := hbases.trans hbases'
  have hsub : k ⊆ l := hk.subset
  have hknd : k.Nodup := h.nodup.sublist hk.sublist
  have hkknown : ∀ b ∈ k, b < w₁.core.freshBlock := fun b hb => by
    rw [hall.freshBlock]
    exact h.known b (hsub hb)
  cases lost with
  | true =>
    rw [← Option.some.inj hres]
    exact ⟨k, ⟨hlinked, hknd, hkknown, hex⟩, hall⟩
  | false =>
    obtain ⟨c₂, hstart, hres⟩ := Option.bind_eq_some_iff.mp hres
    obtain ⟨l₂, hinsert, hres⟩ := Option.bind_eq_some_iff.mp hres
    obtain ⟨⟨next, head⟩, hsorted, rfl⟩ := Option.map_eq_some_iff.mp hinsert
    rw [← Option.some.inj hres]
    have hsame := SameModes.startBlock hstart
    obtain ⟨hplaced, -⟩ := Chain.insertSorted_spec hlinked hknd (fun hb => heb (hsub hb)) hsorted
    refine ⟨Chain.place c₂.compareEnd eb k, ⟨?_, Chain.place_nodup hknd fun hb => heb (hsub hb),
      fun b hb => ?_, (hex.same hsame).place ((hbeside' rfl).same hsame) _⟩,
      hall.trans hsame.toSameBases⟩
    · show Chain.Linked next _ _
      rw [Links.setHead_same]
      exact hplaced
    · show b < c₂.freshBlock
      rw [hsame.freshBlock]
      rcases Chain.mem_place.mp hb with rfl | hb
      · rw [hall.freshBlock]
        exact hknown
      · exact hkknown b hb

end World

/-- What a call of `insert_active` starts from: the block is in use, not in the queue, and that of
a DERControl. -/
structure Call.Fresh (call : Call) : Prop where
  out : call.block ∉ call.active
  known : call.block < call.core.freshBlock
  control : call.core.type (call.core.block call.block).event = SeType.derControl

namespace World
variable {w w' : World} {s : ScheduleId} {eb : BlockId} {l : List BlockId}
  {cur cur' : Option BlockId} {fuel : ℕ} {now last last' : Int}

/-! ## Updating -/

/-- The loop of `update_schedule` over `active` stops at a rest of the queue. -/
theorem expireLoop_modes (hcur : Chain.Linked w.links.next cur l)
    (hres : expireLoop s now fuel w cur = some (w', cur', last')) :
    SameModes w.core w'.core ∧ w'.links = w.links ∧
      ∃ k, k <:+ l ∧ Chain.Linked w.links.next cur' k := by
  induction l generalizing fuel w cur with
  | nil =>
    rw [Chain.linked_nil] at hcur
    subst hcur
    cases fuel with
    | zero => cases hres
    | succ fuel =>
      obtain ⟨rfl, hrest⟩ := Prod.mk.inj (Option.some.inj hres)
      obtain ⟨rfl, -⟩ := Prod.mk.inj hrest
      exact ⟨SameModes.refl _, rfl, [], List.suffix_refl _, rfl⟩
  | cons a l ih =>
    obtain ⟨rfl, hcur⟩ := hcur
    cases fuel with
    | zero => cases hres
    | succ fuel =>
      rw [expireLoop] at hres
      split at hres
      · have hsame := SameModes.expireBlock w.core s a
        obtain ⟨hmodes, hlinks, k, hk, hcur'⟩ := ih
          (w := ⟨w.links, w.core.expireBlock s a⟩) hcur hres
        exact ⟨hsame.trans hmodes, hlinks, k, hk.trans (List.suffix_cons a l), hcur'⟩
      · obtain ⟨rfl, hrest⟩ := Prod.mk.inj (Option.some.inj hres)
        obtain ⟨rfl, -⟩ := Prod.mk.inj hrest
        exact ⟨SameModes.refl _, rfl, a :: l, List.suffix_refl _, rfl, hcur⟩

/-- The loop of `update_schedule` over `scheduled` inserts blocks into the queue. -/
theorem promoteLoop_exclusive (h : ActiveQueue w s l)
    (hfresh : ∀ call ∈ promotions s now fuel w cur, call.Fresh)
    (hres : promoteLoop s now fuel w cur last = some (w', cur', last')) :
    ∃ l', ActiveQueue w' s l' ∧ SameBases w.core w'.core := by
  induction fuel generalizing w l cur last with
  | zero => cases hres
  | succ fuel ih =>
    cases cur with
    | none =>
      obtain ⟨rfl, -⟩ := Prod.mk.inj (Option.some.inj hres)
      exact ⟨l, h, (SameModes.refl _).toSameBases⟩
    | some eb =>
      rw [promoteLoop] at hres
      rw [promotions] at hfresh
      split at hres
      · rename_i hdue
        rw [if_pos hdue] at hfresh
        obtain ⟨hcall, hcalls⟩ := List.forall_mem_cons.mp hfresh
        obtain ⟨w₁, hinsert, hres⟩ := Option.bind_eq_some_iff.mp hres
        rw [hinsert] at hcalls
        have hout := hcall.out
        rw [show (Call.mk w.core (w.queue s .active) eb).active = l from h.queue_eq] at hout
        obtain ⟨l₁, h₁, hbases⟩ :=
          insertActive_exclusive h hout hcall.known hcall.control hinsert
        obtain ⟨l', h', hbases'⟩ := ih h₁ hcalls hres
        exact ⟨l', h', hbases.trans hbases'⟩
      · obtain ⟨rfl, -⟩ := Prod.mk.inj (Option.some.inj hres)
        exact ⟨l, h, (SameModes.refl _).toSameBases⟩

/-- The loop of `update_schedule` over `superseded` leaves the modes alone. -/
theorem retireLoop_modes (hres : retireLoop s now fuel w cur last = some (w', cur', last')) :
    SameModes w.core w'.core ∧ w'.links = w.links := by
  induction fuel generalizing w cur with
  | zero => cases hres
  | succ fuel ih =>
    cases cur with
    | none =>
      obtain ⟨rfl, -⟩ := Prod.mk.inj (Option.some.inj hres)
      exact ⟨SameModes.refl _, rfl⟩
    | some eb =>
      rw [retireLoop] at hres
      split at hres
      · obtain ⟨hmodes, hlinks⟩ := ih (w := ⟨w.links, w.core.retireBlock s eb⟩) hres
        exact ⟨(SameModes.retireBlock w.core s eb).trans hmodes, hlinks⟩
      · obtain ⟨rfl, -⟩ := Prod.mk.inj (Option.some.inj hres)
        exact ⟨SameModes.refl _, rfl⟩

/-- **`update_schedule`.** -/
theorem updateSchedule_exclusive (h : ActiveQueue w s l)
    (hfresh : ∀ call ∈ w.updateCalls fuel s, call.Fresh)
    (hres : w.updateSchedule fuel s = some w') :
    ∃ l', ActiveQueue w' s l' ∧ SameBases w.core w'.core := by
  unfold updateSchedule at hres
  unfold updateCalls at hfresh
  obtain ⟨⟨w₁, eb₁, last₁⟩, hexpire, hres⟩ := Option.bind_eq_some_iff.mp hres
  rw [hexpire] at hfresh
  dsimp only at hres hfresh
  obtain ⟨hmodes, hlinks, k, hk, hlinked⟩ := expireLoop_modes h.linked hexpire
  have h₁ : ActiveQueue ⟨w₁.links.setHead s .active eb₁, w₁.core⟩ s k := by
    refine ⟨?_, h.nodup.sublist hk.sublist, fun b hb => ?_,
      (h.exclusive.sublist hk.sublist).same hmodes⟩
    · show Chain.Linked w₁.links.next _ _
      rw [Links.setHead_same, hlinks]
      exact hlinked
    · show b < w₁.core.freshBlock
      rw [hmodes.freshBlock]
      exact h.known b (hk.subset hb)
  obtain ⟨⟨w₂, eb₂, last₂⟩, hpromote, hres⟩ := Option.bind_eq_some_iff.mp hres
  dsimp only at hres
  obtain ⟨l', h₂, hbases⟩ := promoteLoop_exclusive h₁ hfresh hpromote
  obtain ⟨⟨w₃, eb₃, last₃⟩, hretire, hres⟩ := Option.bind_eq_some_iff.mp hres
  dsimp only at hres
  obtain ⟨hmodes₃, hlinks₃⟩ := retireLoop_modes hretire
  have h₃ : ActiveQueue w₃ s l' := by
    have := (h₂.setHead (show QueueName.scheduled ≠ .active by decide) eb₂).same hmodes₃
    rw [← hlinks₃] at this
    exact this
  have hmodes₄ := SameModes.armTimer w₃.core s last₃
  refine ⟨l', ?_, ?_⟩
  · rw [← Option.some.inj hres]
    exact (h₃.setHead (show QueueName.superseded ≠ .active by decide) eb₃).same hmodes₄
  · rw [← Option.some.inj hres]
    exact (hmodes.toSameBases.trans hbases).trans (hmodes₃.trans hmodes₄).toSameBases

/-! ## Removal -/

/-- A block is linked out of a queue, perhaps another one that shares nodes with `active`. -/
theorem ActiveQueue.listRemove {n : QueueName} {k : Links} (h : ActiveQueue w s l)
    (hres : w.links.listRemove fuel s n eb = some k) :
    ∃ l', ActiveQueue ⟨k, w.core⟩ s l' := by
  obtain ⟨⟨next, head⟩, hremove, rfl⟩ := Option.map_eq_some_iff.mp hres
  by_cases hn : n = .active
  · subst hn
    obtain ⟨hlinked, -⟩ := Chain.listRemove_spec h.linked h.nodup hremove
    have hsub : (l.erase eb).Sublist l := List.erase_sublist
    refine ⟨l.erase eb, ?_, h.nodup.sublist hsub, fun b hb => h.known b (hsub.subset hb),
      h.exclusive.sublist hsub⟩
    show Chain.Linked next _ _
    rw [Links.setHead_same]
    exact hlinked
  · obtain ⟨l', hsub, hlinked⟩ : ∃ l', l'.Sublist l ∧
        Chain.Linked next (w.links.head s .active) l' := by
      rcases Chain.listRemove_links hremove with rfl | ⟨p, hp, rfl⟩
      · exact ⟨l, List.Sublist.refl l, h.linked⟩
      · exact h.linked.skip h.nodup hp
    refine ⟨l', ?_, h.nodup.sublist hsub, fun b hb => h.known b (hsub.subset hb),
      h.exclusive.sublist hsub⟩
    show Chain.Linked next _ _
    rw [Links.setHead_of_name_ne (Ne.symm hn)]
    exact hlinked

/-- **`remove_block`.** -/
theorem removeBlock_exclusive (h : ActiveQueue w s l) (hres : w.removeBlock fuel s eb = some w') :
    ∃ l', ActiveQueue w' s l' := by
  have hplain : ∀ {n : QueueName} {c : Core}, SameModes w.core c →
      (w.links.listRemove fuel s n eb).map (fun k => (⟨k, c⟩ : World)) = some w' →
      ∃ l', ActiveQueue w' s l' := by
    intro n c hc hmap
    obtain ⟨k, hremove, rfl⟩ := Option.map_eq_some_iff.mp hmap
    obtain ⟨l', h'⟩ := h.listRemove hremove
    exact ⟨l', h'.same hc⟩
  unfold removeBlock at hres
  split at hres
  · exact hplain (SameModes.refl _) hres
  · refine hplain ?_ hres
    refine SameModes.trans ?_ (SameModes.insertEvent _ _ _ _)
    refine SameModes.trans ?_ (SameModes.removeEvent _ _)
    exact SameModes.modifyBlock fun _ => ⟨rfl, rfl⟩
  · exact hplain (SameModes.refl _) hres
  · exact hplain (SameModes.refl _) hres
  · exact ⟨l, Option.some.inj hres ▸ h⟩

end World

/-! ## Every run -/

/-- The calls that move blocks into and out of the `active` queue of a Schedule, and anything
else in between. -/
inductive ActiveAct
  | insert (eb : BlockId)
  | update
  | remove (eb : BlockId)
  | elsewhere

/-- What happens in between leaves the queue and the modes of its blocks alone. -/
structure Elsewhere (s : ScheduleId) (w w' : World) : Prop where
  linked : ∀ l, Chain.Linked w.links.next (w.links.head s .active) l →
    Chain.Linked w'.links.next (w'.links.head s .active) l
  der : ∀ b ∈ w.queue s .active, (w'.core.block b).der = (w.core.block b).der
  base : ∀ b ∈ w.queue s .active,
    w'.core.derBase (w'.core.block b).event = w.core.derBase (w.core.block b).event
  freshBlock : w.core.freshBlock ≤ w'.core.freshBlock

/-- The steps of a Schedule. -/
inductive ActiveStep (s : ScheduleId) : World → ActiveAct → World → Prop
  | insert {w w' : World} {eb : BlockId} (fuel : ℕ) :
      Call.Fresh ⟨w.core, w.queue s .active, eb⟩ → w.insertActive fuel s eb = some w' →
      ActiveStep s w (.insert eb) w'
  | update {w w' : World} (fuel : ℕ) : (∀ call ∈ w.updateCalls fuel s, call.Fresh) →
      w.updateSchedule fuel s = some w' → ActiveStep s w .update w'
  | remove {w w' : World} {eb : BlockId} (fuel : ℕ) : w.removeBlock fuel s eb = some w' →
      ActiveStep s w (.remove eb) w'
  | elsewhere {w w' : World} : Elsewhere s w w' → ActiveStep s w .elsewhere w'

section Runs
variable {w w' : World} {s : ScheduleId} {l : List BlockId} {act : ActiveAct}

/-- **The step lemma.** -/
theorem ActiveStep.activeQueue (hs : ActiveStep s w act w') (h : w.ActiveQueue s l) :
    ∃ l', w'.ActiveQueue s l' := by
  cases hs with
  | insert fuel hfresh hres =>
    have hout := hfresh.out
    rw [show (Call.mk w.core (w.queue s .active) _).active = l from h.queue_eq] at hout
    obtain ⟨l', h', -⟩ := World.insertActive_exclusive h hout hfresh.known hfresh.control hres
    exact ⟨l', h'⟩
  | update fuel hfresh hres =>
    obtain ⟨l', h', -⟩ := World.updateSchedule_exclusive h hfresh hres
    exact ⟨l', h'⟩
  | remove fuel hres => exact World.removeBlock_exclusive h hres
  | elsewhere he =>
    have hq := h.queue_eq
    refine ⟨l, he.linked l h.linked, h.nodup,
      fun b hb => (h.known b hb).trans_le he.freshBlock, ?_⟩
    exact h.exclusive.congr (fun b hb => he.der b (hq ▸ hb)) fun b hb => he.base b (hq ▸ hb)

/-- **Exclusive modes.**  In every run from an empty `active` queue, no two blocks of the queue
have a control mode in common, and no block whose control has modes is there without one. -/
theorem active_exclusive {w₀ : World} {acts : List ActiveAct}
    (hempty : w₀.links.head s .active = none) (hrun : Run (ActiveStep s) w₀ acts w) :
    Chain.Linked w.links.next (w.links.head s .active) (w.queue s .active) ∧
      (∀ a ∈ w.queue s .active, ∀ b ∈ w.queue s .active, a ≠ b →
        (w.core.block a).der &&& (w.core.block b).der = 0) ∧
      ∀ b ∈ w.queue s .active, w.core.derBase (w.core.block b).event ≠ 0 →
        (w.core.block b).der ≠ 0 := by
  obtain ⟨l, h⟩ : ∃ l, w.ActiveQueue s l := by
    induction hrun with
    | nil =>
      exact ⟨[], hempty, List.nodup_nil, fun _ h => absurd h List.not_mem_nil,
        ⟨.nil, fun _ h => absurd h List.not_mem_nil⟩⟩
    | snoc _ hs ih =>
      obtain ⟨l, h⟩ := ih
      exact hs.activeQueue h
  rw [h.queue_eq]
  refine ⟨h.linked, fun a ha b hb hne => ?_, h.exclusive.used⟩
  have hsymm : Std.Symm fun a b => (w.core.block a).der &&& (w.core.block b).der = 0 :=
    ⟨fun x y hxy => by rw [BitVec.and_comm]; exact hxy⟩
  exact h.exclusive.apart.forall ha hb hne

end Runs

/-- Two blocks of controls that are active and share the mode 1; the second is the newer one. -/
def sharedControls : World :=
  let w := World.boot (fun e => if e = 1 ∨ e = 2 then
    { Stub.control e .active 100 100 with
      data := (Stub.control e .active 100 100).data.map fun d =>
        { d with creationTime := e, controlFlags := if e = 1 then 3 else 6 } }
    else {}) 150
  { w with core := { w.core with block := fun b => { event := b + 1 }, freshBlock := 2 } }

/-- The first block is inserted. -/
def firstShared : World := (sharedControls.insertActive 3 0 0).get (by decide)

/-- The second block takes the mode from the first. -/
def secondShared : World := (firstShared.insertActive 3 0 1).get (by decide)

theorem secondShared_exclusive :
    (secondShared.core.block 0).der &&& (secondShared.core.block 1).der = 0 ∧
      (secondShared.core.block 0).der = 1 := by
  have hfirst : ActiveStep 0 sharedControls (.insert 0) firstShared :=
    .insert 3 ⟨by decide, by decide, by decide⟩ (Option.some_get _).symm
  have hsecond : ActiveStep 0 firstShared (.insert 1) secondShared :=
    .insert 3 ⟨by decide, by decide, by decide⟩ (Option.some_get _).symm
  exact ⟨(active_exclusive rfl (Run.cons hfirst (Run.single hsecond))).2.1 0 (by decide) 1
    (by decide) (by decide), by decide⟩

end SeClient
