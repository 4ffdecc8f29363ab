import SeClient.Exclusive

/-!
# What stays in the `active` queue

The loop of `insert_active` unlinks the blocks that the new one supersedes, but its pointer `prev`
stays at the head of the queue, so that the blocks it has passed go with the next one it unlinks.
-/

namespace SeClient

namespace Core
variable (c : Core) (eb : BlockId) (l : List BlockId)

/-- `insert_active` finds that the new block supersedes this one. -/
def Beats (a : BlockId) : Prop := (a, Fate.beats) ∈ (c.loadDer eb).contest eb l

instance (a : BlockId) : Decidable (c.Beats eb l a) := by unfold Beats; infer_instance

/-- `insert_active` finds that the new block is superseded. -/
def Yields : Prop := yielded ((c.loadDer eb).contest eb l) = true

instance : Decidable (c.Yields eb l) := by unfold Yields; infer_instance

/-- **What `insert_active` keeps**: the blocks that the new one does not supersede, in their order,
and the new one unless it is superseded. -/
structure KeepsActive (l' : List BlockId) : Prop where
  kept : l'.filter (fun a => a ≠ eb) = l.filter fun a => ¬c.Beats eb l a
  own : l'.count eb = if c.Yields eb l then 0 else 1

end Core

namespace World
variable {w : World} {q : Board} {s : ScheduleId} {eb : BlockId} {c : Core}
  {u rest : List BlockId} {cur : Option BlockId} {fuel : ℕ}

theorem sameBases_supersede (c : Core) (a b : BlockId) :
    SameBases c (c.blockSupersede a b).1 := by
  unfold Core.blockSupersede
  dsimp only
  split
  · split
    · exact SameBases.modifyBlock (f := fun e => { e with der := e.der &&& ~~~(c.block a).der })
        fun _ => rfl
    · exact (SameModes.refl c).toSameBases
  · exact SameBases.modifyBlock (f := fun e => { e with der := e.der &&& ~~~(c.block b).der })
      fun _ => rfl

theorem sameBases_touch (c : Core) (t : Touch) : SameBases c (c.touch t) := by
  refine ⟨fun b => ?_, fun _ => rfl, fun _ => rfl, rfl⟩
  by_cases h : b = t.block
  · subst h
    simp [Core.touch]
  · exact congrArg EventBlock.event (Function.update_of_ne h _ _)

/-- **The loop of `insert_active`.**  What is left of the queue begins behind the last block that
is superseded. -/
theorem insertActiveLoop_rest (hr : w.links.Represents q) (hq : q s .active = u ++ rest)
    (hcur : Chain.Linked w.links.next cur rest) (hfuel : rest.length < fuel) :
    ∃ w' gone l, insertActiveLoop s eb fuel w cur =
        some (w', yielded (w.core.contest eb rest)) ∧
      u ++ rest = gone ++ l ∧ w'.links.Represents (q.set s .active l) ∧
      SameBases w.core w'.core ∧ (∀ a ∈ l, (a, Fate.beats) ∉ w.core.contest eb rest) ∧
      ∀ a ∈ gone.getLast?, (a, Fate.beats) ∈ w.core.contest eb rest := by
  induction rest generalizing fuel w q u cur with
  | nil =>
    rw [Chain.linked_nil] at hcur
    subst hcur
    obtain ⟨fuel, rfl⟩ := Nat.exists_eq_succ_of_ne_zero (Nat.ne_zero_of_lt hfuel)
    rw [List.append_nil] at hq ⊢
    refine ⟨w, [], u, rfl, rfl, ?_, (SameModes.refl _).toSameBases, fun _ _ => List.not_mem_nil,
      fun a ha => absurd ha (Option.not_mem_none a)⟩
    rw [← hq, Board.set_self]
    exact hr
  | cons a rest ih =>
    obtain ⟨rfl, hcur⟩ := hcur
    obtain ⟨fuel, rfl⟩ := Nat.exists_eq_succ_of_ne_zero (Nat.ne_zero_of_lt hfuel)
    have hfuel := Nat.lt_of_succ_lt_succ hfuel
    have hnd := hr.nodup s .active
    rw [hq] at hnd
    have hsame := sameBases_supersede w.core eb a
    have hnot : ∀ c : Core, ∀ b ∈ u ++ [a], (b, Fate.beats) ∉ c.contest eb rest := by
      intro c b hb hmem
      rw [← List.singleton_append, ← List.append_assoc] at hnd
      exact List.disjoint_of_nodup_append hnd hb (Core.mem_of_mem_contest hmem)
    rw [insertActiveLoop, Core.contest, Core.fate]
    dsimp only
    generalize w.core.blockSupersede eb a = r at hsame ⊢
    obtain ⟨c₁, won⟩ := r
    dsimp only at hsame ⊢
    cases won with
    | true =>
      -- `a` is unlinked, and what has been passed with it
      rw [if_pos rfl, if_pos rfl, Core.supersedeActive_eq]
      have hr₁ : (w.links.setHead s .active (w.links.next a)).Represents
          (q.set s .active rest) :=
        hr.setHead (x := u ++ [a]) (by rw [hq, List.append_assoc]; rfl) hcur
      obtain ⟨w', gone, l, hres, hsplit, hrep, hevents, hl, hlast⟩ := ih (u := [])
        (w := ⟨w.links.setHead s .active (w.links.next a), c₁.touch (c₁.beaten s eb a)⟩)
        hr₁ (by rw [Board.set_same]; rfl) hcur hfuel
      dsimp only at hres hevents hl hlast
      rw [(Core.sameContest_touch _ _).contest] at hres hl hlast
      rw [Board.set_set] at hrep
      rw [List.nil_append] at hsplit
      have hyields : yielded ((a, Fate.beats) :: c₁.contest eb rest) =
          yielded (c₁.contest eb rest) := by simp [yielded]
      rw [hyields]
      refine ⟨w', u ++ a :: gone, l, hres, by rw [hsplit, List.append_assoc]; rfl, hrep,
        (hsame.trans (sameBases_touch c₁ _)).trans hevents, fun b hb hmem => ?_, fun b hb => ?_⟩
      · rcases List.mem_cons.mp hmem with heq | hmem
        · obtain rfl := (Prod.mk.inj heq).1
          have hb : b ∈ rest := hsplit ▸ List.mem_append_right gone hb
          exact (List.nodup_cons.mp hnd.of_append_right).1 hb
        · exact hl b hb hmem
      · cases gone with
        | nil =>
          rw [List.getLast?_concat, Option.mem_some_iff] at hb
          rw [← hb]
          exact List.mem_cons_self
        | cons d gone =>
          refine List.mem_cons_of_mem _ (hlast b ?_)
          rwa [List.getLast?_append_of_ne_nil _ (List.cons_ne_nil _ _), List.getLast?_cons_cons]
            at hb
    | false =>
      rw [if_neg Bool.false_ne_true, if_neg Bool.false_ne_true]
      by_cases hder : (c₁.block eb).der = 0
      · -- the new block is superseded, and the loop ends
        rw [if_pos hder, if_pos hder, Core.yieldActive_eq]
        refine ⟨_, [], u ++ a :: rest, rfl, rfl, ?_, hsame.trans (sameBases_touch c₁ _),
          fun b _ hmem => ?_, fun b hb => absurd hb (Option.not_mem_none b)⟩
        · rw [← hq, Board.set_self]
          exact hr
        · exact absurd (Prod.mk.inj (List.mem_singleton.mp hmem)).2 (by decide)
      · rw [if_neg hder, if_neg hder]
        obtain ⟨w', gone, l, hres, hsplit, hrep, hevents, hl, hlast⟩ := ih (u := u ++ [a])
          (w := ⟨w.links, c₁⟩) hr (by rw [hq, List.append_assoc]; rfl) hcur hfuel
        rw [List.append_assoc, List.singleton_append] at hsplit
        have hyields : yielded ((a, Fate.spares) :: c₁.contest eb rest) =
            yielded (c₁.contest eb rest) := by simp [yielded]
        rw [hyields]
        refine ⟨w', gone, l, hres, hsplit, hrep, hsame.trans hevents, fun b hb hmem => ?_,
          fun b hb => List.mem_cons_of_mem _ (hlast b hb)⟩
        rcases List.mem_cons.mp hmem with heq | hmem
        · exact absurd (Prod.mk.inj heq).2 (by decide)
        · exact hl b hb hmem

/-- The switch of `insert_active` returns for an Event. -/
theorem startBlock_returns (fuel : ℕ) (s : ScheduleId)
    (h : seEvent (c.type (c.block eb).event) = true) : ∃ c', c.startBlock fuel s eb = some c' := by
  unfold Core.startBlock
  split
  · have hupdate : ∃ c', c.updateResource fuel (c.block eb).event = some c' := by
      unfold Core.type at h
      unfold Core.updateResource Core.type
      dsimp only
      split
      · exact ⟨_, rfl⟩
      · rw [if_neg]
        · exact ⟨_, rfl⟩
        · -- an Event is not reset
          rintro ⟨-, hother⟩
          rw [Core.modifyStub_same] at hother
          split at hother
          · rw [Core.modifyStub_same] at hother
            exact absurd (h.symm.trans hother) (by decide)
          · exact absurd (h.symm.trans hother) (by decide)
    obtain ⟨c', hc'⟩ := hupdate
    rw [hc']
    exact ⟨_, rfl⟩
  · exact ⟨_, rfl⟩
  · exact ⟨_, rfl⟩

/-- A queue whose blocks are unlinked up to the last one that is superseded is what it should be
exactly when all of these are superseded. -/
theorem filter_gone {p : BlockId → Prop} [DecidablePred p] {gone l : List BlockId}
    (hl : ∀ a ∈ l, ¬p a) (hlast : ∀ a ∈ gone.getLast?, p a) :
    (gone ++ l).filter (fun a => ¬p a) = l ↔ (gone ++ l).Pairwise fun a b => p b → p a := by
  have hkeep : l.filter (fun a => ¬p a) = l :=
    List.filter_eq_self.mpr fun a ha => decide_eq_true (hl a ha)
  rw [List.filter_append, hkeep]
  constructor
  · rintro h
    have hnone : gone.filter (fun a => ¬p a) = [] := by
      have hlength := congrArg List.length h
      rw [List.length_append] at hlength
      exact List.length_eq_zero_iff.mp (by omega)
    have hall : ∀ a ∈ gone, p a := fun a ha => by
      have := List.filter_eq_nil_iff.mp hnone a ha
      simpa using this
    rw [List.pairwise_append]
    refine ⟨List.pairwise_of_forall_mem_list ?_, List.pairwise_of_forall_mem_list ?_, ?_⟩
    · exact fun a ha _ _ _ => hall a ha
    · exact fun _ _ b hb hp => absurd hp (hl b hb)
    · exact fun _ _ b hb hp => absurd hp (hl b hb)
  · rintro h
    have hall : ∀ a ∈ gone, p a := by
      rcases List.eq_nil_or_concat' gone with rfl | ⟨front, last, rfl⟩
      · exact fun a ha => absurd ha List.not_mem_nil
      · have hp := hlast last (List.getLast?_concat ..)
        rintro a ha
        rcases List.mem_append.mp ha with hfront | hend
        · have hpairs := (List.pairwise_append.mp (List.pairwise_append.mp h).1).2.2
          exact hpairs a hfront last List.mem_cons_self hp
        · rwa [List.mem_singleton.mp hend]
    have hnone : gone.filter (fun a => ¬p a) = [] :=
      List.filter_eq_nil_iff.mpr fun a ha => by simp [hall a ha]
    rw [hnone, List.nil_append]

/-- **`insert_active` keeps what it should** exactly when no block that stays is in front of one
that the new block supersedes. -/
theorem insertActive_keeps (hr : w.links.Represents q) (hloose : q.Loose eb)
    (hevent : seEvent (w.core.type (w.core.block eb).event) = true)
    (hfuel : (q s .active).length < fuel) :
    ∃ w' l, w.insertActive fuel s eb = some w' ∧ w'.links.Represents (q.set s .active l) ∧
      (w.core.KeepsActive eb (q s .active) l ↔ (q s .active).Pairwise fun a b =>
        w.core.Beats eb (q s .active) b → w.core.Beats eb (q s .active) a) := by
  have hload : SameBases w.core (w.core.loadDer eb) := by
    unfold Core.loadDer
    dsimp only
    split
    · exact SameBases.modifyBlock (f := fun e =>
        { e with der := w.core.derBase (w.core.block eb).event }) fun _ => rfl
    · exact (SameModes.refl _).toSameBases
  obtain ⟨w₁, gone, l, hloop, hsplit, hrep, hbases, hl, hlast⟩ := insertActiveLoop_rest (u := [])
    (w := ⟨w.links, w.core.loadDer eb⟩) hr rfl (hr.linked s .active) hfuel
  rw [List.nil_append] at hsplit
  have hebl : eb ∉ l := fun h => hloose s .active (hsplit ▸ List.mem_append_right gone h)
  have hfilter : l.filter (fun a => a ≠ eb) = l :=
    List.filter_eq_self.mpr fun a ha => decide_eq_true fun he => hebl (he ▸ ha)
  have hkept := filter_gone (p := w.core.Beats eb (q s .active)) hl hlast
  rw [← hsplit] at hkept
  unfold insertActive
  dsimp only at hloop ⊢
  rw [hloop]
  cases hlost : yielded ((w.core.loadDer eb).contest eb (q s .active)) with
  | true =>
    refine ⟨w₁, l, rfl, hrep, ?_⟩
    rw [← hkept]
    constructor
    · rintro ⟨hkeeps, -⟩
      rw [← hkeeps, hfilter]
    · rintro heq
      refine ⟨by rw [hfilter, heq], ?_⟩
      rw [if_pos (show w.core.Yields eb (q s .active) from hlost)]
      exact List.count_eq_zero.mpr hebl
  | false =>
    have hown : ¬w.core.Yields eb (q s .active) := by
      unfold Core.Yields
      rw [hlost]
      exact Bool.false_ne_true
    have htype : seEvent (w₁.core.type (w₁.core.block eb).event) = true := by
      have hall := hload.trans hbases
      rw [hall.event, hall.type]
      exact hevent
    obtain ⟨c₂, hstart⟩ := startBlock_returns fuel s htype
    have hlength : l.length < fuel := by
      have := congrArg List.length hsplit
      rw [List.length_append] at this
      omega
    have hlinked := hrep.linked s .active
    rw [Board.set_same] at hlinked
    have hsome : (Chain.insertSorted fuel w₁.links.next (w₁.links.head s .active) eb
        c₂.compareEnd).isSome := Chain.insertSorted_total hlinked hlength
    obtain ⟨k, hk⟩ := Option.isSome_iff_exists.mp hsome
    have hinsert : w₁.links.insertSorted fuel s .active eb c₂.compareEnd =
        some ({ w₁.links with next := k.1 }.setHead s .active k.2) := by
      unfold Links.insertSorted
      rw [hk]
      rfl
    have hplaced := hrep.insertSorted (hloose.set hebl) hinsert
    rw [Board.set_set, Board.set_same] at hplaced
    refine ⟨⟨_, c₂⟩, Chain.place c₂.compareEnd eb l, ?_, hplaced, ?_⟩
    · rw [Option.bind_eq_bind, Option.bind_some]
      dsimp only
      rw [if_neg Bool.false_ne_true, hstart, Option.bind_eq_bind, Option.bind_some, hinsert]
      rfl
    · have hplace : (Chain.place c₂.compareEnd eb l).filter (fun a => a ≠ eb) = l := by
        unfold Chain.place
        rw [List.filter_append, List.filter_cons_of_neg (by simp), ← List.filter_append,
          List.takeWhile_append_dropWhile, hfilter]
      rw [← hkept]
      constructor
      · rintro ⟨hkeeps, -⟩
        rw [← hkeeps, hplace]
      · rintro heq
        refine ⟨by rw [hplace, heq], ?_⟩
        rw [if_neg hown]
        exact List.count_eq_one_of_mem (Chain.place_nodup (hsplit ▸ hr.nodup s .active :
          (gone ++ l).Nodup).of_append_right hebl) (Chain.mem_place.mpr (Or.inl rfl))

end World

/-! ## A block that is passed -/

/-- The blocks of two controls with one mode each are in the `active` queue.  A third one is newer
and has the mode of the second. -/
def passedControls : World :=
  let flags := fun e => if e = 0 then 1 else if e = 1 then 2 else 6
  let w := World.boot (fun e =>
    { Stub.control e .active 100 100 with
      data := (Stub.control e .active 100 100).data.map fun d =>
        { d with creationTime := e, controlFlags := flags e } }) 150
  { links := ⟨fun b => if b = 0 then some 1 else none,
      fun s n => if s = 0 ∧ n = .active then some 0 else none⟩
    core := { w.core with
      block := fun b => { event := b, der := flags b }, freshBlock := 3 } }

/-- The queues of `passedControls`. -/
def passedBoard : Board := fun s n => if s = 0 ∧ n = .active then [0, 1] else []

theorem passedControls_represents : passedControls.links.Represents passedBoard := by
  refine ⟨fun s n => ?_, fun s n => ?_, ?_⟩
  · unfold passedControls passedBoard
    dsimp only
    split
    · exact ⟨rfl, rfl, rfl⟩
    · exact rfl
  · unfold passedBoard
    split
    · decide
    · exact List.nodup_nil
  · unfold passedBoard
    intro b s n s' n' hb hb'
    split at hb
    · rename_i h
      split at hb'
      · rename_i h'
        exact ⟨h.1.trans h'.1.symm, h.2.trans h'.2.symm⟩
      · exact absurd hb' List.not_mem_nil
    · exact absurd hb List.not_mem_nil

theorem passedBoard_loose : passedBoard.Loose 2 := by
  intro s n
  unfold passedBoard
  split
  · decide
  · exact List.not_mem_nil

theorem insertActive_keeps_passed : ∃ w' l, passedControls.insertActive 3 0 2 = some w' ∧
    w'.links.Represents (passedBoard.set 0 .active l) ∧
      (passedControls.core.KeepsActive 2 [0, 1] l ↔ [0, 1].Pairwise fun a b =>
        passedControls.core.Beats 2 [0, 1] b → passedControls.core.Beats 2 [0, 1] a) :=
  World.insertActive_keeps (s := 0) passedControls_represents passedBoard_loose rfl (by decide)

/-- The first block is lost with the second. -/
theorem not_keepsActive : ∃ h : (passedControls.insertActive 3 0 2).isSome = true,
    ((passedControls.insertActive 3 0 2).get h).queue 0 .active = [2] ∧
      passedControls.queue 0 .active = [0, 1] ∧
        ¬passedControls.core.KeepsActive 2 [0, 1] [2] := by
  refine ⟨by decide, by decide, by decide, fun h => ?_⟩
  have hkept := h.kept
  exact absurd hkept (by decide)

end SeClient
