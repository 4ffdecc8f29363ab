import SeClient.EventQueue
import SeClient.Transition

/-!
# The cells of the event queue

`event.c` on the cells that `insert_event` allocates: the immediate queue has a pointer to its
last cell, the timed queue is a sorted list.  The lists of `EventQueue` are what these cells
represent (`Mirrors`).
-/

namespace SeClient
open Chain Transition

/-- The memory of `event.c`: the queue `im_event` and the list `cur_event`. -/
structure EventCells where
  next : ℕ → Option ℕ := fun _ => none
  event : ℕ → Event
  first : Option ℕ := none
  last : Option ℕ := none
  cur : Option ℕ := none
  fresh : ℕ := 0

namespace EventCells
variable (m : EventCells)

/-- `event_compare` -/
def compare (a b : ℕ) : Int := Core.eventCompare (m.event a) (m.event b)

/-- `type_alloc (Event)`, filled in. -/
def alloc (e : Event) : EventCells :=
  { m with
    next := Function.update m.next m.fresh none
    event := Function.update m.event m.fresh e
    fresh := m.fresh + 1 }

/-- `queue_add (&im_event, e)` -/
def queueAdd (e : ℕ) : EventCells :=
  match m.last with
  | some l => { m with next := Function.update m.next l (some e), last := some e }
  | none => { m with first := some e, last := some e }

/-- `insert_event` -/
def insertEvent (fuel : ℕ) (e : Event) : Option EventCells :=
  let c := m.alloc e
  if e.time = 0 then some (c.queueAdd m.fresh)
  else (insertSorted fuel c.next c.cur m.fresh c.compare).map fun r =>
    { c with next := r.1, cur := r.2 }

/-- `remove_event` -/
def removeEvent (fuel : ℕ) (data : EventData) : Option EventCells := do
  let p := fun b => decide ((m.event b).data = data)
  let (next, first, last) ← removeIf p fuel m.next m.first none m.first
  let (next, cur, _) ← removeIf p fuel next m.cur none m.cur
  some { m with next := next, first := first, last := last, cur := cur }

/-- `queue_remove (&im_event)`, for a queue with the first cell `e`. -/
def queueRemove (e : ℕ) : EventCells :=
  if m.first = m.last then { m with first := none, last := none }
  else { m with first := m.next e }

/-- `next_event`: the cell of the event that is delivered. -/
def nextEvent (now : Int) : EventCells × Option ℕ :=
  match m.first with
  | some e => (m.queueRemove e, some e)
  | none =>
    match m.cur with
    | some e => if (m.event e).time ≤ now then ({ m with cur := m.next e }, some e) else (m, none)
    | none => (m, none)

/-- The lists of cells that the two queues are made of. -/
structure Represents (im cur : List ℕ) : Prop where
  head : Linked m.next m.first im
  last : m.last = im.getLast?
  sorted : Linked m.next m.cur cur
  nodup : (im ++ cur).Nodup
  fresh : ∀ b ∈ im ++ cur, b < m.fresh
  immediate : ∀ b ∈ im, (m.event b).time = 0
  timed : ∀ b ∈ cur, (m.event b).time ≠ 0

section Specifications
variable {m m' : EventCells} {im cur : List ℕ} {e : Event} {fuel : ℕ} {data : EventData}

theorem Represents.alloc (h : m.Represents im cur) : (m.alloc e).Represents im cur := by
  have hlt : ∀ b ∈ im ++ cur, b ≠ m.fresh := fun b hb => Nat.ne_of_lt (h.fresh b hb)
  have hevent : ∀ b ∈ im ++ cur, (m.alloc e).event b = m.event b := fun b hb =>
    Function.update_of_ne (hlt b hb) _ _
  exact {
    head := h.head.congr fun b hb =>
      Function.update_of_ne (hlt b (List.mem_append_left _ hb)) _ _
    last := h.last
    sorted := h.sorted.congr fun b hb =>
      Function.update_of_ne (hlt b (List.mem_append_right _ hb)) _ _
    nodup := h.nodup
    fresh := fun b hb => Nat.lt_succ_of_lt (h.fresh b hb)
    immediate := fun b hb => by
      rw [hevent b (List.mem_append_left _ hb)]
      exact h.immediate b hb
    timed := fun b hb => by
      rw [hevent b (List.mem_append_right _ hb)]
      exact h.timed b hb }

/-- A cell goes to the end of the immediate queue. -/
theorem Represents.queueAdd {b : ℕ} (h : m.Represents im cur) (hb : b ∉ im ++ cur)
    (hnone : m.next b = none) (hfresh : b < m.fresh) (h0 : (m.event b).time = 0) :
    (m.queueAdd b).Represents (im ++ [b]) cur ∧ (m.queueAdd b).event = m.event ∧
      (m.queueAdd b).fresh = m.fresh := by
  have hbi : b ∉ im := fun hbi => hb (List.mem_append_left _ hbi)
  have hbc : b ∉ cur := fun hbc => hb (List.mem_append_right _ hbc)
  have hnodup : (im ++ [b] ++ cur).Nodup := by
    rw [List.append_assoc, List.singleton_append]
    exact (List.perm_middle.nodup_iff).mpr (List.nodup_cons.mpr ⟨hb, h.nodup⟩)
  have hlt : ∀ c ∈ im ++ [b] ++ cur, c < m.fresh := by
    intro c hc
    simp only [List.mem_append, List.mem_singleton] at hc
    rcases hc with (hc | rfl) | hc
    · exact h.fresh c (List.mem_append_left _ hc)
    · exact hfresh
    · exact h.fresh c (List.mem_append_right _ hc)
  have himm : ∀ c ∈ im ++ [b], (m.event c).time = 0 := by
    intro c hc
    rcases List.mem_append.mp hc with hc | hc
    · exact h.immediate c hc
    · rw [List.mem_singleton.mp hc]
      exact h0
  have hlast := h.last
  unfold EventCells.queueAdd
  cases hl : m.last with
  | none =>
    have him : im = [] := by
      rw [hl] at hlast
      exact List.getLast?_eq_none_iff.mp hlast.symm
    subst him
    exact ⟨⟨⟨rfl, hnone⟩, rfl, h.sorted, hnodup, hlt, himm, h.timed⟩, rfl, rfl⟩
  | some l =>
    rw [hl] at hlast
    have hlim : l ∈ im := List.mem_of_getLast? hlast.symm
    obtain ⟨hnd, -, hd⟩ := List.nodup_append.mp h.nodup
    have hsome : Linked m.next (some b) [b] := ⟨rfl, hnone⟩
    have hrelink := Linked.relink (l := im) (r := []) (by simpa using h.head) hnd hsome
      fun c hc hcb => hbi (List.mem_singleton.mp hcb ▸ hc)
    rw [← hlast] at hrelink
    refine ⟨⟨hrelink, by simp, h.sorted.congr fun c hc => ?_, hnodup, hlt, himm, h.timed⟩, rfl, rfl⟩
    exact Function.update_of_ne (fun hcl : c = l => hd l hlim c hc hcl.symm) _ _

/-- **`insert_event`.** -/
theorem insertEvent_spec (h : m.Represents im cur) (hres : m.insertEvent fuel e = some m') :
    m'.event = Function.update m.event m.fresh e ∧ m'.fresh = m.fresh + 1 ∧
      if e.time = 0 then m'.Represents (im ++ [m.fresh]) cur
      else m'.Represents im (place m'.compare m.fresh cur) := by
  have halloc := h.alloc (e := e)
  have hnot : m.fresh ∉ im ++ cur := fun hb => Nat.lt_irrefl _ (h.fresh _ hb)
  unfold insertEvent at hres
  dsimp only at hres
  split at hres
  · rename_i h0
    obtain rfl := Option.some.inj hres
    obtain ⟨hrep, hevent, hfresh⟩ := halloc.queueAdd hnot (Function.update_self _ _ _)
      (Nat.lt_succ_self _) (by simpa [alloc] using h0)
    refine ⟨hevent, hfresh, ?_⟩
    rw [if_pos h0]
    exact hrep
  · rename_i h0
    obtain ⟨⟨next, head⟩, hins, rfl⟩ := Option.map_eq_some_iff.mp hres
    obtain ⟨hnd, hnd', hd⟩ := List.nodup_append.mp h.nodup
    have hnotc : m.fresh ∉ cur := fun hb => hnot (List.mem_append_right _ hb)
    obtain ⟨hlinked, hframe⟩ := insertSorted_spec halloc.sorted hnd' hnotc hins
    refine ⟨rfl, rfl, ?_⟩
    rw [if_neg h0]
    have hmem : ∀ b ∈ im ++ place (m.alloc e).compare m.fresh cur,
        b = m.fresh ∨ b ∈ im ++ cur := by
      intro b hb
      simp only [List.mem_append, mem_place] at hb ⊢
      tauto
    exact {
      head := halloc.head.congr fun b hb => hframe b fun hbc => by
        rcases List.mem_cons.mp hbc with rfl | hbc
        · exact hnot (List.mem_append_left _ hb)
        · exact hd b hb b hbc rfl
      last := h.last
      sorted := hlinked
      nodup := by
        refine List.nodup_append.mpr ⟨hnd, place_nodup hnd' hnotc, fun b hb c hc hbc => ?_⟩
        subst hbc
        rcases mem_place.mp hc with rfl | hc
        · exact hnot (List.mem_append_left _ hb)
        · exact hd b hb b hc rfl
      fresh := fun b hb => by
        rcases hmem b hb with rfl | hb
        · exact Nat.lt_succ_self _
        · exact Nat.lt_succ_of_lt (h.fresh b hb)
      immediate := halloc.immediate
      timed := fun b hb => by
        rcases mem_place.mp hb with rfl | hb
        · simpa [alloc] using h0
        · exact halloc.timed b hb }

/-- **`remove_event`.** -/
theorem removeEvent_spec (h : m.Represents im cur) (hres : m.removeEvent fuel data = some m') :
    m'.event = m.event ∧ m'.fresh = m.fresh ∧
      m'.Represents (im.filter fun b => (m.event b).data ≠ data)
        (cur.filter fun b => (m.event b).data ≠ data) := by
  unfold removeEvent at hres
  simp only [Option.bind_eq_bind, Option.bind_eq_some_iff, Option.some.injEq] at hres
  obtain ⟨⟨next₁, first, last⟩, him, ⟨next₂, head, _⟩, hcur, rfl⟩ := hres
  obtain ⟨hnd, hnd', hd⟩ := List.nodup_append.mp h.nodup
  obtain ⟨hfirst, hlast, hframe⟩ := removeIf_spec h.head hnd him
  have hcur₁ : Linked next₁ m.cur cur := h.sorted.congr fun b hb =>
    hframe b fun hbi => hd b hbi b hb rfl
  obtain ⟨hcur₂, -, hframe₂⟩ := removeIf_spec hcur₁ hnd' hcur
  simp only [← decide_not] at hfirst hlast hcur₂
  have hsub : ∀ (l : List ℕ) b, b ∈ l.filter (fun b => (m.event b).data ≠ data) → b ∈ l :=
    fun l b hb => List.mem_of_mem_filter hb
  refine ⟨rfl, rfl, ?_⟩
  exact {
    head := hfirst.congr fun b hb => hframe₂ b fun hbc => hd b (hsub im b hb) b hbc rfl
    last := hlast
    sorted := hcur₂
    nodup := List.nodup_append.mpr ⟨hnd.filter _, hnd'.filter _,
      fun b hb c hc => hd b (hsub im b hb) c (hsub cur c hc)⟩
    fresh := fun b hb => h.fresh b <| by
      rcases List.mem_append.mp hb with hb | hb
      · exact List.mem_append_left _ (hsub im b hb)
      · exact List.mem_append_right _ (hsub cur b hb)
    immediate := fun b hb => h.immediate b (hsub im b hb)
    timed := fun b hb => h.timed b (hsub cur b hb) }

theorem insertEvent_total (h : m.Represents im cur) (hf : cur.length < fuel) :
    (m.insertEvent fuel e).isSome := by
  have hsorted := (h.alloc (e := e)).sorted
  unfold insertEvent
  dsimp only
  split
  · rfl
  · rw [Option.isSome_map]
    exact insertSorted_total hsorted hf

theorem removeEvent_total (h : m.Represents im cur) (hf : im.length + cur.length < fuel) :
    (m.removeEvent fuel data).isSome := by
  obtain ⟨hnd, hnd', hd⟩ := List.nodup_append.mp h.nodup
  obtain ⟨⟨next, first, last⟩, him⟩ := Option.isSome_iff_exists.mp
    (removeIf_total (p := fun b => decide ((m.event b).data = data)) h.head hnd
      (Nat.lt_of_le_of_lt (Nat.le_add_right _ _) hf))
  obtain ⟨-, -, hframe⟩ := removeIf_spec h.head hnd him
  have hcur : Linked next m.cur cur := h.sorted.congr fun b hb =>
    hframe b fun hbi => hd b hbi b hb rfl
  obtain ⟨r, hr⟩ := Option.isSome_iff_exists.mp
    (removeIf_total (p := fun b => decide ((m.event b).data = data)) hcur hnd'
      (Nat.lt_of_le_of_lt (Nat.le_add_left _ _) hf))
  simp only [removeEvent, Option.bind_eq_bind, him, Option.bind_some, hr, Option.isSome_some]

/-- What `next_event` delivers. -/
inductive Delivery (m : EventCells) (now : Int) : List ℕ → List ℕ → Option ℕ → List ℕ → List ℕ →
    Prop
  | immediate {b : ℕ} {im cur : List ℕ} : Delivery m now (b :: im) cur (some b) im cur
  | due {b : ℕ} {cur : List ℕ} : (m.event b).time ≤ now →
      Delivery m now [] (b :: cur) (some b) [] cur
  | early {b : ℕ} {cur : List ℕ} : ¬(m.event b).time ≤ now →
      Delivery m now [] (b :: cur) none [] (b :: cur)
  | empty : Delivery m now [] [] none [] []

/-- **`next_event`.** -/
theorem nextEvent_spec (h : m.Represents im cur) (now : Int) :
    (m.nextEvent now).1.event = m.event ∧ (m.nextEvent now).1.fresh = m.fresh ∧
      ∃ im' cur', Delivery m now im cur (m.nextEvent now).2 im' cur' ∧
        (m.nextEvent now).1.Represents im' cur' := by
  unfold nextEvent
  cases im with
  | cons b im =>
    obtain ⟨hb, hfirst⟩ := h.head
    have hnodup : (im ++ cur).Nodup := (List.nodup_cons.mp h.nodup).2
    have hfresh : ∀ c ∈ im ++ cur, c < m.fresh := fun c hc => h.fresh c (List.mem_cons_of_mem _ hc)
    have himm : ∀ c ∈ im, (m.event c).time = 0 := fun c hc =>
      h.immediate c (List.mem_cons_of_mem _ hc)
    rw [hb]
    dsimp only
    unfold queueRemove
    split
    · rename_i heq
      have him : im = [] := by
        rw [hb, h.last] at heq
        cases im with
        | nil => rfl
        | cons c im =>
          rw [List.getLast?_cons_cons] at heq
          have hmem : b ∈ c :: im := List.mem_of_getLast? heq.symm
          exact absurd (List.mem_append_left _ hmem) (List.nodup_cons.mp h.nodup).1
      subst him
      exact ⟨rfl, rfl, [], cur, .immediate, rfl, rfl, h.sorted, hnodup, hfresh, himm, h.timed⟩
    · rename_i hne
      refine ⟨rfl, rfl, im, cur, .immediate, hfirst, ?_, h.sorted, hnodup, hfresh, himm, h.timed⟩
      cases im with
      | nil => exact absurd (by rw [hb, h.last]; rfl) hne
      | cons c im => rw [h.last, List.getLast?_cons_cons]
  | nil =>
    have hfirst : m.first = none := h.head
    rw [hfirst]
    cases cur with
    | nil =>
      have hcur : m.cur = none := h.sorted
      rw [hcur]
      exact ⟨rfl, rfl, [], [], .empty, h⟩
    | cons b cur =>
      obtain ⟨hb, hcur⟩ := h.sorted
      rw [hb]
      dsimp only
      split
      · rename_i hdue
        refine ⟨rfl, rfl, [], cur, .due hdue, rfl, h.last, hcur,
          (List.nodup_cons.mp h.nodup).2, fun c hc => h.fresh c (List.mem_cons_of_mem _ hc),
          h.immediate, fun c hc => h.timed c (List.mem_cons_of_mem _ hc)⟩
      · rename_i hearly
        exact ⟨rfl, rfl, [], b :: cur, .early hearly, h⟩

/-! ## The lists of the event queue -/

theorem map_place {α β : Type*} (f : α → β) (cmp : β → β → Int) (a : α) (l : List α) :
    (place (fun a b => cmp (f a) (f b)) a l).map f = place cmp (f a) (l.map f) := by
  simp only [place, List.map_append, List.map_cons, List.takeWhile_map, List.dropWhile_map]
  rfl

/-- The cells hold the event queue of the client. -/
def Mirrors (m : EventCells) (c : Core) : Prop :=
  ∃ im cur, m.Represents im cur ∧ c.imEvent = im.map m.event ∧ c.curEvent = cur.map m.event

variable {c : Core}

theorem Mirrors.insertEvent (h : m.Mirrors c) (hres : m.insertEvent fuel e = some m') :
    m'.Mirrors (c.insertEvent e.data e.type e.time) := by
  obtain ⟨im, cur, hrep, him, hcur⟩ := h
  obtain ⟨hevent, -, hspec⟩ := insertEvent_spec hrep hres
  have hmap : ∀ l : List ℕ, (∀ b ∈ l, b < m.fresh) → l.map m'.event = l.map m.event := by
    intro l hl
    refine List.map_congr_left fun b hb => ?_
    rw [hevent, Function.update_of_ne (Nat.ne_of_lt (hl b hb))]
  have himm := hmap im fun b hb => hrep.fresh b (List.mem_append_left _ hb)
  have hcurr := hmap cur fun b hb => hrep.fresh b (List.mem_append_right _ hb)
  have hnew : m'.event m.fresh = e := by rw [hevent, Function.update_self]
  unfold Core.insertEvent
  dsimp only
  split
  · rename_i h0
    rw [if_pos h0] at hspec
    exact ⟨_, _, hspec, by simp [him, himm, hnew], by rw [hcur, hcurr]⟩
  · rename_i h0
    rw [if_neg h0] at hspec
    refine ⟨_, _, hspec, by rw [him, himm], ?_⟩
    have hplace := map_place m'.event Core.eventCompare m.fresh cur
    rw [hnew, hcurr] at hplace
    rw [hcur, ← hplace]
    rfl

theorem Mirrors.removeEvent (h : m.Mirrors c) (hres : m.removeEvent fuel data = some m') :
    m'.Mirrors (c.removeEvent data) := by
  obtain ⟨im, cur, hrep, him, hcur⟩ := h
  obtain ⟨hevent, -, hspec⟩ := removeEvent_spec hrep hres
  refine ⟨_, _, hspec, ?_, ?_⟩
  · simp only [Core.removeEvent, him, hevent, List.filter_map]
    rfl
  · simp only [Core.removeEvent, hcur, hevent, List.filter_map]
    rfl

theorem Mirrors.nextEvent (h : m.Mirrors c) :
    (m.nextEvent c.seTime).1.Mirrors c.nextEvent.1 ∧
      (m.nextEvent c.seTime).2.map m.event = c.nextEvent.2 := by
  obtain ⟨im, cur, hrep, him, hcur⟩ := h
  obtain ⟨hevent, -, im', cur', hdelivery, hrep'⟩ := nextEvent_spec hrep c.seTime
  generalize hn : (m.nextEvent c.seTime).2 = next at hdelivery ⊢
  unfold Mirrors
  rw [hevent]
  cases hdelivery with
  | immediate =>
    rw [List.map_cons] at him
    exact ⟨⟨_, _, hrep', by simp [Core.nextEvent, him], by simp [Core.nextEvent, him, hcur]⟩,
      by simp [Core.nextEvent, him]⟩
  | due hdue =>
    rw [List.map_nil] at him
    rw [List.map_cons] at hcur
    exact ⟨⟨_, _, hrep', by simp [Core.nextEvent, him, hcur, hdue],
      by simp [Core.nextEvent, him, hcur, hdue]⟩, by simp [Core.nextEvent, him, hcur, hdue]⟩
  | early hearly =>
    rw [List.map_nil] at him
    rw [List.map_cons] at hcur
    exact ⟨⟨_, _, hrep', by simp [Core.nextEvent, him, hcur, hearly],
      by simp [Core.nextEvent, him, hcur, hearly]⟩, by simp [Core.nextEvent, him, hcur, hearly]⟩
  | empty =>
    rw [List.map_nil] at him hcur
    exact ⟨⟨_, _, hrep', by simp [Core.nextEvent, him, hcur], by simp [Core.nextEvent, him, hcur]⟩,
      by simp [Core.nextEvent, him, hcur]⟩

end Specifications
end EventCells
end SeClient
