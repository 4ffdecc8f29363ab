import Mathlib.Data.List.Induction
import SeClient.EventCells

/-!
# Delivery of events

Runs of `insert_event`, `remove_event` and `next_event` while the clock goes on.  The history
of a run tells which events are waiting: those inserted and since then neither removed nor
delivered.

**Delivery** (`delivers`): `next_event` takes events from those waiting only, immediate ones in
the order of their insertion and timed ones when they are due, and says that there is none only
when none is, as long as `event_compare` tells the order of the times it is asked about.
-/

namespace SeClient
open Chain Transition

/-- A call, with the cell of the event as its name. -/
inductive QueueAct
  | insert (id : ℕ) (e : Event)
  | remove (data : EventData)
  | deliver (id : ℕ) (e : Event) (now : Int)
  | idle (now : Int)
  | clock
deriving DecidableEq, Repr

/-- The event queue and the clock. -/
structure TimedQueue where
  cells : EventCells
  now : Int

/-- What can happen. -/
inductive QueueStep : TimedQueue → QueueAct → TimedQueue → Prop
  | insert {q : TimedQueue} {m : EventCells} (fuel : ℕ) (e : Event) :
      q.cells.insertEvent fuel e = some m →
      QueueStep q (.insert q.cells.fresh e) { q with cells := m }
  | remove {q : TimedQueue} {m : EventCells} (fuel : ℕ) (data : EventData) :
      q.cells.removeEvent fuel data = some m → QueueStep q (.remove data) { q with cells := m }
  | deliver {q : TimedQueue} {m : EventCells} {b : ℕ} : q.cells.nextEvent q.now = (m, some b) →
      QueueStep q (.deliver b (q.cells.event b) q.now) { q with cells := m }
  | idle {q : TimedQueue} {m : EventCells} : q.cells.nextEvent q.now = (m, none) →
      QueueStep q (.idle q.now) { q with cells := m }
  | clock {q : TimedQueue} (now : Int) : q.now ≤ now → QueueStep q .clock { q with now := now }

namespace QueueAct

/-- What a call does to the events that are waiting. -/
def note (w : List (ℕ × Event)) : QueueAct → List (ℕ × Event)
  | insert id e => w ++ [(id, e)]
  | remove data => w.filter fun x => x.2.data ≠ data
  | deliver id _ _ => w.filter fun x => x.1 ≠ id
  | idle _ | clock => w

/-- The events that are waiting after a history, in the order of their insertion. -/
def waiting (ls : List QueueAct) : List (ℕ × Event) := ls.foldl note []

/-- What `next_event` does is right where the events `w` are waiting. -/
def Right (w : List (ℕ × Event)) : QueueAct → Prop
  | deliver id e now => (id, e) ∈ w ∧ (e.time = 0 ∨ e.time ≤ now) ∧
      (e.time = 0 → (w.filter fun x => x.2.time = 0).head? = some (id, e))
  | idle now => ∀ x ∈ w, x.2.time ≠ 0 ∧ now < x.2.time
  | _ => True

/-- `event_compare` tells which of the new event and a timed event that is waiting is the
later one. -/
def Told (w : List (ℕ × Event)) : QueueAct → Prop
  | insert _ e => e.time ≠ 0 → ∀ x ∈ w, x.2.time ≠ 0 →
      (0 < Core.eventCompare e x.2 ↔ x.2.time < e.time)
  | _ => True

/-- `Told` for every call of a history that goes on where `w` are waiting. -/
def AllTold : List (ℕ × Event) → List QueueAct → Prop
  | _, [] => True
  | w, act :: ls => Told w act ∧ AllTold (note w act) ls

instance (w : List (ℕ × Event)) : DecidablePred (Told w) := fun act => by
  cases act <;> unfold Told <;> infer_instance

instance decidableAllTold : ∀ (w : List (ℕ × Event)) (ls : List QueueAct),
    Decidable (AllTold w ls)
  | _, [] => isTrue trivial
  | w, act :: ls =>
    have := decidableAllTold (note w act) ls
    inferInstanceAs (Decidable (Told w act ∧ AllTold (note w act) ls))

theorem allTold_append {w : List (ℕ × Event)} {ls ms : List QueueAct} :
    AllTold w (ls ++ ms) ↔ AllTold w ls ∧ AllTold (ls.foldl note w) ms := by
  induction ls generalizing w with
  | nil => exact (iff_of_eq (true_and _)).symm
  | cons act ls ih => simp only [List.cons_append, AllTold, ih, List.foldl_cons, and_assoc]

theorem waiting_snoc {ls : List QueueAct} {act : QueueAct} :
    waiting (ls ++ [act]) = note (waiting ls) act := by
  simp [waiting]

/-- **What waiting means.** -/
theorem mem_waiting {ls : List QueueAct} {id : ℕ} {e : Event} :
    (id, e) ∈ waiting ls ↔ ∃ past future, ls = past ++ insert id e :: future ∧
      remove e.data ∉ future ∧ ∀ e' now, deliver id e' now ∉ future := by
  induction ls using List.reverseRecOn with
  | nil => simp [waiting]
  | append_singleton ls act ih =>
    have hkeep : (∃ past future, ls ++ [act] = past ++ insert id e :: future ∧
        remove e.data ∉ future ∧ ∀ e' now, deliver id e' now ∉ future) ↔
        act = insert id e ∨ ((id, e) ∈ waiting ls ∧ act ≠ remove e.data ∧
          ∀ e' now, act ≠ deliver id e' now) := by
      rw [ih]
      constructor
      · rintro ⟨past, future, hsplit, hr, hd⟩
        rcases List.eq_nil_or_concat future with rfl | ⟨future, act', rfl⟩
        · exact .inl (List.cons.inj (List.append_inj' hsplit rfl).2).1
        · rw [List.concat_eq_append, ← List.cons_append, ← List.append_assoc] at hsplit
          obtain ⟨hls, hact⟩ := List.append_inj' hsplit rfl
          obtain rfl := (List.cons.inj hact).1
          rw [List.concat_eq_append] at hr hd
          simp only [List.mem_append, List.mem_singleton, not_or] at hr hd
          exact .inr ⟨⟨past, future, hls, hr.1, fun e' now => (hd e' now).1⟩,
            fun h => hr.2 h.symm, fun e' now h => (hd e' now).2 h.symm⟩
      · rintro (rfl | ⟨⟨past, future, rfl, hr, hd⟩, hr', hd'⟩)
        · exact ⟨ls, [], rfl, by simp, by simp⟩
        · refine ⟨past, future ++ [act], by simp, ?_, fun e' now => ?_⟩
          · simpa [hr] using fun h : remove e.data = act => hr' h.symm
          · simpa [hd] using fun h : deliver id e' now = act => hd' e' now h.symm
    rw [waiting_snoc, hkeep]
    cases act with
    | insert id' e' => grind [note]
    | remove data => grind [note]
    | deliver id' e' now => grind [note]
    | idle now => simp [note]
    | clock => simp [note]

end QueueAct

namespace TimedQueue
open QueueAct

/-- The cells of the two queues hold what is waiting, timed events in their order. -/
structure Holds (q : TimedQueue) (w : List (ℕ × Event)) (im cur : List ℕ) : Prop where
  cells : q.cells.Represents im cur
  sorted : cur.Pairwise fun a b => (q.cells.event a).time ≤ (q.cells.event b).time
  immediate : (w.filter fun x => x.2.time = 0) = im.map fun b => (b, q.cells.event b)
  timed : (w.filter fun x => x.2.time ≠ 0).Perm (cur.map fun b => (b, q.cells.event b))

section Steps
variable {q q' : TimedQueue} {w : List (ℕ × Event)} {im cur : List ℕ} {act : QueueAct}

theorem Holds.mem (h : q.Holds w im cur) {x : ℕ × Event} :
    x ∈ w ↔ x.2 = q.cells.event x.1 ∧ x.1 ∈ im ++ cur := by
  have hsplit : x ∈ w ↔ x ∈ (w.filter fun x => x.2.time = 0) ∨
      x ∈ (w.filter fun x => x.2.time ≠ 0) := by
    by_cases h0 : x.2.time = 0 <;> simp [h0]
  rw [hsplit, h.immediate, h.timed.mem_iff, ← List.mem_append, ← List.map_append, List.mem_map]
  constructor
  · rintro ⟨b, hb, rfl⟩
    exact ⟨rfl, hb⟩
  · rintro ⟨hx, hb⟩
    exact ⟨x.1, hb, by rw [← hx]⟩

theorem map_event_congr {m m' : EventCells} {l : List ℕ} (h : ∀ b ∈ l, m'.event b = m.event b) :
    (l.map fun b => (b, m'.event b)) = l.map fun b => (b, m.event b) :=
  List.map_congr_left fun b hb => by rw [h b hb]

theorem told_compare {id : ℕ} {e : Event} {x : ℕ × Event} (h : Told w (.insert id e))
    (h0 : e.time ≠ 0) (hx : x ∈ w) (hx0 : x.2.time ≠ 0) :
    0 < Core.eventCompare e x.2 ↔ x.2.time < e.time :=
  h h0 x hx hx0

theorem place_sorted {m : EventCells} {b : ℕ}
    (hcmp : ∀ a ∈ cur, 0 < m.compare b a ↔ (m.event a).time < (m.event b).time)
    (hsorted : cur.Pairwise fun a b => (m.event a).time ≤ (m.event b).time) :
    (place m.compare b cur).Pairwise fun a b => (m.event a).time ≤ (m.event b).time :=
  place_pairwise (fun b => (m.event b).time) hcmp hsorted

theorem Holds.insert {m : EventCells} {fuel : ℕ} {e : Event} (h : q.Holds w im cur)
    (htold : Told w (.insert q.cells.fresh e))
    (hres : q.cells.insertEvent fuel e = some m) :
    ∃ im' cur', Holds { q with cells := m } (note w (.insert q.cells.fresh e)) im' cur' := by
  obtain ⟨hevent, -, hspec⟩ := EventCells.insertEvent_spec h.cells hres
  have hold : ∀ b ∈ im ++ cur, m.event b = q.cells.event b := fun b hb => by
    rw [hevent, Function.update_of_ne (Nat.ne_of_lt (h.cells.fresh b hb))]
  have hnew : m.event q.cells.fresh = e := by rw [hevent, Function.update_self]
  have himm := map_event_congr fun b hb => hold b (List.mem_append_left _ hb)
  have hcurr := map_event_congr fun b hb => hold b (List.mem_append_right _ hb)
  have hsorted : cur.Pairwise fun a b => (m.event a).time ≤ (m.event b).time :=
    h.sorted.imp_of_mem fun {a b} ha hb hab => by
      rwa [hold a (List.mem_append_right _ ha), hold b (List.mem_append_right _ hb)]
  by_cases h0 : e.time = 0
  · rw [if_pos h0] at hspec
    refine ⟨_, _, hspec, hsorted, ?_, ?_⟩
    · rw [note, List.filter_append, h.immediate, List.map_append, ← himm]
      simp [h0, hnew]
    · rw [note, List.filter_append]
      simpa [h0, hcurr] using h.timed
  · rw [if_neg h0] at hspec
    refine ⟨_, _, hspec, ?_, ?_, ?_⟩
    · have hcmp : ∀ b ∈ cur, 0 < m.compare q.cells.fresh b ↔
          (m.event b).time < (m.event q.cells.fresh).time := by
        intro b hb
        have hb' := List.mem_append_right im hb
        have hx : (b, q.cells.event b) ∈ w := h.mem.2 ⟨rfl, hb'⟩
        have hsign := told_compare htold h0 hx (h.cells.timed b hb)
        rw [EventCells.compare, hnew, hold b hb']
        exact hsign
      show List.Pairwise (fun a b => (m.event a).time ≤ (m.event b).time)
        (place m.compare q.cells.fresh cur)
      exact place_sorted hcmp hsorted
    · rw [note, List.filter_append]
      simpa [h0, himm] using h.immediate
    · have hperm := (place_perm m.compare q.cells.fresh cur).map fun b => (b, m.event b)
      rw [List.map_cons, hnew, hcurr] at hperm
      refine List.Perm.trans ?_ hperm.symm
      rw [note, List.filter_append]
      simpa [h0] using h.timed.append_right [(q.cells.fresh, e)] |>.trans
        (List.perm_append_singleton _ _)

theorem Holds.remove {m : EventCells} {fuel : ℕ} {data : EventData} (h : q.Holds w im cur)
    (hres : q.cells.removeEvent fuel data = some m) :
    ∃ im' cur', Holds { q with cells := m } (note w (.remove data)) im' cur' := by
  obtain ⟨hevent, -, hspec⟩ := EventCells.removeEvent_spec h.cells hres
  have hcomm : ∀ p : ℕ × Event → Bool, (w.filter fun x => x.2.data ≠ data).filter p =
      (w.filter p).filter fun x => x.2.data ≠ data := fun p => by
    rw [List.filter_filter, List.filter_filter]
    exact List.filter_congr fun x _ => Bool.and_comm _ _
  refine ⟨_, _, hspec, ?_, ?_, ?_⟩
  · show List.Pairwise (fun a b => (m.event a).time ≤ (m.event b).time) _
    rw [hevent]
    exact h.sorted.filter _
  · show _ = List.map (fun b => (b, m.event b)) _
    rw [note, hcomm, h.immediate, hevent, List.filter_map]
    rfl
  · show List.Perm _ (List.map (fun b => (b, m.event b)) _)
    rw [note, hcomm, hevent]
    refine (h.timed.filter _).trans ?_
    rw [List.filter_map]
    exact List.Perm.refl _

/-- An event that is delivered leaves those waiting. -/
theorem filter_delivered {l : List ℕ} {b : ℕ} {ev : ℕ → Event} (hb : b ∉ l) :
    ((l.map fun b => (b, ev b)).filter fun x => x.1 ≠ b) = l.map fun b => (b, ev b) := by
  rw [List.filter_map, List.filter_eq_self.2]
  intro a ha
  simpa using fun hab : a = b => hb (hab ▸ ha)

theorem Holds.next {m : EventCells} {next : Option ℕ} (h : q.Holds w im cur)
    (hres : q.cells.nextEvent q.now = (m, next)) :
    match next with
    | some b => Right w (.deliver b (q.cells.event b) q.now) ∧
        ∃ im' cur', Holds { q with cells := m } (note w (.deliver b (q.cells.event b) q.now))
          im' cur' ∧ im.length + cur.length = im'.length + cur'.length + 1
    | none => Right w (.idle q.now) ∧ Holds { q with cells := m } w im cur := by
  obtain ⟨hevent, -, im', cur', hdelivery, hrep⟩ := EventCells.nextEvent_spec h.cells q.now
  rw [hres] at hevent hdelivery hrep
  dsimp only at hevent hdelivery hrep
  have hcomm : ∀ (b : ℕ) (p : ℕ × Event → Bool), (w.filter fun x => x.1 ≠ b).filter p =
      (w.filter p).filter fun x => x.1 ≠ b := fun b p => by
    rw [List.filter_filter, List.filter_filter]
    exact List.filter_congr fun x _ => Bool.and_comm _ _
  have hmem := @Holds.mem _ _ _ _ h
  have hnodup := h.cells.nodup
  have himm := h.immediate
  have htimed := h.timed
  have hsorted := h.sorted
  cases hdelivery with
  | @immediate b =>
    have hb : b ∉ im' ++ cur := (List.nodup_cons.mp hnodup).1
    have h0 := h.cells.immediate b List.mem_cons_self
    refine ⟨⟨hmem.2 ⟨rfl, List.mem_cons_self⟩, .inl h0, fun _ => ?_⟩, im', cur,
      ⟨hrep, ?_, ?_, ?_⟩, by simp only [List.length_cons]; omega⟩
    · rw [himm]
      rfl
    · show List.Pairwise (fun a b => (m.event a).time ≤ (m.event b).time) _
      rw [hevent]
      exact hsorted
    · show _ = List.map (fun b => (b, m.event b)) _
      rw [note, hcomm, himm, hevent, List.map_cons, List.filter_cons_of_neg (by simp)]
      exact filter_delivered fun hbi => hb (List.mem_append_left _ hbi)
    · show List.Perm _ (List.map (fun b => (b, m.event b)) _)
      rw [note, hcomm, hevent, ← filter_delivered fun hbc => hb (List.mem_append_right _ hbc)]
      exact htimed.filter _
  | @due b cur' hdue =>
    have hb : b ∉ cur' := (List.nodup_cons.mp hnodup).1
    have h0 := h.cells.timed b List.mem_cons_self
    refine ⟨⟨hmem.2 ⟨rfl, List.mem_cons_self⟩, .inr hdue, fun h0' => absurd h0' h0⟩, [], cur',
      ⟨hrep, ?_, ?_, ?_⟩, by simp only [List.length_cons, List.length_nil]; omega⟩
    · show List.Pairwise (fun a b => (m.event a).time ≤ (m.event b).time) _
      rw [hevent]
      exact (List.pairwise_cons.mp hsorted).2
    · show _ = List.map (fun b => (b, m.event b)) _
      rw [note, hcomm, himm]
      rfl
    · show List.Perm _ (List.map (fun b => (b, m.event b)) _)
      rw [note, hcomm, hevent, ← filter_delivered hb]
      refine (htimed.filter _).trans ?_
      rw [List.map_cons, List.filter_cons_of_neg (by simp)]
  | @early b cur hearly =>
    refine ⟨fun x hx => ?_, hrep, ?_, ?_, ?_⟩
    · obtain ⟨hxe, hxm⟩ := hmem.1 hx
      rw [List.nil_append] at hxm
      rw [hxe]
      refine ⟨h.cells.timed _ hxm, ?_⟩
      have hb : (q.cells.event b).time ≤ (q.cells.event x.1).time := by
        rcases List.mem_cons.mp hxm with hxb | hxc
        · rw [hxb]
        · exact (List.pairwise_cons.mp hsorted).1 _ hxc
      omega
    · show List.Pairwise (fun a b => (m.event a).time ≤ (m.event b).time) _
      rw [hevent]
      exact hsorted
    · show _ = List.map (fun b => (b, m.event b)) _
      rw [himm, hevent]
    · show List.Perm _ (List.map (fun b => (b, m.event b)) _)
      rw [hevent]
      exact htimed
  | empty =>
    refine ⟨fun x hx => ?_, hrep, List.Pairwise.nil, himm, htimed⟩
    exact absurd (hmem.1 hx).2 (by simp)

/-- **The step lemma.** -/
theorem Holds.step (h : q.Holds w im cur) (htold : Told w act) (hs : QueueStep q act q') :
    Right w act ∧ ∃ im' cur', q'.Holds (note w act) im' cur' := by
  cases hs with
  | insert fuel e hres => exact ⟨trivial, h.insert htold hres⟩
  | remove fuel data hres => exact ⟨trivial, h.remove hres⟩
  | deliver hres =>
    obtain ⟨hright, im', cur', hq', -⟩ := h.next hres
    exact ⟨hright, im', cur', hq'⟩
  | idle hres =>
    obtain ⟨hright, hq'⟩ := h.next hres
    exact ⟨hright, im, cur, hq'⟩
  | clock now _ => exact ⟨trivial, im, cur, h.cells, h.sorted, h.immediate, h.timed⟩

/-- `next_event`, called again and again, comes to an end. -/
theorem Holds.drain (n : ℕ) (h : q.Holds w im cur) (hn : im.length + cur.length = n) :
    ∃ ds q', Run QueueStep q (ds ++ [.idle q.now]) q' ∧
      ∀ d ∈ ds, ∃ id e, d = .deliver id e q.now := by
  induction n generalizing q w im cur with
  | zero =>
    obtain ⟨m, next, hres⟩ : ∃ m next, q.cells.nextEvent q.now = (m, next) := ⟨_, _, rfl⟩
    have hspec := h.next hres
    cases next with
    | some b =>
      obtain ⟨-, im', cur', -, hlen⟩ := hspec
      omega
    | none => exact ⟨[], _, Run.single (.idle hres), by simp⟩
  | succ n ih =>
    obtain ⟨m, next, hres⟩ : ∃ m next, q.cells.nextEvent q.now = (m, next) := ⟨_, _, rfl⟩
    have hspec := h.next hres
    cases next with
    | some b =>
      obtain ⟨-, im', cur', hq', hlen⟩ := hspec
      obtain ⟨ds, q', hrun, hds⟩ := ih hq' (by omega)
      refine ⟨.deliver b (q.cells.event b) q.now :: ds, q', Run.cons (.deliver hres) hrun, ?_⟩
      intro d hd
      rcases List.mem_cons.mp hd with rfl | hd
      · exact ⟨_, _, rfl⟩
      · exact hds d hd
    | none => exact ⟨[], _, Run.single (.idle hres), by simp⟩

end Steps

/-- The empty event queue. -/
def start (now : Int) : TimedQueue :=
  { cells := { event := fun _ => ⟨.device 0, .deviceSchedule, 0⟩ }, now := now }

theorem start_holds (now : Int) : (start now).Holds [] [] [] where
  cells := ⟨rfl, rfl, rfl, List.nodup_nil, by simp, by simp, by simp⟩
  sorted := List.Pairwise.nil
  immediate := rfl
  timed := List.Perm.refl _

/-- **The run lemma.** -/
theorem run_holds {now : Int} {ls : List QueueAct} {q : TimedQueue}
    (h : Run QueueStep (start now) ls q) (htold : AllTold [] ls) :
    ∃ im cur, q.Holds (waiting ls) im cur := by
  induction h with
  | nil => exact ⟨[], [], start_holds now⟩
  | snoc _ hs ih =>
    obtain ⟨hls, hact, -⟩ := allTold_append.1 htold
    obtain ⟨im, cur, hq⟩ := ih hls
    rw [waiting_snoc]
    exact (hq.step hact hs).2

/-- **Delivery.**  In every run in which `event_compare` tells the order of the times it is asked
about, `next_event` is right; called again and again, it comes to say that there is no event; and
the other calls return. -/
theorem delivers (now : Int) (ls : List QueueAct) (q : TimedQueue)
    (h : Run QueueStep (start now) ls q) (htold : AllTold [] ls) :
    (∀ past act future, ls = past ++ act :: future → Right (waiting past) act) ∧
      (∃ ds q', Run QueueStep q (ds ++ [.idle q.now]) q' ∧
        ∀ d ∈ ds, ∃ id e, d = .deliver id e q.now) ∧
      (∀ e, ∃ fuel, (q.cells.insertEvent fuel e).isSome) ∧
      ∀ data, ∃ fuel, (q.cells.removeEvent fuel data).isSome := by
  obtain ⟨im, cur, hq⟩ := run_holds h htold
  refine ⟨?_, hq.drain _ rfl, fun e => ?_, fun data => ?_⟩
  · rintro past act future rfl
    obtain ⟨t, t', hpast, hs, -⟩ := h.split
    obtain ⟨hold, hact, -⟩ := allTold_append.1 htold
    obtain ⟨im, cur, ht⟩ := run_holds hpast hold
    exact (ht.step hact hs).1
  · exact ⟨_, EventCells.insertEvent_total hq.cells (Nat.lt_succ_self _)⟩
  · exact ⟨_, EventCells.removeEvent_total hq.cells (Nat.lt_succ_self _)⟩

/-- The calls of a run that a clock reading of 10 ends. -/
def told : List QueueAct :=
  [.insert 0 ⟨.device 0, .deviceSchedule, 5⟩, .insert 1 ⟨.device 1, .deviceSchedule, 0⟩,
    .remove (.device 2), .deliver 1 ⟨.device 1, .deviceSchedule, 0⟩ 10]

theorem told_delivers :
    ∃ q, Run QueueStep (start 10) told q ∧ AllTold [] told ∧
      ∃ ds q', Run QueueStep q (ds ++ [.idle q.now]) q' := by
  obtain ⟨q, h⟩ : ∃ q, Run QueueStep (start 10) told q :=
    ⟨_, .cons (.insert 1 _ rfl) (.cons (.insert 1 _ rfl) (.cons (.remove 2 _ rfl)
      (.single (.deliver rfl))))⟩
  have htold : AllTold [] told := by decide
  obtain ⟨-, ⟨ds, q', hrun, -⟩, -⟩ := delivers 10 told q h htold
  exact ⟨q, h, htold, ds, q', hrun⟩

/-- Two events, the second of them 68 years after the first. -/
theorem not_delivers :
    ¬∀ (now : Int) (ls : List QueueAct) (q : TimedQueue), Run QueueStep (start now) ls q →
      ∀ past act future, ls = past ++ act :: future → Right (waiting past) act := by
  intro h
  have hrun : ∃ q, Run QueueStep (start 10) [.insert 0 ⟨.device 0, .deviceSchedule, 5⟩,
      .insert 1 ⟨.device 1, .deviceSchedule, 5 + 2 ^ 31⟩, .idle 10] q :=
    ⟨_, .cons (.insert 1 _ rfl) (.cons (.insert 2 _ rfl) (.single (.idle rfl)))⟩
  obtain ⟨q, hq⟩ := hrun
  have hidle := h 10 _ q hq [.insert 0 ⟨.device 0, .deviceSchedule, 5⟩,
    .insert 1 ⟨.device 1, .deviceSchedule, 5 + 2 ^ 31⟩] (.idle 10) [] rfl
  have hdue := hidle (0, ⟨.device 0, .deviceSchedule, 5⟩) (by decide)
  exact absurd hdue.2 (by decide)

end TimedQueue
end SeClient
