import Mathlib.Data.Set.Basic
import SeClient.Levels

/-!
# Polling

The poll rate of a Stub is an `int16_t`: `poll_derpl`, `time_sync` and `edev_complete` store a
number of 32 bits in it, `add_dep` the rate of a dependent if it is less.  `poll_resource` adds the
rate to the clock, and `der_poll` calls it for every poll that is due, and updates the resource,
before it looks at the queue again.
-/

namespace SeClient
open Transition

theorem toInt16_bounds (x : ℤ) : -32768 ≤ toInt16 x ∧ toInt16 x ≤ 32767 := by
  unfold toInt16
  rw [Int.bmod_def]
  omega

theorem toInt16_of_pos {x : ℤ} (h : 1 ≤ x) (h' : x ≤ 32767) : toInt16 x = x := by
  unfold toInt16
  rw [Int.bmod_def]
  omega

namespace Core
variable {c c' c'' : Core} {s r d x : StubId} {fuel : ℕ} {t : ℤ}

/-! ## The functions -/

/-- What `poll_derpl`, `time_sync`, `edev_complete` and `der_program` do before they call
`poll_resource`. -/
def assignPollRate (c : Core) (s : StubId) (rate : ℤ) : Core :=
  c.modifyStub s fun t => { t with pollRate := toInt16 rate }

/-- What `get_stub` makes of a new Stub before it is linked. -/
def createStub (c : Core) (name : Name) (type : SeType) (conn : ConnId) : Core :=
  (c.newResource name type).1.modifyStub c.freshStub fun t =>
    { t with conn := conn, pollRate := 900 }

/-- The time at which `poll_resource` queues the next poll, if it does. -/
def pollTime (c : Core) (s : StubId) : Option ℤ :=
  if seEvent (c.type s) ∧
      (c.stub s).pollRate ≥ (c.data s).start + (c.data s).duration - c.seTime then none
  else if (c.stub s).pollNext ≤ c.seTime then some (c.seTime + (c.stub s).pollRate)
  else none

theorem pollResource_eq : c.pollResource s =
    match c.pollTime s with
    | none => c
    | some t =>
      (c.modifyStub s fun u => { u with pollNext := t }).insertEvent (.stub s) .resourcePoll t := by
  unfold pollResource pollTime
  dsimp only
  split
  · rfl
  · split <;> rfl

theorem pollTime_eq (h : c.pollTime s = some t) :
    t = c.seTime + (c.stub s).pollRate ∧ (c.stub s).pollNext ≤ c.seTime := by
  unfold pollTime at h
  split at h
  · exact absurd h.symm (Option.some_ne_none _)
  split at h
  · rename_i hdue
    exact ⟨(Option.some.inj h).symm, hdue⟩
  · exact absurd h.symm (Option.some_ne_none _)

/-- A pass of the loop of `der_poll`, on a poll. -/
inductive Pass (c : Core) : Core → Prop
  | poll {c₁ c' : Core} {s : StubId} {t : ℤ}
      (hnext : c.nextEvent = (c₁, some ⟨.stub s, .resourcePoll, t⟩))
      (hupdate : Settles (fun fuel => (c₁.pollResource s).updateResource fuel s) c') : Pass c c'

/-- The loop of `der_poll` returns: every poll that is due is processed and its resource updated,
until no event is due. -/
inductive Drained : Core → Prop
  | done {c c' : Core} (hnone : c.nextEvent = (c', none)) : Drained c
  | pass {c c₁ c' : Core} {s : StubId} {t : ℤ}
      (hnext : c.nextEvent = (c₁, some ⟨.stub s, .resourcePoll, t⟩))
      (hupdate : Settles (fun fuel => (c₁.pollResource s).updateResource fuel s) c')
      (hdrained : Drained c') : Drained c

/-! ## What updating leaves alone -/

/-- The clock, the queues, and what concerns the polls of the Stubs are the same. -/
structure SamePolls (c c' : Core) : Prop where
  rate : ∀ s, (c'.stub s).pollRate = (c.stub s).pollRate
  next : ∀ s, (c'.stub s).pollNext = (c.stub s).pollNext
  time : c'.seTime = c.seTime
  deps : ∀ s, (c'.stub s).deps = (c.stub s).deps
  imEvent : c'.imEvent = c.imEvent
  curEvent : c'.curEvent = c.curEvent
  fresh : c'.freshStub = c.freshStub

namespace SamePolls

theorem refl (c : Core) : SamePolls c c :=
  ⟨fun _ => rfl, fun _ => rfl, rfl, fun _ => rfl, rfl, rfl, rfl⟩

theorem trans (h : SamePolls c c') (h' : SamePolls c' c'') : SamePolls c c'' where
  rate s := (h'.rate s).trans (h.rate s)
  next s := (h'.next s).trans (h.next s)
  time := h'.time.trans h.time
  deps s := (h'.deps s).trans (h.deps s)
  imEvent := h'.imEvent.trans h.imEvent
  curEvent := h'.curEvent.trans h.curEvent
  fresh := h'.fresh.trans h.fresh

theorem modifyStub {f : Stub → Stub} (hrate : (f (c.stub s)).pollRate = (c.stub s).pollRate)
    (hnext : (f (c.stub s)).pollNext = (c.stub s).pollNext)
    (hdeps : (f (c.stub s)).deps = (c.stub s).deps) : SamePolls c (c.modifyStub s f) where
  rate := congrFun (modifyStub_field c s f Stub.pollRate hrate)
  next := congrFun (modifyStub_field c s f Stub.pollNext hnext)
  time := rfl
  deps := congrFun (modifyStub_field c s f Stub.deps hdeps)
  imEvent := rfl
  curEvent := rfl
  fresh := rfl

theorem depReset (h : Core.depReset fuel c s = some c') : SamePolls c c' := by
  induction fuel generalizing c s c' with
  | zero => cases h
  | succ fuel ih =>
    rw [depReset_succ] at h
    refine foldlM_preserves (J := SamePolls c) h ?_ (modifyStub rfl rfl rfl)
    intro c₁ d c₂ _ h₁ h₂
    refine (h₁.trans ?_).trans (ih h₂)
    unfold unmeetReq
    split
    · exact modifyStub rfl rfl rfl
    · exact modifyStub rfl rfl rfl

theorem updateResource (h : c.updateResource fuel s = some c') : SamePolls c c' := by
  unfold Core.updateResource at h
  split at h
  · rw [← Option.some.inj h]
    exact refl c
  · obtain ⟨c₃, hreset, rfl⟩ := Option.map_eq_some_iff.mp h
    generalize hc₁ : (if (c.stub s).all ≠ 0 then c.modifyStub s fun t => { t with offset := 0 }
      else c) = c₁ at hreset
    have hoffset : SamePolls c c₁ := by
      subst hc₁
      split
      · exact modifyStub rfl rfl rfl
      · exact refl c
    have hlist : SamePolls c₁ c₃ := by
      split at hreset
      · exact (modifyStub rfl rfl rfl).trans (depReset hreset)
      · rw [← Option.some.inj hreset]
        exact (modifyStub rfl rfl rfl).trans (modifyStub rfl rfl rfl)
    have hstatus : SamePolls c₃ (c₃.modifyStub s fun t => { t with status := -1 }) :=
      modifyStub rfl rfl rfl
    exact (hoffset.trans hlist).trans { hstatus with }

end SamePolls

/-! ## The loop of `der_poll` -/

/-- Every event that waits. -/
def events (c : Core) : List Event := c.imEvent ++ c.curEvent

theorem nextEvent_events {e : Event} (h : c.nextEvent = (c', some e)) :
    (∀ x, x ∈ c.events ↔ x = e ∨ x ∈ c'.events) ∧ c.events.length = c'.events.length + 1 ∧
      c'.stub = c.stub ∧ c'.seTime = c.seTime ∧ c'.freshStub = c.freshStub := by
  unfold nextEvent at h
  split at h
  · rename_i e' im him
    obtain ⟨rfl, he⟩ := Prod.mk.inj h
    obtain rfl := Option.some.inj he
    refine ⟨fun x => ?_, ?_, rfl, rfl, rfl⟩
    · simp [events, him]
    · simp [events, him]
  · rename_i him
    split at h
    · exact absurd (Prod.mk.inj h).2.symm (Option.some_ne_none _)
    · rename_i e' cur hcur
      split at h
      · obtain ⟨rfl, he⟩ := Prod.mk.inj h
        obtain rfl := Option.some.inj he
        refine ⟨fun x => ?_, ?_, rfl, rfl, rfl⟩
        · simp [events, him, hcur]
        · simp [events, him, hcur]
      · exact absurd (Prod.mk.inj h).2.symm (Option.some_ne_none _)

theorem events_insertEvent (data : EventData) (type : EventType) :
    (∀ x, x ∈ (c.insertEvent data type t).events ↔ x = ⟨data, type, t⟩ ∨ x ∈ c.events) ∧
      (c.insertEvent data type t).events.length = c.events.length + 1 := by
  unfold insertEvent
  dsimp only
  split
  · constructor
    · intro x
      simp only [events, List.mem_append, List.mem_singleton]
      rw [or_assoc, or_left_comm]
    · simp only [events, List.length_append, List.length_singleton, Nat.add_right_comm]
  · constructor
    · intro x
      simp [events, Chain.mem_place, or_left_comm]
    · have hlength := (Chain.place_perm eventCompare ⟨data, type, t⟩ c.curEvent).length_eq
      simp only [events, List.length_append, hlength, List.length_cons]
      omega

theorem insertEvent_frame (data : EventData) (type : EventType) :
    (c.insertEvent data type t).stub = c.stub ∧ (c.insertEvent data type t).seTime = c.seTime ∧
      (c.insertEvent data type t).freshStub = c.freshStub := by
  unfold insertEvent
  dsimp only
  split <;> exact ⟨rfl, rfl, rfl⟩

/-- A field of the Stubs that `poll_resource` does not write. -/
theorem pollResource_field {α : Type} (p : Stub → α)
    (hnext : ∀ t n, p { t with pollNext := n } = p t) (s x : StubId) :
    p ((c.pollResource s).stub x) = p (c.stub x) := by
  rw [pollResource_eq]
  split
  · rfl
  · rename_i t _
    rw [(insertEvent_frame (t := t) (c := c.modifyStub s fun u => { u with pollNext := t })
      (.stub s) .resourcePoll).1]
    exact congrFun (modifyStub_field c s (fun u => { u with pollNext := t }) p (hnext _ _)) x

theorem pollResource_fresh (s : StubId) : (c.pollResource s).freshStub = c.freshStub := by
  rw [pollResource_eq]
  split
  · rfl
  · rename_i t _
    exact (insertEvent_frame (t := t) (c := c.modifyStub s fun u => { u with pollNext := t })
      (.stub s) .resourcePoll).2.2

/-- **What a pass does**: the poll is gone, or the Stub has a later time for its next. -/
theorem Pass.cases (h : Pass c c') :
    ∃ s t, ⟨.stub s, .resourcePoll, t⟩ ∈ c.events ∧ c'.seTime = c.seTime ∧
      c'.freshStub = c.freshStub ∧ (∀ x, (c'.stub x).pollRate = (c.stub x).pollRate) ∧
      (∀ x, (c'.stub x).deps = (c.stub x).deps) ∧
      ((∀ x, (c'.stub x).pollNext = (c.stub x).pollNext) ∧
          (∀ e ∈ c'.events, e ∈ c.events) ∧ c'.events.length + 1 = c.events.length ∨
        (c.stub s).pollNext ≤ c.seTime ∧
          (∀ x, (c'.stub x).pollNext =
            if x = s then c.seTime + (c.stub s).pollRate else (c.stub x).pollNext) ∧
          ∀ e ∈ c'.events, e ∈ c.events ∨ e.data = .stub s ∧ e.type = .resourcePoll) := by
  obtain ⟨hnext, hupdate⟩ := h
  rename_i c₁ s t
  obtain ⟨fuel, hupdate⟩ := hupdate
  have hupdate := hupdate fuel le_rfl
  obtain ⟨hmem, hlength, hstub, htime, hfresh⟩ := nextEvent_events hnext
  have hsame := SamePolls.updateResource hupdate
  have hevents : c'.events = (c₁.pollResource s).events := by
    rw [events, hsame.imEvent, hsame.curEvent, events]
  refine ⟨s, t, (hmem _).mpr (.inl rfl), ?_⟩
  rw [hsame.time, hsame.fresh, hevents, ← htime, ← hfresh, ← hstub]
  rw [pollResource_eq] at hsame ⊢
  cases hpoll : c₁.pollTime s with
  | none =>
    rw [hpoll] at hsame
    refine ⟨rfl, rfl, hsame.rate, hsame.deps,
      .inl ⟨hsame.next, fun e he => (hmem e).mpr (.inr he), ?_⟩⟩
    exact hlength.symm
  | some t' =>
    rw [hpoll] at hsame
    obtain ⟨hinsert, -⟩ := events_insertEvent (t := t')
      (c := c₁.modifyStub s fun u => { u with pollNext := t' }) (.stub s) .resourcePoll
    obtain ⟨hstub', htime', hfresh'⟩ := insertEvent_frame (t := t')
      (c := c₁.modifyStub s fun u => { u with pollNext := t' }) (.stub s) .resourcePoll
    have hrate := congrFun (modifyStub_field c₁ s (fun u => { u with pollNext := t' })
      Stub.pollRate rfl)
    have hdeps := congrFun (modifyStub_field c₁ s (fun u => { u with pollNext := t' })
      Stub.deps rfl)
    obtain ⟨rfl, hdue⟩ := pollTime_eq hpoll
    refine ⟨htime', hfresh', fun x => ?_, fun x => ?_, .inr ⟨hdue, fun x => ?_, fun e he => ?_⟩⟩
    · rw [hsame.rate]
      dsimp only
      rw [hstub']
      exact hrate x
    · rw [hsame.deps]
      dsimp only
      rw [hstub']
      exact hdeps x
    · rw [hsame.next]
      dsimp only
      rw [hstub']
      split
      · rename_i hx
        rw [hx, modifyStub_same]
      · rename_i hx
        rw [modifyStub_of_ne _ _ hx]
    · obtain rfl | he := (hinsert e).mp he
      · exact .inr ⟨rfl, rfl⟩
      · exact .inl ((hmem e).mpr (.inr he))

theorem countP_lt {l : List StubId} {p q : StubId → Bool} {a : StubId}
    (h : ∀ x ∈ l, p x = true → q x = true) (ha : a ∈ l) (hq : q a = true) (hp : ¬p a = true) :
    l.countP p < l.countP q := by
  obtain ⟨l₁, l₂, rfl⟩ := List.append_of_mem ha
  have h₁ : l₁.countP p ≤ l₁.countP q :=
    List.countP_mono_left fun x hx => h x (List.mem_append_left _ hx)
  have h₂ : l₂.countP p ≤ l₂.countP q :=
    List.countP_mono_left fun x hx => h x (List.mem_append_right _ (List.mem_cons_of_mem _ hx))
  rw [List.countP_append, List.countP_append, List.countP_cons_of_neg hp,
    List.countP_cons_of_pos hq]
  omega

/-- The Stubs whose next poll is due. -/
def Due (c : Core) (s : StubId) : Prop := (c.stub s).pollNext ≤ c.seTime

instance (c : Core) : DecidablePred c.Due := fun _ => inferInstanceAs (Decidable (_ ≤ _))

/-- Only polls wait, of Stubs in `S` whose rates are positive. -/
structure Pending (S : List StubId) (c : Core) : Prop where
  polls : ∀ e ∈ c.events, ∃ s ∈ S, e.data = .stub s ∧ e.type = .resourcePoll
  rate : ∀ s ∈ S, 0 < (c.stub s).pollRate

/-- The passes come to an end: one that queues a poll again makes its Stub wait beyond the clock,
and any other makes the queues shorter. -/
theorem Pending.acc {S : List StubId} (h : c.Pending S) : Acc (fun c' c => Pass c c') c := by
  -- lexicographic: the Stubs that are due, then the events that wait
  induction hn : S.countP (fun s => decide (c.Due s)) using Nat.strong_induction_on
    generalizing c with
  | h n ih =>
  induction hm : c.events.length using Nat.strong_induction_on generalizing c with
  | h m ihm =>
    constructor
    intro c' hpass
    obtain ⟨s, t, hmem, htime, -, hrate, -, hcase⟩ := hpass.cases
    obtain ⟨s', hs, hdata, -⟩ := h.polls _ hmem
    obtain rfl := EventData.stub.inj hdata
    have hpositive : ∀ x ∈ S, 0 < (c'.stub x).pollRate := fun x hx => by
      rw [hrate]
      exact h.rate x hx
    obtain ⟨hnext, hevents, hlength⟩ | ⟨hdue, hnext, hevents⟩ := hcase
    · have hcount : S.countP (fun s => decide (c'.Due s)) = n := by
        rw [← hn]
        refine List.countP_congr fun x _ => ?_
        rw [decide_eq_true_iff, decide_eq_true_iff]
        unfold Due
        rw [hnext, htime]
      exact ihm c'.events.length (by omega) ⟨fun e he => h.polls e (hevents e he), hpositive⟩
        hcount rfl
    · refine ih (S.countP fun s => decide (c'.Due s)) ?_ ⟨fun e he => ?_, hpositive⟩ rfl
      · rw [← hn]
        refine countP_lt (fun x _ hx => decide_eq_true ?_) hs (decide_eq_true hdue) fun hlate => ?_
        · have hdue' : (c'.stub x).pollNext ≤ c'.seTime := of_decide_eq_true hx
          rw [hnext, htime] at hdue'
          split at hdue'
          · rename_i heq
            rw [heq]
            exact hdue
          · exact hdue'
        · have hdue' : (c'.stub s).pollNext ≤ c'.seTime := of_decide_eq_true hlate
          rw [hnext, htime, if_pos rfl] at hdue'
          have hs' := h.rate s hs
          omega
      · obtain he | ⟨hdata, htype⟩ := hevents e he
        · exact h.polls e he
        · exact ⟨s, hs, hdata, htype⟩

/-- What a pass keeps of the queues. -/
theorem Pending.pass {S : List StubId} (h : c.Pending S) (hpass : Pass c c') : c'.Pending S := by
  obtain ⟨s, t, hmem, -, -, hrate, -, hcase⟩ := hpass.cases
  obtain ⟨s', hs, hdata, -⟩ := h.polls _ hmem
  obtain rfl := EventData.stub.inj hdata
  refine ⟨fun e he => ?_, fun x hx => ?_⟩
  · rcases hcase with ⟨-, hevents, -⟩ | ⟨-, -, hevents⟩
    · exact h.polls e (hevents e he)
    · rcases hevents e he with he | ⟨hdata, htype⟩
      · exact h.polls e he
      · exact ⟨s, hs, hdata, htype⟩
  · rw [hrate]
    exact h.rate x hx

/-- No Stub depends on itself, directly or through others. -/
def Acyclic (c : Core) : Prop := WellFounded fun d s => d ∈ (c.stub s).deps

/-- **The loop ends** where no Stub depends on itself. -/
theorem Pending.drained {S : List StubId} (h : c.Pending S) (hacyclic : c.Acyclic) : c.Drained := by
  induction h.acc with
  | intro c _ ih =>
    cases hnext : c.nextEvent with
    | mk c₁ e =>
      cases e with
      | none => exact .done hnext
      | some e =>
        obtain ⟨hmem, -, hstub, -⟩ := nextEvent_events hnext
        obtain ⟨s, -, hdata, htype⟩ := h.polls e ((hmem e).mpr (.inl rfl))
        obtain ⟨data, type, t⟩ := e
        obtain rfl : data = .stub s := hdata
        obtain rfl : type = .resourcePoll := htype
        have hdeps : ∀ x, ((c₁.pollResource s).stub x).deps = (c.stub x).deps := fun x => by
          rw [pollResource_field Stub.deps fun _ _ => rfl, hstub]
        obtain ⟨c', hc'⟩ := updateResource_settles (c := c₁.pollResource s) (s := s) <| by
          simp only [hdeps]
          exact hacyclic.apply s
        have hpass : Pass c c' := .poll hnext hc'
        obtain ⟨-, -, -, -, -, -, hsame, -⟩ := hpass.cases
        refine .pass hnext hc' (ih c' hpass (h.pass hpass) ?_)
        unfold Acyclic
        simp only [hsame]
        exact hacyclic

/-- One Stub that polls itself at once: its rate is not positive, its poll is due, and it is
updating already. -/
structure Stuck (s : StubId) (c : Core) : Prop where
  imEvent : c.imEvent = []
  curEvent : ∃ t ≤ c.seTime, c.curEvent = [⟨.stub s, .resourcePoll, t⟩]
  rate : (c.stub s).pollRate ≤ 0
  next : (c.stub s).pollNext ≤ c.seTime
  timed : c.seTime + (c.stub s).pollRate ≠ 0
  type : seEvent (c.type s) = false
  status : (c.stub s).status < 0

/-- A poll is queued in an empty queue. -/
def requeue (c : Core) (s : StubId) : Core :=
  let next := c.seTime + (c.stub s).pollRate
  { c.modifyStub s fun u => { u with pollNext := next } with
    curEvent := [⟨.stub s, .resourcePoll, next⟩] }

theorem requeue_stub : (c.requeue s).stub s =
    { c.stub s with pollNext := c.seTime + (c.stub s).pollRate } :=
  Function.update_self ..

theorem Stuck.requeue (h : c.Stuck s) : (c.requeue s).Stuck s := by
  have hrate := h.rate
  have hnext : c.seTime + (c.stub s).pollRate ≤ c.seTime := by omega
  constructor
  · exact h.imEvent
  · exact ⟨_, hnext, rfl⟩
  · rw [requeue_stub]
    exact hrate
  · rw [requeue_stub]
    exact hnext
  · rw [requeue_stub]
    exact h.timed
  · rw [Core.type, requeue_stub]
    exact h.type
  · rw [requeue_stub]
    exact h.status

theorem Stuck.nextEvent (h : c.Stuck s) : ∃ t,
    c.nextEvent = ({ c with curEvent := [] }, some ⟨.stub s, .resourcePoll, t⟩) := by
  obtain ⟨t, ht, hcur⟩ := h.curEvent
  refine ⟨t, ?_⟩
  unfold Core.nextEvent
  rw [h.imEvent, hcur]
  exact if_pos ht

theorem Stuck.pollResource (h : c.Stuck s) :
    ({ c with curEvent := [] } : Core).pollResource s = c.requeue s := by
  have hpoll : ({ c with curEvent := [] } : Core).pollTime s =
      some (c.seTime + (c.stub s).pollRate) :=
    (if_neg fun he => absurd (h.type.symm.trans he.1) Bool.false_ne_true).trans (if_pos h.next)
  rw [pollResource_eq, hpoll]
  exact if_neg h.timed

/-- **Livelock.** -/
theorem Stuck.endless (h : c.Stuck s) : ¬c.Drained := by
  intro hdrained
  induction hdrained with
  | done hnone =>
    obtain ⟨t, hsome⟩ := h.nextEvent
    exact absurd (Prod.mk.inj (hsome.symm.trans hnone)).2 (Option.some_ne_none _)
  -- Every pass ends where it began: the poll is queued again, and due.
  | @pass c c₁ c' s' t' hsome hupdate _ ih =>
    obtain ⟨t, hnext⟩ := h.nextEvent
    obtain ⟨rfl, he⟩ := Prod.mk.inj (hnext.symm.trans hsome)
    obtain rfl := EventData.stub.inj (Event.mk.inj (Option.some.inj he)).1
    rw [h.pollResource] at hupdate
    have hstill : Settles (fun fuel => (c.requeue s).updateResource fuel s) (c.requeue s) :=
      ⟨0, fun _ _ => if_pos h.requeue.status⟩
    obtain rfl := hupdate.unique hstill
    exact ih h.requeue

end Core

/-! ## Runs -/

/-- The client, with what the Stubs were told: the rate each was assigned last, and the rates of
the dependents it has joined since. -/
structure Polling where
  core : Core
  assigned : StubId → ℤ
  inherited : StubId → List ℤ

/-- What happens to the polls. -/
inductive PollAct
  | create (name : Name) (type : SeType) (conn : ConnId)
  | assign (s : StubId) (rate : ℤ)
  | inherit (r d : StubId)
  | poll (s : StubId)
  | pass
  | other

/-- A step of the client.  A Stub that is freed is not used again; every other function, and the
clock, are the `other` steps: they leave the rates alone, and link no Stubs. -/
inductive PollStep (p : Polling) : PollAct → Polling → Prop
  | create (name : Name) (type : SeType) (conn : ConnId) :
    PollStep p (.create name type conn)
      ⟨p.core.createStub name type conn, Function.update p.assigned p.core.freshStub 900,
        Function.update p.inherited p.core.freshStub []⟩
  | assign {s : StubId} (hs : s < p.core.freshStub) (rate : ℤ) :
    PollStep p (.assign s rate)
      ⟨p.core.assignPollRate s rate, Function.update p.assigned s rate,
        Function.update p.inherited s []⟩
  | inherit {r d : StubId} (hr : r < p.core.freshStub) (hd : d < p.core.freshStub) :
    PollStep p (.inherit r d)
      ⟨p.core.addDep r d, p.assigned,
        Function.update p.inherited d ((p.core.stub r).pollRate :: p.inherited d)⟩
  | poll {s : StubId} (hs : s < p.core.freshStub) :
    PollStep p (.poll s) { p with core := p.core.pollResource s }
  | pass {c' : Core} (h : p.core.Pass c') : PollStep p .pass { p with core := c' }
  | other {c' : Core} (hrate : ∀ s, (c'.stub s).pollRate = (p.core.stub s).pollRate)
      (hfresh : c'.freshStub = p.core.freshStub)
      (hdeps : ∀ s, ∀ d ∈ (c'.stub s).deps, d ∈ (p.core.stub s).deps) :
    PollStep p .other { p with core := c' }

namespace Polling
open SeClient.Core
variable {p p' p₀ : Polling} {act : PollAct} {R : Set ℤ} {rate : ℤ} {r d : StubId}
  {links : Polling → StubId → StubId → Prop}

/-- The next poll of a Stub is queued at its rate from now on, which is the one it was assigned or
a smaller one of a dependent, and positive. -/
def Timely (p : Polling) (s : StubId) : Prop :=
  ∀ t, p.core.pollTime s = some t → ∃ ρ, t = p.core.seTime + ρ ∧ 0 < ρ ∧
    (ρ = p.assigned s ∨ ρ < p.assigned s ∧ ρ ∈ p.inherited s)

/-- `der_poll` returns for every queue of polls. -/
def Drains (p : Polling) : Prop :=
  ∀ im cur : List Event,
    (∀ e ∈ im ++ cur, ∃ s < p.core.freshStub, e.data = .stub s ∧ e.type = .resourcePoll) →
      Core.Drained { p.core with imEvent := im, curEvent := cur }

/-- The link makes a Stub depend on a Stub that is itself, or depends on it. -/
def Closes (p : Polling) (r d : StubId) : Prop := p.core.web.Reaches r d

/-- What a client does that is told the rates of `R` and makes the links of `links`. -/
def Allowed (R : Set ℤ) (links : Polling → StubId → StubId → Prop) (p : Polling) : PollAct → Prop
  | .assign _ rate => rate ∈ R
  | .inherit r d => links p r d
  | _ => True

/-- A state of the client that a run leads to, which begins with no Stubs. -/
def Reached (R : Set ℤ) (links : Polling → StubId → StubId → Prop) (p : Polling) : Prop :=
  ∃ p₀ ls, p₀.core.freshStub = 0 ∧ (∀ s, (p₀.core.stub s).deps = []) ∧
    Run (Guarded PollStep (Allowed R links)) p₀ ls p

/-- With the rates of `R` and the links of `links` the polls are safe in every run. -/
def Safe (R : Set ℤ) (links : Polling → StubId → StubId → Prop) : Prop :=
  ∀ p, Reached R links p → (∀ s < p.core.freshStub, p.Timely s) ∧ p.Drains

/-- The rates that are stored are what the Stubs were told. -/
structure Told (p : Polling) : Prop where
  assigned : ∀ s < p.core.freshStub, 1 ≤ p.assigned s ∧ p.assigned s ≤ 32767
  positive : ∀ s < p.core.freshStub, 0 < (p.core.stub s).pollRate
  rate : ∀ s < p.core.freshStub, (p.core.stub s).pollRate = p.assigned s ∨
    (p.core.stub s).pollRate < p.assigned s ∧ (p.core.stub s).pollRate ∈ p.inherited s

/-- A Stub is told a rate. -/
theorem Told.tell {c' : Core} {s : StubId} (h : p.Told) (hlow : 1 ≤ rate) (hhigh : rate ≤ 32767)
    (hrate : (c'.stub s).pollRate = rate)
    (hother : ∀ x, x ≠ s → (c'.stub x).pollRate = (p.core.stub x).pollRate)
    (hfresh : ∀ x < c'.freshStub, x ≠ s → x < p.core.freshStub) :
    Told ⟨c', Function.update p.assigned s rate, Function.update p.inherited s []⟩ := by
  constructor
  · intro x hx
    dsimp only
    by_cases hne : x = s
    · rw [hne, Function.update_self]
      exact ⟨hlow, hhigh⟩
    · rw [Function.update_of_ne hne]
      exact h.assigned x (hfresh x hx hne)
  · intro x hx
    dsimp only
    by_cases hne : x = s
    · rw [hne, hrate]
      omega
    · rw [hother x hne]
      exact h.positive x (hfresh x hx hne)
  · intro x hx
    dsimp only
    by_cases hne : x = s
    · rw [hne, hrate, Function.update_self]
      exact .inl rfl
    · rw [hother x hne, Function.update_of_ne hne, Function.update_of_ne hne]
      exact h.rate x (hfresh x hx hne)

/-- **The step lemma.** -/
theorem Told.step (h : p.Told) (hstep : PollStep p act p')
    (hact : ∀ s rate, act = .assign s rate → 1 ≤ rate ∧ rate ≤ 32767) : p'.Told := by
  have hkeep : ∀ c' : Core, (∀ s, (c'.stub s).pollRate = (p.core.stub s).pollRate) →
      c'.freshStub = p.core.freshStub → Told { p with core := c' } := by
    intro c' hrate hfresh
    constructor
    · rw [hfresh]
      exact h.assigned
    · rw [hfresh]
      intro s hs
      rw [hrate]
      exact h.positive s hs
    · rw [hfresh]
      intro s hs
      rw [hrate]
      exact h.rate s hs
  cases hstep with
  | create name type conn =>
    refine h.tell (by omega) (by omega) ?_ (fun x hx => ?_) fun x hx hne => ?_
    · rw [createStub, modifyStub_same]
    · exact congrArg Stub.pollRate ((modifyStub_of_ne _ _ hx).trans (Function.update_of_ne hx _ _))
    · exact Nat.lt_of_le_of_ne (Nat.le_of_lt_succ hx) hne
  | @assign s hs rate =>
    obtain ⟨hlow, hhigh⟩ := hact s rate rfl
    refine h.tell hlow hhigh ?_ (fun x hx => ?_) fun x hx _ => hx
    · rw [assignPollRate, modifyStub_same]
      exact toInt16_of_pos hlow hhigh
    · exact congrArg Stub.pollRate (modifyStub_of_ne _ _ hx)
  | @inherit r d hr hd =>
    have hrates : ∀ x, ((p.core.addDep r d).stub x).pollRate =
        if x = d then min (p.core.stub d).pollRate (p.core.stub r).pollRate
        else (p.core.stub x).pollRate := by
      intro x
      -- `r` is only marked incomplete.
      have hcomplete := congrFun (modifyStub_field (p.core.modifyStub d fun t =>
        { t with
          deps := insertUnique t.deps r
          pollRate := min t.pollRate (p.core.stub r).pollRate }) r
        (fun t => { t with complete := false }) Stub.pollRate rfl) x
      refine hcomplete.trans ?_
      split
      · rename_i hx
        rw [hx, modifyStub_same]
      · rename_i hx
        rw [modifyStub_of_ne _ _ hx]
    have hrpos := h.positive r hr
    constructor
    · exact h.assigned
    · intro x hx
      have hxpos := h.positive x hx
      dsimp only
      rw [hrates]
      split
      · rename_i heq
        rw [heq] at hxpos
        exact lt_min hxpos hrpos
      · exact hxpos
    · intro x hx
      dsimp only
      rw [hrates]
      split
      · rename_i heq
        subst heq
        rw [Function.update_self]
        -- The rate that was there, or the smaller one of the dependent.
        obtain hle | hlt := le_or_gt (p.core.stub x).pollRate (p.core.stub r).pollRate
        · rw [min_eq_left hle]
          exact (h.rate x hx).imp_right fun ⟨hlt, hmem⟩ => ⟨hlt, List.mem_cons_of_mem _ hmem⟩
        · rw [min_eq_right hlt.le]
          refine .inr ⟨?_, List.mem_cons_self⟩
          obtain heq | ⟨hless, -⟩ := h.rate x hx
          · exact heq ▸ hlt
          · exact hlt.trans hless
      · rename_i hne
        rw [Function.update_of_ne hne]
        exact h.rate x hx
  | @poll s hs =>
    exact hkeep _ (pollResource_field Stub.pollRate (fun _ _ => rfl) s) (pollResource_fresh s)
  | @pass c' hpass =>
    obtain ⟨-, -, -, -, hfresh, hrate, -⟩ := hpass.cases
    exact hkeep c' hrate hfresh
  | @other c' hrate hfresh _ => exact hkeep c' hrate hfresh

/-- A link that closes no cycle keeps the Stubs from depending on themselves. -/
theorem acyclic_step (h : p.core.Acyclic) (hstep : PollStep p act p')
    (hact : ∀ r d, act = .inherit r d → r < p.core.freshStub → d < p.core.freshStub →
      ¬p.Closes r d) : p'.core.Acyclic := by
  have hkeep : ∀ c' : Core, (∀ s, ∀ d ∈ (c'.stub s).deps, d ∈ (p.core.stub s).deps) →
      c'.Acyclic := fun c' hdeps => Subrelation.wf (fun {d s} hd => hdeps s d hd) h
  cases hstep with
  | create name type conn =>
    refine hkeep _ fun s d hd => ?_
    by_cases hs : s = p.core.freshStub
    · subst hs
      change d ∈ (((p.core.createStub name type conn).stub p.core.freshStub).deps) at hd
      rw [createStub, modifyStub_same] at hd
      change d ∈ (Function.update p.core.stub p.core.freshStub _ p.core.freshStub).deps at hd
      rw [Function.update_self] at hd
      exact absurd hd List.not_mem_nil
    · have hold : (p.core.createStub name type conn).stub s = p.core.stub s :=
        (modifyStub_of_ne _ _ hs).trans (Function.update_of_ne hs _ _)
      rw [← hold]
      exact hd
  | @assign s hs rate =>
    refine hkeep _ fun x d hd => ?_
    rwa [assignPollRate, congrFun (modifyStub_field p.core s _ Stub.deps rfl) x] at hd
  | @inherit r d hr hd =>
    -- The link is the one new edge, and it closes no cycle.
    refine wellFounded_of_edge (a := r) (b := d) h (fun y x hy => ?_) (hact r d rfl hr hd)
    change y ∈ ((p.core.addDep r d).web.ties x).deps at hy
    rw [web_addDep] at hy
    by_cases hx : x = d
    · subst hx
      rw [Web.link, Web.set_same] at hy
      exact (Web.mem_insertUnique.mp hy).elim (fun hy => .inr ⟨hy, rfl⟩) .inl
    · rw [Web.link, Web.set_of_ne _ hx] at hy
      exact .inl hy
  | @poll s hs =>
    refine hkeep _ fun x d hd => ?_
    rwa [pollResource_field Stub.deps fun _ _ => rfl] at hd
  | @pass c' hpass =>
    obtain ⟨-, -, -, -, -, -, hdeps, -⟩ := hpass.cases
    refine hkeep c' fun x d hd => ?_
    rwa [hdeps x] at hd
  | @other c' _ _ hdeps => exact hkeep c' hdeps

/-- **The run lemma.** -/
theorem Reached.told (h : Reached R links p)
    (hR : ∀ rate ∈ R, 1 ≤ rate ∧ rate ≤ 32767) : p.Told := by
  obtain ⟨p₀, ls, hinitial, -, hrun⟩ := h
  refine hrun.preserves (J := Told) (G := fun _ => True) (fun _ _ => trivial)
    (fun t act u _ ht hstep => ht.step hstep.2 ?_) ?_
  · rintro s rate rfl
    exact hR rate hstep.1
  · constructor
    · intro s hs
      exact absurd (hinitial ▸ hs) (Nat.not_lt_zero s)
    · intro s hs
      exact absurd (hinitial ▸ hs) (Nat.not_lt_zero s)
    · intro s hs
      exact absurd (hinitial ▸ hs) (Nat.not_lt_zero s)

/-- **The run lemma**, for the links. -/
theorem Reached.acyclic (h : Reached R links p)
    (hlinks : ∀ q, Reached R links q → ∀ r < q.core.freshStub, ∀ d < q.core.freshStub,
      links q r d → ¬q.Closes r d) : p.core.Acyclic := by
  obtain ⟨p₀, ls, hinitial, hblank, hrun⟩ := h
  have hinv : Reached R links p ∧ p.core.Acyclic := by
    refine hrun.preserves (J := fun q => Reached R links q ∧ q.core.Acyclic) (G := fun _ => True)
      (fun _ _ => trivial) ?_ ?_
    · rintro t act u _ ⟨ht, hacyclic⟩ hstep
      obtain ⟨p₁, ms, hinitial₁, hblank₁, hrun₁⟩ := ht
      refine ⟨⟨p₁, ms ++ [act], hinitial₁, hblank₁, hrun₁.snoc hstep⟩,
        acyclic_step hacyclic hstep.2 ?_⟩
      rintro r d rfl hr hd
      exact hlinks t ⟨p₁, ms, hinitial₁, hblank₁, hrun₁⟩ r hr d hd hstep.1
    · refine ⟨⟨p₀, [], hinitial, hblank, Run.nil⟩, ⟨fun s => Acc.intro s fun d hd => ?_⟩⟩
      rw [hblank] at hd
      exact absurd hd List.not_mem_nil
  exact hinv.2

theorem Told.timely (h : p.Told) : ∀ s < p.core.freshStub, p.Timely s := fun s hs _ ht =>
  ⟨(p.core.stub s).pollRate, (pollTime_eq ht).1, h.positive s hs, h.rate s hs⟩

theorem Told.drains (h : p.Told) (hacyclic : p.core.Acyclic) : p.Drains := by
  intro im cur hevents
  have hpending : Pending (List.range p.core.freshStub)
      { p.core with imEvent := im, curEvent := cur } := by
    constructor
    · intro e he
      obtain ⟨s, hs, hdata, htype⟩ := hevents e he
      exact ⟨s, List.mem_range.mpr hs, hdata, htype⟩
    · intro s hs
      exact h.positive s (List.mem_range.mp hs)
  exact hpending.drained hacyclic

/-! ## What is not safe -/

/-- A memory with no Stubs. -/
def noStubs : Core where
  stub := fun _ => {}
  block := fun _ => {}
  schedule := fun _ => {}
  device := fun _ => {}
  devices := []
  imEvent := []
  curEvent := []
  responses := []
  requests := []
  completions := []
  started := []
  resources := fun _ => none
  stubNext := fun _ => none
  time := 1000000
  seTimeOffset := 0
  syncTime := 0
  activePollRate := 300
  rand := []
  freshStub := 0
  freshBlock := 0
  freshDevice := 0

/-- A Stub is created, and told its rate. -/
def told (rate : ℤ) : Polling where
  core := (noStubs.createStub "/derp" 0 0).assignPollRate 0 rate
  assigned := fun _ => rate
  inherited := fun _ => []

theorem Reached.step (h : Reached R links p) (hstep : PollStep p act p')
    (hact : Allowed R links p act) : Reached R links p' := by
  obtain ⟨p₀, ls, hinitial, hblank, hrun⟩ := h
  exact ⟨p₀, ls ++ [act], hinitial, hblank, hrun.snoc ⟨hact, hstep⟩⟩

theorem told_reached (hrate : rate ∈ R) : Reached R links (told rate) := by
  have hassigned : Function.update (Function.update (fun _ => rate) 0 900) 0 rate =
      fun _ : StubId => rate := by
    rw [Function.update_idem, Function.update_eq_self]
  have hinherited : Function.update (Function.update (fun _ => []) 0 []) 0 [] =
      fun _ : StubId => ([] : List ℤ) := by
    rw [Function.update_idem, Function.update_eq_self]
  have hstart : Reached R links ⟨noStubs, fun _ => rate, fun _ => []⟩ :=
    ⟨_, [], rfl, fun _ => rfl, Run.nil⟩
  have hassign := (hstart.step (PollStep.create "/derp" 0 0) trivial).step
    (PollStep.assign (s := 0) (Nat.zero_lt_succ _) rate) hrate
  dsimp only at hassign
  rwa [show noStubs.freshStub = 0 from rfl, hassigned, hinherited] at hassign

/-- A rate that is polled safely is positive, and fits its field. -/
theorem Safe.bounds (h : Safe R links) (hrate : rate ∈ R) : 1 ≤ rate ∧ rate ≤ 32767 := by
  have hstored : ((told rate).core.stub 0).pollRate = toInt16 rate := by
    rw [told, assignPollRate, modifyStub_same]
  have hpoll : (told rate).core.pollTime 0 = some (1000000 + toInt16 rate) := rfl
  obtain ⟨ρ, htime, hpositive, htold⟩ :=
    (h _ (told_reached hrate)).1 0 (Nat.zero_lt_succ _) _ hpoll
  obtain heq | ⟨-, hmem⟩ := htold
  · have hbounds := toInt16_bounds rate
    have hclock : (told rate).core.seTime = 1000000 := rfl
    change ρ = rate at heq
    omega
  · exact absurd hmem List.not_mem_nil

/-- All resources have been retrieved, and are no events. -/
def retrieved (c : Core) : Core :=
  { c with stub := fun x => { c.stub x with status := 200, type := 0 } }

/-- A link that is made safely closes no cycle: the update of a retrieved resource would not
return. -/
theorem Safe.not_closes (h : Safe R links) (hp : Reached R links p) (hr : r < p.core.freshStub)
    (hd : d < p.core.freshStub) (hlink : links p r d) : ¬p.Closes r d := by
  intro hcloses
  have hlinked := hp.step (PollStep.inherit hr hd) hlink
  have hretrieved := hlinked.step (@PollStep.other _ (retrieved (p.core.addDep r d))
    (fun _ => rfl) rfl fun _ _ hx => hx) trivial
  -- a poll of `d` is due
  have hdrained := (h _ hretrieved).2 [] [⟨.stub d, .resourcePoll, (p.core.addDep r d).seTime⟩]
    fun e he => ⟨d, hd, by rw [List.mem_singleton.mp he]; exact ⟨rfl, rfl⟩⟩
  generalize hc : ({ retrieved (p.core.addDep r d) with
    imEvent := [], curEvent := [⟨.stub d, .resourcePoll, (p.core.addDep r d).seTime⟩] } : Core) = c
    at hdrained
  have hnext : c.nextEvent =
      ({ c with curEvent := [] }, some ⟨.stub d, .resourcePoll, c.seTime⟩) := by
    subst hc
    exact if_pos le_rfl
  cases hdrained with
  | done hnone => exact absurd (Prod.mk.inj (hnext.symm.trans hnone)).2 (Option.some_ne_none _)
  | pass hsome hupdate _ =>
    obtain ⟨rfl, he⟩ := Prod.mk.inj (hnext.symm.trans hsome)
    obtain rfl := EventData.stub.inj (Event.mk.inj (Option.some.inj he)).1
    obtain ⟨fuel, hupdate⟩ := hupdate
    have hstub : ∀ x, c.stub x = { (p.core.addDep r d).stub x with status := 200, type := 0 } :=
      fun x => by rw [← hc]; rfl
    have hacc := acc_of_updateResource (s := d)
      (by rw [pollResource_field Stub.status fun _ _ => rfl]
          change 0 < (c.stub d).status
          rw [hstub]
          exact (by decide : (0 : ℤ) < 200))
      (by unfold Core.type
          rw [pollResource_field Stub.type fun _ _ => rfl]
          change seEvent (c.stub d).type = false
          rw [hstub]
          rfl)
      (hupdate fuel le_rfl)
    have hdeps : ∀ x, ((({ c with curEvent := [] } : Core).pollResource d).stub x).deps =
        ((p.core.addDep r d).stub x).deps := fun x => by
      rw [pollResource_field Stub.deps fun _ _ => rfl]
      change (c.stub x).deps = _
      rw [hstub]
    simp only [hdeps] at hacc
    -- `d` depends on `r`, and `r` on `d`
    have hweb : ∀ x, ((p.core.addDep r d).stub x).deps = ((p.core.web.link r d).ties x).deps :=
      fun x => congrArg (fun w : Web => (w.ties x).deps) web_addDep
    have hnew : r ∈ ((p.core.addDep r d).stub d).deps := by
      rw [hweb, Web.link, Web.set_same]
      exact Web.mem_insertUnique.mpr (.inl rfl)
    have hold : ∀ x y, y ∈ (p.core.web.ties x).deps → y ∈ ((p.core.addDep r d).stub x).deps := by
      intro x y hy
      rw [hweb, Web.link]
      by_cases hx : x = d
      · subst hx
        rw [Web.set_same]
        exact Web.mem_insertUnique.mpr (.inr hy)
      · rw [Web.set_of_ne _ hx]
        exact hy
    have hreach : Relation.ReflTransGen (fun y x => y ∈ ((p.core.addDep r d).stub x).deps) d r :=
      Relation.ReflTransGen.swap _ _ (Relation.ReflTransGen.mono hold _ _ hcloses)
    exact not_acc_of_loop (Relation.TransGen.tail' hreach hnew) hacc.transGen

/-- **Polling does not livelock** with the rates that are positive as an `int16_t` and what they
were, and links that close no cycle, and with no others. -/
theorem safe_iff (R : Set ℤ) (links : Polling → StubId → StubId → Prop) :
    Safe R links ↔ (∀ rate ∈ R, 1 ≤ rate ∧ rate ≤ 32767) ∧
      ∀ p, Reached R links p → ∀ r < p.core.freshStub, ∀ d < p.core.freshStub,
        links p r d → ¬p.Closes r d := by
  constructor
  · exact fun h => ⟨fun rate hrate => h.bounds hrate,
      fun p hp r hr d hd hlink => h.not_closes hp hr hd hlink⟩
  · rintro ⟨hR, hlinks⟩ p hp
    have htold := hp.told hR
    exact ⟨htold.timely, htold.drains (hp.acyclic hlinks)⟩

/-- A rate of zero is not polled safely: `der_poll` does not return. -/
theorem not_safe : ¬Safe {0} (fun _ _ _ => False) ∧
    ∃ c : Core, c.Stuck 0 ∧ (c.stub 0).pollRate = toInt16 0 ∧ ¬c.Drained := by
  refine ⟨fun h => absurd (h.bounds (Set.mem_singleton 0)).1 (by decide), ?_⟩
  have hstuck : Stuck 0 { noStubs with
      stub := fun _ => { status := -1 }
      curEvent := [⟨.stub 0, .resourcePoll, 1000000⟩] } :=
    ⟨rfl, ⟨1000000, le_refl _, rfl⟩, le_refl _, by decide, by decide, rfl, by decide⟩
  exact ⟨_, hstuck, rfl, hstuck.endless⟩

end Polling
end SeClient
