import Mathlib.Data.List.TakeWhile
import SeClient.Chain
import SeClient.Memory

/-!
# Timeouts of TCP ports

The queue `_tcp_wait` of `linux/tcp.c`: ports wait for their timeouts, sorted, linked through the
field `next` that the queue `_active` of events uses too.  A port keeps the node that stood in front
of it when it was inserted.
-/

namespace SeClient

/-! ## The source -/

/-- `struct timespec` -/
structure Timespec where
  sec : ℤ
  nsec : ℤ
deriving DecidableEq, Repr

/-- `compare_timeout`, on the timeouts of two ports: the differences are taken as `int`s. -/
def compareTimeout (t u : Timespec) : ℤ :=
  let diff := toInt32 (t.sec - u.sec)
  if diff ≠ 0 then diff else toInt32 (t.nsec - u.nsec)

/-- The field `type` of a port, as far as `net_close` looks at it. -/
inductive PortType
  | connect
  | port
  | closed
  | other
deriving DecidableEq, Repr

/-- `Queue` -/
structure PortQueue (P : Type) where
  first : Option P := none
  last : Option P := none

/-- The ports `P`, the queues `_tcp_wait` and `_active`, the monotonic clock in nanoseconds, and
what the timer `_tcp_timer` is set to. -/
structure TcpPorts (P : Type) where
  next : P → Option P
  prev : P → Option P
  wait : P → Bool
  timeout : P → Timespec
  type : P → PortType
  waiting : PortQueue P := {}
  active : PortQueue P := {}
  /-- `_tcp_timeout` -/
  seconds : ℤ := 10
  clock : ℕ := 0
  timer : Option Timespec := none

section Source
variable {P : Type} [DecidableEq P]

/-- `_insert_sorted`: the trailing pointer, the links and the head of the list. -/
def insertSortedAt (fuel : ℕ) (next : P → Option P) (h : Option P) (item : P)
    (compare : P → P → ℤ) : Option (Option P × (P → Option P) × Option P) := do
  let (prev, l) ← Chain.seek next (fun b => decide (0 < compare item b)) fuel none h
  let (next, h) := Chain.relink next h prev (some item)
  some (prev, Function.update next item l, h)

namespace TcpPorts
variable (s : TcpPorts P)

/-- `_queue_insert` of a port in `_tcp_wait`, with the field `prev` of the port. -/
def queueInsert (fuel : ℕ) (p : P) : Option (TcpPorts P) := do
  let (prev, next, first) ← insertSortedAt fuel s.next s.waiting.first p fun a b =>
    compareTimeout (s.timeout a) (s.timeout b)
  let last := match s.waiting.last with
    | some q => if next q ≠ none then next q else some q
    | none => first
  some { s with prev := Function.update s.prev p prev, next := next, waiting := ⟨first, last⟩ }

/-- `queue_remove` of `_tcp_wait`: the item and the queue. -/
def queueRemove : Option P × TcpPorts P :=
  match s.waiting.first with
  | none => (none, s)
  | some a =>
    if s.waiting.first = s.waiting.last then (some a, { s with waiting := {} })
    else (some a, { s with waiting := { s.waiting with first := s.next a } })

/-- `queue_add` of a port to `_active`. -/
def queueAdd (p : P) : TcpPorts P :=
  match s.active.last with
  | some q =>
    { s with next := Function.update s.next q (some p), active := { s.active with last := some p } }
  | none => { s with active := ⟨some p, some p⟩ }

/-- The timer is set for the first port that waits, or it is cleared. -/
def setTimer : TcpPorts P := { s with timer := s.waiting.first.map s.timeout }

/-- The timeout of a port that is armed after `elapsed` more nanoseconds. -/
def deadline (elapsed : ℕ) : Timespec :=
  ⟨((s.clock + elapsed) / 1000000000 : ℕ) + s.seconds, ((s.clock + elapsed) % 1000000000 : ℕ)⟩

/-- The ports in front of `_queue_insert` in `set_timeout`. -/
def armed (p : P) (elapsed : ℕ) : TcpPorts P :=
  { s with
    clock := s.clock + elapsed
    timeout := Function.update s.timeout p (s.deadline elapsed)
    prev := Function.update s.prev p none
    wait := Function.update s.wait p true }

/-- `set_timeout`, `elapsed` nanoseconds after the clock was last read. -/
def setTimeout (fuel : ℕ) (p : P) (elapsed : ℕ) : Option (TcpPorts P) :=
  ((s.armed p elapsed).queueInsert fuel p).map setTimer

/-- `clear_timeout` -/
def clearTimeout (p : P) : TcpPorts P :=
  if s.wait p then
    let s := { s with wait := Function.update s.wait p false }
    match s.prev p with
    | some q =>
      { s with
        next := Function.update s.next q (s.next p)
        prev := Function.update s.prev p none }
    | none => s.queueRemove.2.setTimer
  else s

/-- `tcp_expired` -/
def tcpExpired : Option P × TcpPorts P :=
  match s.queueRemove with
  | (some p, s) => (some p, s.setTimer)
  | (none, s) => (none, s)

/-- `net_close` -/
def netClose (p : P) : TcpPorts P :=
  match s.type p with
  | .connect | .port =>
    ({ s with type := Function.update s.type p .closed }.clearTimeout p).queueAdd p
  | _ => s

end TcpPorts

/-- The calls. -/
inductive TcpCall (P : Type)
  | setTimeout (p : P) (elapsed : ℕ)
  | clearTimeout (p : P)
  | tcpExpired
  | netClose (p : P)

/-- A call returns, when its loop ends. -/
def TcpPorts.step (fuel : ℕ) (s : TcpPorts P) : TcpCall P → Option (TcpPorts P)
  | .setTimeout p elapsed => s.setTimeout fuel p elapsed
  | .clearTimeout p => some (s.clearTimeout p)
  | .tcpExpired => some s.tcpExpired.2
  | .netClose p => some (s.netClose p)

def TcpPorts.Step (s : TcpPorts P) (c : TcpCall P) (s' : TcpPorts P) : Prop :=
  ∃ fuel, s.step fuel c = some s'

end Source

/-! ## What is claimed -/

/-- The order of times. -/
def Timespec.Le (t u : Timespec) : Prop := t.sec < u.sec ∨ t.sec = u.sec ∧ t.nsec ≤ u.nsec

instance (t u : Timespec) : Decidable (t.Le u) :=
  inferInstanceAs (Decidable (t.sec < u.sec ∨ t.sec = u.sec ∧ t.nsec ≤ u.nsec))

namespace TcpPorts
variable {P : Type} [DecidableEq P]

/-- `_tcp_wait` is the list `l`: the ports whose flag is set, each once, sorted, and it ends at
`last`. -/
structure Holds (s : TcpPorts P) (l : List P) : Prop where
  linked : Chain.Linked s.next s.waiting.first l
  nodup : l.Nodup
  waiting : ∀ p, p ∈ l ↔ s.wait p = true
  sorted : l.Pairwise fun p q => (s.timeout p).Le (s.timeout q)
  last : s.waiting.last = l.getLast?

/-- **The queue is right.** -/
def Right (s : TcpPorts P) : Prop := ∃ l, s.Holds l

/-- A call of `clear_timeout` takes its port out and no other. -/
def Removes (s s' : TcpPorts P) : TcpCall P → Prop
  | .clearTimeout p => ∀ l l', s.Holds l → s'.Holds l' → l' = l.erase p
  | _ => True

/-- **Every call returns and leaves the queue right**, and `clear_timeout` removes its port only. -/
def Keeps (s : TcpPorts P) : List (TcpCall P) → Prop
  | [] => s.Right
  | c :: cs => s.Right ∧ ∃ s', s.Step c s' ∧ s.Removes s' c ∧ s'.Keeps cs

/-- A port can be taken out: the node it keeps stands in front of it, and it is not the last, or it
keeps none and is the first. -/
def Clears (s : TcpPorts P) (p : P) : Prop :=
  s.wait p = true → match s.prev p with
    | some q => s.wait q = true ∧ s.next q = some p ∧ s.waiting.last ≠ some p
    | none => s.waiting.first = some p

/-- **The calls that leave the queue right.** -/
def Meets (s : TcpPorts P) : TcpCall P → Prop
  | .setTimeout p elapsed => s.wait p = false ∧
      ∀ q, s.wait q = true → ¬(s.deadline elapsed).Le (s.timeout q) →
        0 < compareTimeout (s.deadline elapsed) (s.timeout q)
  | .clearTimeout p => s.Clears p
  | .tcpExpired => s.waiting.first = none
  | .netClose p => s.type p = .connect ∨ s.type p = .port →
      s.Clears p ∧ ∀ r, s.active.last = some r → s.wait r = true → r = p

/-- Every call of a run is one of these. -/
def AllMeet (s : TcpPorts P) : List (TcpCall P) → Prop
  | [] => True
  | c :: cs => s.Meets c ∧ ∀ s', s.Step c s' → s'.AllMeet cs

/-- Nothing has been armed: no flag is set and the queue is empty. -/
structure Idle (s : TcpPorts P) : Prop where
  wait : ∀ p, s.wait p = false
  first : s.waiting.first = none
  last : s.waiting.last = none

end TcpPorts

/-! ## Times -/

namespace Timespec
variable {t u v : Timespec}

theorem le_refl (t : Timespec) : t.Le t := Or.inr ⟨rfl, Int.le_refl _⟩

theorem le_trans (h : t.Le u) (h' : u.Le v) : t.Le v := by
  unfold Le at *
  omega

end Timespec

theorem compareTimeout_self (t : Timespec) : compareTimeout t t = 0 := by
  have hzero : toInt32 0 = 0 := rfl
  unfold compareTimeout
  rw [Int.sub_self, Int.sub_self, hzero]
  rfl

/-! ## Insertion -/

section Insertion
variable {P : Type} [DecidableEq P] {next next' : P → Option P} {h h' prev : Option P} {item : P}
  {l : List P} {compare : P → P → ℤ} {fuel : ℕ}

theorem insertSortedAt_eq : (insertSortedAt fuel next h item compare).map Prod.snd =
    Chain.insertSorted fuel next h item compare := by
  unfold insertSortedAt Chain.insertSorted
  cases Chain.seek next (fun b => decide (0 < compare item b)) fuel none h with
  | none => rfl
  | some r => rfl

omit [DecidableEq P] in
/-- Nodes that are reached through links that are kept. -/
theorem linked_reaches {r u w : List P} {p : P} (hr : Chain.Linked next' h r)
    (hu : Chain.Linked next h (u ++ p :: w)) (hsame : ∀ x ∈ u, next' x = next x) : p ∈ r := by
  induction u generalizing h r with
  | nil =>
    cases r with
    | nil => exact absurd (hu.1.symm.trans hr) (Option.some_ne_none p)
    | cons a r =>
      obtain rfl := Option.some.inj (hu.1.symm.trans hr.1)
      exact List.mem_cons_self
  | cons x u ih =>
    cases r with
    | nil => exact absurd (hu.1.symm.trans hr) (Option.some_ne_none x)
    | cons a r =>
      obtain rfl := Option.some.inj (hu.1.symm.trans hr.1)
      refine List.mem_cons_of_mem _ (ih (h := next' x) hr.2 ?_ fun y hy =>
        hsame y (List.mem_cons_of_mem x hy))
      rw [hsame x List.mem_cons_self]
      exact hu.2

omit [DecidableEq P] in
/-- Two tests that agree on a list split it at one place. -/
theorem split_congr {f g : P → Bool} (h : ∀ a ∈ l, f a = g a) :
    l.takeWhile f = l.takeWhile g ∧ l.dropWhile f = l.dropWhile g := by
  induction l with
  | nil => exact ⟨rfl, rfl⟩
  | cons a l ih =>
    obtain ⟨ha, hl⟩ := List.forall_mem_cons.mp h
    obtain ⟨htake, hdrop⟩ := ih hl
    rw [List.takeWhile_cons, List.takeWhile_cons, List.dropWhile_cons, List.dropWhile_cons, ha,
      htake, hdrop]
    exact ⟨rfl, rfl⟩

/-- **A node that is inserted again** is not in a list any more. -/
theorem insertSortedAt_again (hl : Chain.Linked next h l) (hnd : l.Nodup) (hitem : item ∈ l)
    (hself : ¬0 < compare item item)
    (hres : insertSortedAt fuel next h item compare = some (prev, next', h')) {l' : List P}
    (hl' : Chain.Linked next' h' l') (hnd' : l'.Nodup) : item ∉ l' := by
  unfold insertSortedAt at hres
  obtain ⟨⟨q, stop⟩, hseek, hres⟩ := Option.bind_eq_some_iff.mp hres
  obtain ⟨-, hpair⟩ := Prod.mk.inj (Option.some.inj hres)
  obtain ⟨rfl, -⟩ := Prod.mk.inj hpair
  obtain ⟨hq, hstop⟩ := Chain.seek_spec (k := []) hl hseek
  rw [List.nil_append] at hq
  -- the walk does not pass the node itself
  have hsplit :=
    List.takeWhile_append_dropWhile (p := fun b => decide (0 < compare item b)) (l := l)
  have hafter : item ∈ l.dropWhile fun b => decide (0 < compare item b) := by
    rw [← hsplit] at hitem
    refine (List.mem_append.mp hitem).resolve_left fun hmem => hself ?_
    exact of_decide_eq_true (List.mem_takeWhile_imp
      (p := fun b => decide (0 < compare item b)) hmem)
  rw [← hsplit] at hnd
  obtain ⟨u, w, hu⟩ := List.append_of_mem hafter
  rw [hu] at hstop hnd
  intro hmem
  obtain ⟨a, r, rfl⟩ := List.append_of_mem hmem
  have hrest := hl'.rest
  rw [Function.update_self] at hrest
  obtain ⟨-, hnd₂, hdisjoint⟩ := List.nodup_append.mp hnd
  have hagain : item ∈ r := by
    refine linked_reaches hrest hstop fun x hx => ?_
    have hxu : x ∈ u ++ item :: w := List.mem_append_left _ hx
    have hne : x ≠ item := by
      rintro rfl
      exact (List.nodup_append.mp hnd₂).2.2 x hx x List.mem_cons_self rfl
    rw [Function.update_of_ne hne, hq]
    exact Chain.relink_next_of_not_mem fun hmem => hdisjoint x hmem x hxu rfl
  exact (List.nodup_cons.mp (List.nodup_append.mp hnd').2.1).1 hagain

end Insertion

/-! ## The calls -/

namespace TcpPorts
variable {P : Type} [DecidableEq P] {s s' : TcpPorts P} {l l' : List P} {p q : P} {fuel elapsed : ℕ}

omit [DecidableEq P] in
theorem Holds.unique (h : s.Holds l) (h' : s.Holds l') : l = l' := h.linked.unique h'.linked

/-- The timeouts of the ports that wait are no later than that of a port that is armed now. -/
def Bounded (s : TcpPorts P) : Prop := ∀ q, s.wait q = true → (s.timeout q).Le (s.deadline 0)

/-- The comparison of the port that is armed with those that wait. -/
def later (s : TcpPorts P) (elapsed : ℕ) (q : P) : Bool :=
  decide (0 < compareTimeout (s.deadline elapsed) (s.timeout q))

/-- Where `set_timeout` puts a port. -/
def placed (s : TcpPorts P) (p : P) (elapsed : ℕ) (l : List P) : List P :=
  l.takeWhile (s.later elapsed) ++ p :: l.dropWhile (s.later elapsed)

omit [DecidableEq P] in
theorem deadline_le (s : TcpPorts P) (elapsed : ℕ) : (s.deadline 0).Le (s.deadline elapsed) := by
  unfold deadline Timespec.Le
  dsimp only
  omega

omit [DecidableEq P] in
theorem mem_placed : q ∈ s.placed p elapsed l ↔ q = p ∨ q ∈ l := by
  have hsplit := List.takeWhile_append_dropWhile (p := s.later elapsed) (l := l)
  unfold placed
  rw [List.mem_append, List.mem_cons]
  conv_rhs => rw [← hsplit, List.mem_append]
  exact or_left_comm

omit [DecidableEq P] in
theorem placed_nodup (hnd : l.Nodup) (hp : p ∉ l) : (s.placed p elapsed l).Nodup := by
  have hsplit := List.takeWhile_append_dropWhile (p := s.later elapsed) (l := l)
  unfold placed
  rw [List.nodup_middle, List.nodup_cons, hsplit]
  exact ⟨hp, hnd⟩

/-- The comparison of `_queue_insert`, once the port is armed. -/
def armedCompare (s : TcpPorts P) (p : P) (elapsed : ℕ) (a b : P) : ℤ :=
  compareTimeout ((s.armed p elapsed).timeout a) ((s.armed p elapsed).timeout b)

theorem place_eq (hp : p ∉ l) :
    Chain.place (s.armedCompare p elapsed) p l = s.placed p elapsed l := by
  have hagree : ∀ b ∈ l, decide (0 < s.armedCompare p elapsed p b) = s.later elapsed b := by
    intro b hb
    have hne : b ≠ p := fun h => hp (h ▸ hb)
    have hcompare : s.armedCompare p elapsed p b =
        compareTimeout (s.deadline elapsed) (s.timeout b) := by
      unfold armedCompare armed
      dsimp only
      rw [Function.update_self, Function.update_of_ne hne]
    rw [hcompare]
    rfl
  obtain ⟨htake, hdrop⟩ := split_congr hagree
  unfold Chain.place placed
  rw [htake, hdrop]

/-- **Where a port is put** in the queue. -/
theorem setTimeout_spec (hs : s.Holds l) (hp : p ∉ l)
    (hres : s.setTimeout fuel p elapsed = some s') :
    Chain.Linked s'.next s'.waiting.first (s.placed p elapsed l) ∧
      s'.waiting.last = (s.placed p elapsed l).getLast? ∧
      s'.wait = Function.update s.wait p true ∧
      s'.timeout = Function.update s.timeout p (s.deadline elapsed) ∧
      s'.clock = s.clock + elapsed ∧ s'.seconds = s.seconds := by
  obtain ⟨r, hinsert, rfl⟩ := Option.map_eq_some_iff.mp hres
  unfold queueInsert at hinsert
  obtain ⟨⟨prev, next, first⟩, hat, hr⟩ := Option.bind_eq_some_iff.mp hinsert
  obtain rfl := Option.some.inj hr
  have hsorted : Chain.insertSorted fuel s.next s.waiting.first p (s.armedCompare p elapsed) =
      some (next, first) := by
    rw [← insertSortedAt_eq]
    exact congrArg (Option.map Prod.snd) hat
  obtain ⟨hlinked, -⟩ := Chain.insertSorted_spec hs.linked hs.nodup hp hsorted
  rw [place_eq hp] at hlinked
  refine ⟨hlinked, ?_, rfl, rfl, rfl, rfl⟩
  -- the old last node is followed by the port, or by nothing
  show (match s.waiting.last with
    | some q => if next q ≠ none then next q else some q
    | none => first) = _
  have hsplit := List.takeWhile_append_dropWhile (p := s.later elapsed) (l := l)
  rw [hs.last]
  unfold placed at hlinked ⊢
  rcases (l.dropWhile (s.later elapsed)).eq_nil_or_concat with hdrop | ⟨d, z, hdrop⟩
  · rw [hdrop, List.append_nil] at hsplit
    rw [hdrop, hsplit] at hlinked
    rw [hdrop, hsplit]
    rcases l.eq_nil_or_concat with rfl | ⟨k, z, rfl⟩
    · exact hlinked.1
    · rw [List.concat_eq_append] at hlinked ⊢
      rw [List.append_assoc] at hlinked
      have hz := hlinked.rest.1
      rw [List.getLast?_append_cons, List.getLast?_append_cons]
      show (if next z ≠ none then next z else some z) = some p
      rw [hz]
      exact if_pos (Option.some_ne_none p)
  · rw [List.concat_eq_append] at hdrop
    rw [hdrop] at hsplit hlinked ⊢
    rw [← List.cons_append, ← List.append_assoc] at hlinked ⊢
    have hz : next z = none := hlinked.rest
    have hlast : l.getLast? = some z := by
      rw [← hsplit, ← List.append_assoc, List.getLast?_append_cons]
      rfl
    rw [hlast, List.getLast?_append_cons]
    show (if next z ≠ none then next z else some z) = some z
    exact if_neg (not_not.mpr hz)

/-- A port that does not wait is put in the queue. -/
theorem setTimeout_returns (hs : s.Holds l) (hfuel : l.length < fuel) :
    ∃ s', s.setTimeout fuel p elapsed = some s' := by
  have hsome : (Chain.insertSorted fuel s.next s.waiting.first p
      (s.armedCompare p elapsed)).isSome := Chain.insertSorted_total hs.linked hfuel
  rw [← insertSortedAt_eq, Option.isSome_map] at hsome
  obtain ⟨r, hr⟩ := Option.isSome_iff_exists.mp hsome
  have hinsert : ∃ s', (s.armed p elapsed).queueInsert fuel p = some s' :=
    ⟨_, Option.bind_eq_some_iff.mpr ⟨r, hr, rfl⟩⟩
  obtain ⟨s', hs'⟩ := hinsert
  exact ⟨s'.setTimer, congrArg (Option.map setTimer) hs'⟩

theorem placed_sorted (hs : s.Holds l) (hb : s.Bounded) (hp : p ∉ l) :
    (s.placed p elapsed l).Pairwise (fun a b =>
      (Function.update s.timeout p (s.deadline elapsed) a).Le
        (Function.update s.timeout p (s.deadline elapsed) b)) ↔
      ∀ q, s.wait q = true → ¬(s.deadline elapsed).Le (s.timeout q) →
        0 < compareTimeout (s.deadline elapsed) (s.timeout q) := by
  have hsplit := List.takeWhile_append_dropWhile (p := s.later elapsed) (l := l)
  have hother : ∀ q ∈ l, Function.update s.timeout p (s.deadline elapsed) q = s.timeout q :=
    fun q hq => Function.update_of_ne (show q ≠ p from fun h => hp (h ▸ hq)) _ _
  have hself : Function.update s.timeout p (s.deadline elapsed) p = s.deadline elapsed :=
    Function.update_self ..
  constructor
  · intro hsorted q hq hlate
    by_contra hcompare
    have hafter : q ∈ l.dropWhile (s.later elapsed) := by
      have hmem := (hs.waiting q).mpr hq
      rw [← hsplit] at hmem
      refine (List.mem_append.mp hmem).resolve_left fun hmem => hcompare ?_
      exact of_decide_eq_true (List.mem_takeWhile_imp (p := s.later elapsed) hmem)
    unfold placed at hsorted
    have hle := (List.pairwise_cons.mp (List.pairwise_append.mp hsorted).2.1).1 q hafter
    rw [hself, hother q ((hs.waiting q).mpr hq)] at hle
    exact hlate hle
  · intro hmeets
    have hsorted := hs.sorted
    have hmember : ∀ q ∈ l.dropWhile (s.later elapsed), q ∈ l := fun q hq => by
      rw [← hsplit]
      exact List.mem_append_right _ hq
    have hmember' : ∀ q ∈ l.takeWhile (s.later elapsed), q ∈ l := fun q hq => by
      rw [← hsplit]
      exact List.mem_append_left _ hq
    rw [← hsplit] at hsorted
    obtain ⟨htake, hdrop, hcross⟩ := List.pairwise_append.mp hsorted
    -- the first port that is not earlier comes no earlier than the deadline
    have hafter : ∀ q ∈ l.dropWhile (s.later elapsed), (s.deadline elapsed).Le (s.timeout q) := by
      cases hrest : l.dropWhile (s.later elapsed) with
      | nil => exact fun q hq => absurd hq List.not_mem_nil
      | cons b t =>
        rw [hrest] at hdrop hmember
        have hb₀ : (s.deadline elapsed).Le (s.timeout b) := by
          by_contra hlate
          have hcompare := hmeets b ((hs.waiting b).mp (hmember b List.mem_cons_self)) hlate
          have hhead := List.head?_dropWhile_not (s.later elapsed) l
          rw [hrest] at hhead
          have hfalse : s.later elapsed b = false := by simpa using hhead
          exact of_decide_eq_false hfalse hcompare
        intro q hq
        rcases List.mem_cons.mp hq with rfl | hq
        · exact hb₀
        · exact Timespec.le_trans hb₀ ((List.pairwise_cons.mp hdrop).1 q hq)
    unfold placed
    refine List.pairwise_append.mpr ⟨?_, List.pairwise_cons.mpr ⟨?_, ?_⟩, ?_⟩
    · exact htake.imp_of_mem fun ha hb hle => by
        rwa [hother _ (hmember' _ ha), hother _ (hmember' _ hb)]
    · intro q hq
      rw [hself, hother q (hmember q hq)]
      exact hafter q hq
    · exact hdrop.imp_of_mem fun ha hb hle => by
        rwa [hother _ (hmember _ ha), hother _ (hmember _ hb)]
    · intro a ha b hb'
      rw [hother a (hmember' a ha)]
      rcases List.mem_cons.mp hb' with rfl | hb'
      · rw [hself]
        exact Timespec.le_trans (hb a ((hs.waiting a).mp (hmember' a ha))) (s.deadline_le elapsed)
      · rw [hother b (hmember b hb')]
        exact hcross a ha b hb'

/-- **`set_timeout`** leaves the queue right for a port that does not wait and is compared right. -/
theorem setTimeout_iff (hs : s.Right) (hb : s.Bounded) :
    (∃ s', s.Step (.setTimeout p elapsed) s' ∧ s'.Right) ↔ s.Meets (.setTimeout p elapsed) := by
  obtain ⟨l, hl⟩ := hs
  constructor
  · rintro ⟨s', ⟨fuel, hstep⟩, l', hl'⟩
    have hp : s.wait p = false := by
      rw [← Bool.not_eq_true]
      intro hwait
      obtain ⟨r, hinsert, rfl⟩ := Option.map_eq_some_iff.mp hstep
      obtain ⟨⟨prev, next, first⟩, hat, hr⟩ := Option.bind_eq_some_iff.mp hinsert
      obtain rfl := Option.some.inj hr
      have hagain : p ∉ l' := by
        refine insertSortedAt_again hl.linked hl.nodup ((hl.waiting p).mpr hwait) ?_ hat hl'.linked
          hl'.nodup
        rw [compareTimeout_self]
        exact Int.lt_irrefl 0
      have hflag : Function.update s.wait p true p = true := Function.update_self ..
      exact hagain ((hl'.waiting p).mpr hflag)
    have hpl : p ∉ l := fun hmem => by
      rw [(hl.waiting p).mp hmem] at hp
      exact Bool.noConfusion hp
    obtain ⟨hlinked, -, -, htimeout, -, -⟩ := setTimeout_spec hl hpl hstep
    have hsorted := hl'.sorted
    rw [hl'.linked.unique hlinked, htimeout] at hsorted
    exact ⟨hp, (placed_sorted hl hb hpl).mp hsorted⟩
  · rintro ⟨hp, hcompare⟩
    have hpl : p ∉ l := fun hmem => by
      rw [(hl.waiting p).mp hmem] at hp
      exact Bool.noConfusion hp
    obtain ⟨s', hstep⟩ : ∃ s', s.setTimeout (l.length + 1) p elapsed = some s' :=
      setTimeout_returns hl (Nat.lt_succ_self _)
    obtain ⟨hlinked, hlast, hwait, htimeout, -, -⟩ := setTimeout_spec hl hpl hstep
    refine ⟨s', ⟨_, hstep⟩, s.placed p elapsed l, hlinked, placed_nodup hl.nodup hpl, ?_, ?_, hlast⟩
    · intro q
      rw [mem_placed, hwait, hl.waiting]
      by_cases hq : q = p
      · rw [hq, Function.update_self]
        exact iff_of_true (Or.inl rfl) rfl
      · rw [Function.update_of_ne hq]
        exact or_iff_right hq
    · rw [htimeout]
      exact (placed_sorted hl hb hpl).mpr hcompare

/-- The head of the queue is taken out. -/
theorem queueRemove_spec {a : P} (hlinked : Chain.Linked s.next s.waiting.first (a :: l))
    (hnd : (a :: l).Nodup) (hlast : s.waiting.last = (a :: l).getLast?) :
    ∃ w, s.queueRemove = (some a, { s with waiting := w }) ∧ Chain.Linked s.next w.first l ∧
      w.last = l.getLast? := by
  have hfirst := hlinked.1
  unfold queueRemove
  rw [hlast, hfirst]
  dsimp only
  cases l with
  | nil => exact ⟨{}, if_pos rfl, rfl, rfl⟩
  | cons b l =>
    have hne : ¬some a = (a :: b :: l).getLast? := by
      rw [List.getLast?_cons_cons]
      intro h
      exact (List.nodup_cons.mp hnd).1 (List.mem_of_getLast? h.symm)
    refine ⟨_, if_neg hne, hlinked.2, ?_⟩
    rw [hlast, List.getLast?_cons_cons]

/-- A list without one of its nodes, whose flag is cleared. -/
theorem mem_cleared (hs : s.Holds l) {l' : List P} (hl' : ∀ q, q ∈ l' ↔ q ∈ l ∧ q ≠ p) :
    ∀ q, q ∈ l' ↔ Function.update s.wait p false q = true := by
  intro q
  rw [hl', hs.waiting]
  by_cases hq : q = p
  · rw [hq, Function.update_self]
    exact iff_of_false (fun h => h.2 rfl) Bool.false_ne_true
  · rw [Function.update_of_ne hq]
    exact and_iff_left hq

/-- A port that keeps no node in front of it takes out the first. -/
theorem clearTimeout_first (hs : s.Holds l) (hwait : s.wait p = true) (hprev : s.prev p = none) :
    ((s.clearTimeout p).Right → s.waiting.first = some p) ∧
      (s.waiting.first = some p → (s.clearTimeout p).Holds (l.erase p)) := by
  have hp := (hs.waiting p).mpr hwait
  cases l with
  | nil => exact absurd hp List.not_mem_nil
  | cons a l =>
    obtain ⟨w, hremove, hlinked, hlast⟩ :=
      queueRemove_spec (s := { s with wait := Function.update s.wait p false }) hs.linked hs.nodup
        hs.last
    have hclear : s.clearTimeout p =
        ({ s with wait := Function.update s.wait p false, waiting := w }).setTimer := by
      unfold clearTimeout
      rw [if_pos hwait]
      dsimp only
      rw [hprev, hremove]
    rw [hclear, hs.linked.1, Option.some.injEq]
    constructor
    · rintro ⟨l', hl'⟩
      have hsame : l' = l := hl'.linked.unique hlinked
      have hout : p ∉ l := fun hmem => by
        rw [← hsame] at hmem
        have hflag : Function.update s.wait p false p = true := (hl'.waiting p).mp hmem
        rw [Function.update_self] at hflag
        exact Bool.false_ne_true hflag
      exact ((List.mem_cons.mp hp).resolve_right hout).symm
    · rintro rfl
      have hnd := List.nodup_cons.mp hs.nodup
      rw [List.erase_cons_head]
      refine ⟨hlinked, hnd.2, mem_cleared hs fun q => ?_, (List.pairwise_cons.mp hs.sorted).2,
        hlast⟩
      rw [List.mem_cons]
      constructor
      · exact fun hq => ⟨Or.inr hq, fun h => hnd.1 (h ▸ hq)⟩
      · exact fun hq => hq.1.resolve_left hq.2

/-- A port that keeps a node redirects the link of that node. -/
theorem clearTimeout_behind (hs : s.Holds l) (hwait : s.wait p = true) (hprev : s.prev p = some q) :
    ((s.clearTimeout p).Right →
        s.wait q = true ∧ s.next q = some p ∧ s.waiting.last ≠ some p) ∧
      (s.wait q = true ∧ s.next q = some p ∧ s.waiting.last ≠ some p →
        (s.clearTimeout p).Holds (l.erase p)) := by
  have hp := (hs.waiting p).mpr hwait
  have hclear : s.clearTimeout p = { s with
      wait := Function.update s.wait p false
      next := Function.update s.next q (s.next p)
      prev := Function.update s.prev p none } := by
    unfold clearTimeout
    rw [if_pos hwait]
    dsimp only
    rw [hprev]
  rw [hclear]
  constructor
  · rintro ⟨l', hl'⟩
    have hout : p ∉ l' := fun hmem => by
      have hflag : Function.update s.wait p false p = true := (hl'.waiting p).mp hmem
      rw [Function.update_self] at hflag
      exact Bool.false_ne_true hflag
    have hlast : s.waiting.last ≠ some p := fun h => by
      have hsame : s.waiting.last = l'.getLast? := hl'.last
      exact hout (List.mem_of_getLast? (hsame.symm.trans h))
    -- the node in front of the port still leads to it, unless its link was redirected
    obtain ⟨u, w, rfl⟩ := List.append_of_mem hp
    rcases u.eq_nil_or_concat with rfl | ⟨v, r, rfl⟩
    · have hfirst : s.waiting.first = some p := hs.linked.1
      have hhead : s.waiting.first = l'.head? := hl'.linked.head_eq
      exact absurd (List.mem_of_head? (hhead.symm.trans hfirst)) hout
    · rw [List.concat_eq_append, List.append_assoc] at hs
      have hr : s.next r = some p := hs.linked.rest.1
      have hwaitr : s.wait r = true := (hs.waiting r).mp (by simp)
      by_cases hrq : r = q
      · rw [← hrq]
        exact ⟨hwaitr, hr, hlast⟩
      · have hne : r ≠ p := by
          rintro rfl
          exact (List.nodup_cons.mp (List.nodup_append.mp hs.nodup).2.1).1 List.mem_cons_self
        have hmem : r ∈ l' := (hl'.waiting r).mpr
          ((Function.update_of_ne hne false s.wait).trans hwaitr)
        obtain ⟨a, b, rfl⟩ := List.append_of_mem hmem
        have hrest : Chain.Linked (Function.update s.next q (s.next p))
            (Function.update s.next q (s.next p) r) b := hl'.linked.rest
        rw [Function.update_of_ne hrq, hr] at hrest
        refine absurd (List.mem_append_right a (List.mem_cons_of_mem r ?_)) hout
        exact List.mem_of_head? hrest.head_eq.symm
  · rintro ⟨hq, hnext, hlast⟩
    obtain ⟨u, r, rfl⟩ := List.append_of_mem ((hs.waiting q).mpr hq)
    have hrest := hs.linked.rest
    rw [hnext] at hrest
    obtain ⟨w, rfl⟩ : ∃ w, r = p :: w := by
      cases r with
      | nil => exact absurd hrest (Option.some_ne_none p)
      | cons b w => exact ⟨w, by rw [Option.some.inj hrest.1]⟩
    have hsplit : u ++ q :: p :: w = (u ++ [q]) ++ p :: w := by simp
    have hlinked := hs.linked
    have hnd := hs.nodup
    rw [hsplit] at hlinked hnd
    have hskip := hlinked.unlink hnd
    rw [Chain.getLast?_append_cons] at hskip
    have hpu : p ∉ u ++ q :: w := by
      have hmiddle : (u ++ [q] ++ p :: w).Nodup := hnd
      rw [List.nodup_middle, List.append_assoc] at hmiddle
      exact (List.nodup_cons.mp hmiddle).1
    have hsub : (u ++ q :: w).Sublist (u ++ q :: p :: w) :=
      ((List.sublist_cons_self p w).cons_cons q).append_left u
    have herase : (u ++ q :: p :: w).erase p = u ++ q :: w := by
      rw [hsplit, List.erase_append_right, List.erase_cons_head, List.append_assoc]
      · rfl
      · intro hmem
        refine hpu (List.mem_append.mpr ((List.mem_append.mp hmem).imp id fun hmem => ?_))
        exact List.mem_cons.mpr (Or.inl (List.mem_singleton.mp hmem))
    rw [herase]
    refine ⟨?_, hs.nodup.sublist hsub, mem_cleared hs fun x => ?_, hs.sorted.sublist hsub, ?_⟩
    · rw [List.append_assoc] at hskip
      exact hskip
    · constructor
      · exact fun hx => ⟨hsub.subset hx, fun h => hpu (h ▸ hx)⟩
      · rintro ⟨hx, hne⟩
        simp only [List.mem_append, List.mem_cons] at hx ⊢
        tauto
    · show s.waiting.last = _
      rw [hs.last] at hlast ⊢
      cases w with
      | nil => exact absurd (by simp) hlast
      | cons b w => simp

theorem clearTimeout_idle (hwait : s.wait p = false) : s.clearTimeout p = s := by
  unfold clearTimeout
  rw [hwait]
  rfl

/-- A port that can be taken out is the one that is. -/
theorem clearTimeout_holds (hs : s.Holds l) (hclears : s.Clears p) :
    (s.clearTimeout p).Holds (l.erase p) := by
  unfold Clears at hclears
  cases hwait : s.wait p with
  | false =>
    have hp : p ∉ l := fun hmem => by
      rw [(hs.waiting p).mp hmem] at hwait
      exact Bool.noConfusion hwait
    rw [clearTimeout_idle hwait, List.erase_of_not_mem hp]
    exact hs
  | true =>
    have hout := hclears hwait
    cases hprev : s.prev p with
    | none =>
      rw [hprev] at hout
      exact (clearTimeout_first hs hwait hprev).2 hout
    | some q =>
      rw [hprev] at hout
      exact (clearTimeout_behind hs hwait hprev).2 hout

/-- **`clear_timeout`** leaves the queue right where the port can be taken out. -/
theorem clearTimeout_iff (hs : s.Right) : (s.clearTimeout p).Right ↔ s.Clears p := by
  obtain ⟨l, hl⟩ := hs
  constructor
  · intro hright hwait
    cases hprev : s.prev p with
    | none => exact (clearTimeout_first hl hwait hprev).1 hright
    | some q => exact (clearTimeout_behind hl hwait hprev).1 hright
  · exact fun hclears => ⟨l.erase p, clearTimeout_holds hl hclears⟩

/-- What `clear_timeout` does to the flags, and what it keeps. -/
theorem clearTimeout_fields (s : TcpPorts P) (p : P) :
    (s.clearTimeout p).wait = Function.update s.wait p false ∧
      (s.clearTimeout p).active = s.active ∧ (s.clearTimeout p).timeout = s.timeout ∧
      (s.clearTimeout p).clock = s.clock ∧ (s.clearTimeout p).seconds = s.seconds := by
  cases hwait : s.wait p with
  | false =>
    rw [clearTimeout_idle hwait]
    refine ⟨?_, rfl, rfl, rfl, rfl⟩
    conv_rhs => rw [← hwait, Function.update_eq_self]
  | true =>
    unfold clearTimeout
    rw [if_pos hwait]
    dsimp only
    split
    · exact ⟨rfl, rfl, rfl, rfl, rfl⟩
    · unfold queueRemove setTimer
      split
      · exact ⟨rfl, rfl, rfl, rfl, rfl⟩
      · split <;> exact ⟨rfl, rfl, rfl, rfl, rfl⟩

/-- **`tcp_expired`** leaves the flag of the port that has expired set. -/
theorem tcpExpired_iff (hs : s.Right) : s.tcpExpired.2.Right ↔ s.Meets .tcpExpired := by
  obtain ⟨l, hl⟩ := hs
  show _ ↔ s.waiting.first = none
  cases l with
  | nil =>
    have hfirst : s.waiting.first = none := hl.linked
    have hsame : s.tcpExpired.2 = s := by
      unfold tcpExpired queueRemove
      rw [hfirst]
    rw [hsame]
    exact iff_of_true ⟨[], hl⟩ hfirst
  | cons a l =>
    obtain ⟨w, hremove, hlinked, -⟩ := queueRemove_spec hl.linked hl.nodup hl.last
    have hexpired : s.tcpExpired.2 = ({ s with waiting := w }).setTimer := by
      unfold tcpExpired
      rw [hremove]
    rw [hexpired, hl.linked.1]
    refine iff_of_false ?_ (Option.some_ne_none a)
    rintro ⟨l', hl'⟩
    have hsame : l' = l := hl'.linked.unique hlinked
    have hmem : a ∈ l' := (hl'.waiting a).mpr ((hl.waiting a).mp List.mem_cons_self)
    rw [hsame] at hmem
    exact (List.nodup_cons.mp hl.nodup).1 hmem

/-- A port that does not wait is linked behind the last active one. -/
theorem queueAdd_right (hp : s.wait p = false) : (s.queueAdd p).Right ↔
    s.Right ∧ ∀ r, s.active.last = some r → s.wait r = false := by
  unfold queueAdd
  cases hlast : s.active.last with
  | none =>
    dsimp only
    constructor
    · rintro ⟨l, hl⟩
      exact ⟨⟨l, hl.linked, hl.nodup, hl.waiting, hl.sorted, hl.last⟩, fun r hr =>
        absurd hr.symm (Option.some_ne_none r)⟩
    · rintro ⟨⟨l, hl⟩, -⟩
      exact ⟨l, hl.linked, hl.nodup, hl.waiting, hl.sorted, hl.last⟩
  | some r =>
    dsimp only
    constructor
    · rintro ⟨l, hl⟩
      have hlinked : Chain.Linked (Function.update s.next r (some p)) s.waiting.first l := hl.linked
      have hr : s.wait r = false := by
        rw [← Bool.not_eq_true]
        intro hwait
        obtain ⟨u, w, rfl⟩ := List.append_of_mem ((hl.waiting r).mpr hwait)
        have hrest := hlinked.rest
        rw [Function.update_self] at hrest
        have hmem : p ∈ u ++ r :: w :=
          List.mem_append_right u (List.mem_cons_of_mem r (List.mem_of_head? hrest.head_eq.symm))
        have hflag : s.wait p = true := (hl.waiting p).mp hmem
        rw [hp] at hflag
        exact Bool.false_ne_true hflag
      refine ⟨⟨l, ?_, hl.nodup, hl.waiting, hl.sorted, hl.last⟩, fun q hq => ?_⟩
      · refine hlinked.congr fun b hb => (Function.update_of_ne ?_ _ _).symm
        rintro rfl
        have hflag : s.wait b = true := (hl.waiting b).mp hb
        rw [hr] at hflag
        exact Bool.false_ne_true hflag
      · rwa [← Option.some.inj hq]
    · rintro ⟨⟨l, hl⟩, hr⟩
      refine ⟨l, ?_, hl.nodup, hl.waiting, hl.sorted, hl.last⟩
      refine hl.linked.congr fun b hb => Function.update_of_ne ?_ _ _
      rintro rfl
      have hflag := (hl.waiting b).mp hb
      rw [hr b rfl] at hflag
      exact Bool.false_ne_true hflag

/-- **`net_close`** links the port behind the last active one, which must not wait. -/
theorem netClose_iff (hs : s.Right) : (s.netClose p).Right ↔ s.Meets (.netClose p) := by
  have hclose : ((({ s with type := Function.update s.type p .closed }).clearTimeout p).queueAdd
      p).Right ↔ s.Clears p ∧ ∀ r, s.active.last = some r → s.wait r = true → r = p := by
    obtain ⟨hwait, hactive, -⟩ :=
      clearTimeout_fields { s with type := Function.update s.type p .closed } p
    have hright : TcpPorts.Right { s with type := Function.update s.type p .closed } :=
      hs.imp fun l hl => ⟨hl.linked, hl.nodup, hl.waiting, hl.sorted, hl.last⟩
    rw [queueAdd_right (by rw [hwait, Function.update_self]), clearTimeout_iff hright, hwait,
      hactive]
    refine and_congr_right fun _ => forall_congr' fun r => imp_congr_right fun _ => ?_
    by_cases hr : r = p
    · rw [hr, Function.update_self]
      exact iff_of_true rfl fun _ => rfl
    · rw [Function.update_of_ne hr, ← Bool.not_eq_true]
      exact ⟨fun h h' => absurd h' h, fun h h' => hr (h h')⟩
  show _ ↔ (s.type p = .connect ∨ s.type p = .port → _)
  unfold netClose
  cases htype : s.type p with
  | connect =>
    rw [imp_iff_right (Or.inl rfl)]
    exact hclose
  | port =>
    rw [imp_iff_right (Or.inr rfl)]
    exact hclose
  | closed => exact iff_of_true hs fun h => by rcases h with h | h <;> cases h
  | other => exact iff_of_true hs fun h => by rcases h with h | h <;> cases h

/-! ## Runs -/

/-- What a call leaves, once it returns, does not depend on the fuel. -/
theorem setTimeout_unique {fuel' : ℕ} {s'' : TcpPorts P}
    (h : s.setTimeout fuel p elapsed = some s') (h' : s.setTimeout fuel' p elapsed = some s'') :
    s' = s'' := by
  obtain ⟨r, hr, rfl⟩ := Option.map_eq_some_iff.mp h
  obtain ⟨r', hr', rfl⟩ := Option.map_eq_some_iff.mp h'
  unfold queueInsert insertSortedAt at hr hr'
  obtain ⟨x, hx, hr⟩ := Option.bind_eq_some_iff.mp hr
  obtain ⟨x', hx', hr'⟩ := Option.bind_eq_some_iff.mp hr'
  obtain ⟨y, hseek, hx⟩ := Option.bind_eq_some_iff.mp hx
  obtain ⟨y', hseek', hx'⟩ := Option.bind_eq_some_iff.mp hx'
  obtain rfl := Chain.seek_unique hseek hseek'
  obtain rfl := Option.some.inj (hx.symm.trans hx')
  rw [Option.some.inj (hr.symm.trans hr')]

theorem step_unique {c : TcpCall P} {s'' : TcpPorts P} (h : s.Step c s') (h' : s.Step c s'') :
    s' = s'' := by
  obtain ⟨fuel, h⟩ := h
  obtain ⟨fuel', h'⟩ := h'
  cases c with
  | setTimeout p elapsed => exact setTimeout_unique h h'
  | clearTimeout p => exact Option.some.inj (h.symm.trans h')
  | tcpExpired => exact Option.some.inj (h.symm.trans h')
  | netClose p => exact Option.some.inj (h.symm.trans h')

/-- **One call** returns and leaves the queue right where it is one of those that do. -/
theorem step_iff (hs : s.Right) (hb : s.Bounded) (c : TcpCall P) :
    (∃ s', s.Step c s' ∧ s'.Right) ↔ s.Meets c := by
  have htotal : ∀ s' : TcpPorts P, (∀ fuel, s.step fuel c = some s') →
      ((∃ r, s.Step c r ∧ r.Right) ↔ s'.Right) := fun s' hstep =>
    ⟨fun ⟨r, hr, hright⟩ => step_unique hr ⟨0, hstep 0⟩ ▸ hright,
      fun hright => ⟨s', ⟨0, hstep 0⟩, hright⟩⟩
  cases c with
  | setTimeout p elapsed => exact setTimeout_iff hs hb
  | clearTimeout p => exact (htotal _ fun _ => rfl).trans (clearTimeout_iff hs)
  | tcpExpired => exact (htotal _ fun _ => rfl).trans (tcpExpired_iff hs)
  | netClose p => exact (htotal _ fun _ => rfl).trans (netClose_iff hs)

/-- Flags that are cleared leave the timeouts that count. -/
theorem Bounded.clear (hb : s.Bounded) (hwait : s'.wait = Function.update s.wait p false)
    (htimeout : s'.timeout = s.timeout) (hclock : s'.clock = s.clock)
    (hseconds : s'.seconds = s.seconds) : s'.Bounded := by
  have hdeadline : s'.deadline 0 = s.deadline 0 := by
    unfold deadline
    rw [hclock, hseconds]
  intro q hq
  have hne : q ≠ p := by
    rintro rfl
    rw [hwait, Function.update_self] at hq
    exact Bool.false_ne_true hq
  rw [hwait, Function.update_of_ne hne] at hq
  rw [htimeout, hdeadline]
  exact hb q hq

theorem Bounded.step (hs : s.Right) (hb : s.Bounded) {c : TcpCall P} (hmeets : s.Meets c)
    (hstep : s.Step c s') : s'.Bounded := by
  obtain ⟨l, hl⟩ := hs
  obtain ⟨fuel, hstep⟩ := hstep
  cases c with
  | setTimeout p elapsed =>
    have hp : p ∉ l := fun hmem => by
      have hwait := hmeets.1
      rw [(hl.waiting p).mp hmem] at hwait
      exact Bool.noConfusion hwait
    obtain ⟨-, -, hwait, htimeout, hclock, hseconds⟩ := setTimeout_spec hl hp hstep
    have hdeadline : s'.deadline 0 = s.deadline elapsed := by
      unfold deadline
      rw [hclock, hseconds, Nat.add_zero]
    intro q hq
    rw [hdeadline, htimeout]
    by_cases hqp : q = p
    · rw [hqp, Function.update_self]
      exact Timespec.le_refl _
    · rw [hwait, Function.update_of_ne hqp] at hq
      rw [Function.update_of_ne hqp]
      exact Timespec.le_trans (hb q hq) (s.deadline_le elapsed)
  | clearTimeout p =>
    obtain rfl := Option.some.inj hstep
    obtain ⟨hwait, -, htimeout, hclock, hseconds⟩ := clearTimeout_fields s p
    exact hb.clear hwait htimeout hclock hseconds
  | tcpExpired =>
    obtain rfl := Option.some.inj hstep
    have hfirst : s.waiting.first = none := hmeets
    have hsame : s.tcpExpired.2 = s := by
      unfold tcpExpired queueRemove
      rw [hfirst]
    rwa [hsame]
  | netClose p =>
    obtain rfl := Option.some.inj hstep
    obtain ⟨hwait, -, htimeout, hclock, hseconds⟩ :=
      clearTimeout_fields { s with type := Function.update s.type p .closed } p
    have hadd : ∀ r : TcpPorts P, (r.queueAdd p).wait = r.wait ∧
        (r.queueAdd p).timeout = r.timeout ∧ (r.queueAdd p).clock = r.clock ∧
        (r.queueAdd p).seconds = r.seconds := by
      intro r
      unfold queueAdd
      split <;> exact ⟨rfl, rfl, rfl, rfl⟩
    have hclose : ((({ s with type := Function.update s.type p .closed }).clearTimeout p).queueAdd
        p).Bounded := by
      obtain ⟨hwait', htimeout', hclock', hseconds'⟩ :=
        hadd (({ s with type := Function.update s.type p .closed }).clearTimeout p)
      exact hb.clear (hwait'.trans hwait) (htimeout'.trans htimeout) (hclock'.trans hclock)
        (hseconds'.trans hseconds)
    show (s.netClose p).Bounded
    unfold netClose
    cases s.type p with
    | connect => exact hclose
    | port => exact hclose
    | closed => exact hb
    | other => exact hb

theorem removes_step {c : TcpCall P} (hmeets : s.Meets c) (hstep : s.Step c s') :
    s.Removes s' c := by
  obtain ⟨fuel, hstep⟩ := hstep
  cases c with
  | clearTimeout p =>
    obtain rfl := Option.some.inj hstep
    exact fun l l' hl hl' => hl'.unique (clearTimeout_holds hl hmeets)
  | setTimeout p elapsed => exact trivial
  | tcpExpired => exact trivial
  | netClose p => exact trivial

theorem Keeps.right {cs : List (TcpCall P)} (h : s.Keeps cs) : s.Right := by
  cases cs with
  | nil => exact h
  | cons c cs => exact h.1

/-- A run from a queue that is right. -/
theorem keeps_iff (cs : List (TcpCall P)) (hs : s.Right) (hb : s.Bounded) :
    s.Keeps cs ↔ s.AllMeet cs := by
  induction cs generalizing s with
  | nil => exact iff_of_true hs trivial
  | cons c cs ih =>
    constructor
    · rintro ⟨-, s', hstep, -, hkeeps⟩
      have hmeets : s.Meets c := (step_iff hs hb c).mp ⟨s', hstep, hkeeps.right⟩
      refine ⟨hmeets, fun r hr => ?_⟩
      rw [step_unique hr hstep]
      exact (ih hkeeps.right (hb.step hs hmeets hstep)).mp hkeeps
    · rintro ⟨hmeets, hall⟩
      obtain ⟨s', hstep, hright⟩ := (step_iff hs hb c).mpr hmeets
      refine ⟨hs, s', hstep, removes_step hmeets hstep, ?_⟩
      exact (ih hright (hb.step hs hmeets hstep)).mpr (hall s' hstep)

omit [DecidableEq P] in
theorem Idle.right (h : s.Idle) : s.Right := by
  refine ⟨[], h.first, List.nodup_nil, fun p => ?_, List.Pairwise.nil, h.last⟩
  rw [h.wait]
  exact iff_of_false List.not_mem_nil Bool.false_ne_true

omit [DecidableEq P] in
theorem Idle.bounded (h : s.Idle) : s.Bounded := fun q hq => by
  rw [h.wait] at hq
  exact absurd hq Bool.false_ne_true

/-- **The timeouts of TCP ports.**  A run keeps the queue right where every call is one of those
that do, in the state it meets. -/
theorem keeps_iff_allMeet (s : TcpPorts P) (h : s.Idle) (cs : List (TcpCall P)) :
    s.Keeps cs ↔ s.AllMeet cs :=
  keeps_iff cs h.right h.bounded

/-- Two ports, of which none is armed. -/
def twoPorts : TcpPorts Bool where
  next := fun _ => none
  prev := fun _ => none
  wait := fun _ => false
  timeout := fun _ => ⟨0, 0⟩
  type := fun _ => .port

theorem twoPorts_idle : twoPorts.Idle := ⟨fun _ => rfl, rfl, rfl⟩

/-- Three ports, of which none is armed. -/
def threePorts : TcpPorts (Fin 3) where
  next := fun _ => none
  prev := fun _ => none
  wait := fun _ => false
  timeout := fun _ => ⟨0, 0⟩
  type := fun _ => .port

theorem threePorts_idle : threePorts.Idle := ⟨fun _ => rfl, rfl, rfl⟩

/-- Three ports are armed one after the other; the one in the middle is cleared, then the first. -/
theorem threePorts_keeps : threePorts.Keeps [.setTimeout 0 1, .setTimeout 1 1, .setTimeout 2 1,
    .clearTimeout 1, .clearTimeout 0] := by
  refine (keeps_iff_allMeet threePorts threePorts_idle _).mpr ⟨⟨rfl, by decide⟩, fun s₁ h₁ => ?_⟩
  rw [step_unique h₁ ⟨1, rfl⟩]
  refine ⟨⟨rfl, by decide⟩, fun s₂ h₂ => ?_⟩
  rw [step_unique h₂ ⟨2, rfl⟩]
  refine ⟨⟨rfl, by decide⟩, fun s₃ h₃ => ?_⟩
  rw [step_unique h₃ ⟨3, rfl⟩]
  refine ⟨fun _ => ⟨rfl, rfl, by decide⟩, fun s₄ h₄ => ?_⟩
  rw [step_unique h₄ ⟨0, rfl⟩]
  exact ⟨fun _ => rfl, fun _ _ => trivial⟩

/-- The second port keeps the first as the node in front of it when that has been cleared. -/
theorem twoPorts_not_keeps : ¬twoPorts.Keeps
    [.setTimeout false 0, .setTimeout true 1, .clearTimeout false, .clearTimeout true] := by
  intro h
  obtain ⟨-, h⟩ := (keeps_iff _ twoPorts_idle.right twoPorts_idle.bounded).mp h
  obtain ⟨-, h⟩ := h _ ⟨1, rfl⟩
  obtain ⟨-, h⟩ := h _ ⟨2, rfl⟩
  obtain ⟨h, -⟩ := h _ ⟨0, rfl⟩
  exact absurd (h rfl).1 (by decide)

end TcpPorts

end SeClient
