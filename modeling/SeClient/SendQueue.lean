import Mathlib.Data.Int.Notation
import Mathlib.Data.List.Basic
import Mathlib.Data.List.Induction

/-!
# The send queue of a connection

`http_write` offers a buffer to the connection at once and queues a copy when the connection
does not take it; `http_flush` offers the queued buffers again.  What `conn_write` returns is
up to the connection: the number of bytes taken, or a negative value.
-/

namespace SeClient

/-- A call of `conn_write`, `direct` when `http_write` made it. -/
structure WriteCall where
  direct : Bool
  offered : List UInt8
  result : ℤ
deriving DecidableEq, Repr

/-- The fields of `HttpConnection` that concern sending.  With `closed` the connection is not
connected.  The history: the bytes the connection has taken, those passed to `http_write` and
the calls of `conn_write`. -/
structure Outgoing where
  send : List (List UInt8) := []
  close : Bool := false
  closed : Bool := false
  taken : List UInt8 := []
  written : List UInt8 := []
  calls : List WriteCall := []
deriving DecidableEq, Repr

/-- What happens to a connection: the two functions, and the rest of the client, which signals
a close, connects and disconnects. -/
inductive SendOp
  | write (data : List UInt8)
  | flush
  | status (close closed : Bool)
deriving DecidableEq, Repr

namespace Outgoing
variable (result : ℕ → ℤ)

/-- What `conn_write` returns, of which the `k`-th call returns `result k` while connected. -/
def answer (o : Outgoing) : ℤ := if o.closed then -1 else result o.calls.length

/-- `conn_write` -/
def connWrite (o : Outgoing) (direct : Bool) (data : List UInt8) : ℤ × Outgoing :=
  let r := o.answer result
  (r, { o with taken := o.taken ++ data.take r.toNat, calls := o.calls ++ [⟨direct, data, r⟩] })

/-- The loop of `http_flush` over the queue. -/
def httpFlushLoop : List (List UInt8) → Outgoing → Outgoing
  | [], o => o
  | i :: send, o =>
    let (r, o) := o.connWrite result false i
    if r > 0 then httpFlushLoop send { o with send := send } else o

/-- `http_flush` -/
def httpFlush (o : Outgoing) : Outgoing :=
  let o := httpFlushLoop result o.send o
  if o.send = [] ∧ o.close then { o with closed := true } else o

/-- `http_write` -/
def httpWrite (o : Outgoing) (data : List UInt8) : Outgoing :=
  let o := { o with written := o.written ++ data }
  if o.send ≠ [] then { o with send := o.send ++ [data] }
  else
    let (r, o) := o.connWrite result true data
    if r < 0 then { o with send := o.send ++ [data] } else o

def perform (o : Outgoing) : SendOp → Outgoing
  | .write data => o.httpWrite result data
  | .flush => o.httpFlush result
  | .status close closed => { o with close := close, closed := closed }

/-- The connection after a sequence of calls. -/
def run (ops : List SendOp) : Outgoing := ops.foldl (perform result) {}

/-- The bytes passed to `http_write` are those taken and then those in the queue. -/
def Intact (o : Outgoing) : Prop := o.written = o.taken ++ o.send.flatten

end Outgoing

/-- The call takes nothing and returns so, or takes all it was offered. -/
def WriteCall.Whole (c : WriteCall) : Prop :=
  c.result < 0 ∨ c.offered.length ≤ c.result ∨ (c.direct = false ∧ c.result = 0)

namespace Outgoing
variable {result : ℕ → ℤ} {o : Outgoing} {data : List UInt8}

/-- Bytes got lost in one of the calls made. -/
structure Broken (o : Outgoing) : Prop where
  call : ∃ c ∈ o.calls, ¬c.Whole
  short : o.taken.length + o.send.flatten.length < o.written.length

/-- **The invariant.**  Bytes are lost in a call that takes a part of what it is offered, and
for good. -/
def Kept (o : Outgoing) : Prop := ((∀ c ∈ o.calls, c.Whole) ∧ o.Intact) ∨ o.Broken

theorem whole_or_short (c : WriteCall) (hd : c.direct = false → 0 < c.result)
    (h0 : 0 ≤ c.result) :
    (c.Whole ∧ c.offered.take c.result.toNat = c.offered) ∨
      (¬c.Whole ∧ (c.offered.take c.result.toNat).length < c.offered.length) := by
  by_cases hl : (c.offered.length : ℤ) ≤ c.result
  · exact .inl ⟨.inr (.inl hl), List.take_of_length_le (by omega)⟩
  · refine .inr ⟨?_, by rw [List.length_take]; omega⟩
    rintro (h | h | ⟨h, h'⟩)
    · omega
    · exact hl h
    · have := hd h
      omega

/-- A call that returns a negative value or, for a queued buffer, 0 takes nothing. -/
theorem Kept.refused {c : WriteCall} (h : o.Kept)
    (hc : c.result < 0 ∨ (c.direct = false ∧ c.result = 0)) :
    Kept { o with
      taken := o.taken ++ c.offered.take c.result.toNat
      calls := o.calls ++ [c] } := by
  have hw : c.Whole := hc.imp id .inr
  have h0 : c.result.toNat = 0 := by omega
  simp only [h0, List.take_zero, List.append_nil]
  refine h.imp ?_ ?_
  · rintro ⟨hall, hi⟩
    exact ⟨fun d hd => (List.mem_append.1 hd).elim (hall d)
      fun hd => List.mem_singleton.1 hd ▸ hw, hi⟩
  · rintro ⟨⟨d, hd, hnot⟩, hs⟩
    exact ⟨⟨d, List.mem_append_left _ hd, hnot⟩, hs⟩

/-- A buffer leaves the queue, or was never in it, as the connection takes something of it. -/
theorem Kept.took {c : WriteCall} (send : List (List UInt8))
    (h : Kept { o with send := c.offered :: send }) (hd : c.direct = false → 0 < c.result)
    (h0 : 0 ≤ c.result) :
    Kept { o with
      send := send
      taken := o.taken ++ c.offered.take c.result.toNat
      calls := o.calls ++ [c] } := by
  rcases whole_or_short c hd h0 with ⟨hw, he⟩ | ⟨hw, hlt⟩
  · refine h.imp ?_ ?_
    · rintro ⟨hall, hi⟩
      refine ⟨fun d hd => (List.mem_append.1 hd).elim (hall d)
        fun hd => List.mem_singleton.1 hd ▸ hw, ?_⟩
      simpa [Intact, he] using hi
    · rintro ⟨⟨d, hd, hnot⟩, hs⟩
      refine ⟨⟨d, List.mem_append_left _ hd, hnot⟩, ?_⟩
      simp only [he, List.length_append, List.flatten_cons] at hs ⊢
      omega
  · refine .inr ⟨⟨c, by simp, hw⟩, ?_⟩
    have hle : o.taken.length + (c.offered.length + send.flatten.length) ≤ o.written.length := by
      rcases h with ⟨-, hi⟩ | ⟨-, hs⟩
      · simpa [Intact] using Nat.le_of_eq (congrArg List.length hi).symm
      · simpa using Nat.le_of_lt hs
    simp only [List.length_append]
    omega

theorem Kept.status (h : o.Kept) (close closed : Bool) :
    Kept { o with close := close, closed := closed } :=
  h.imp id fun hb => ⟨hb.call, hb.short⟩

variable (result) in
theorem Kept.flushLoop {send : List (List UInt8)} (hs : o.send = send) (h : o.Kept) :
    (httpFlushLoop result send o).Kept := by
  induction send generalizing o with
  | nil => exact h
  | cons i send ih =>
    unfold httpFlushLoop connWrite
    dsimp only
    generalize o.answer result = r
    split
    · rename_i hpos
      refine ih rfl (Kept.took (o := o) (c := ⟨false, i, r⟩) send ?_ (fun _ => hpos) (Int.le_of_lt hpos))
      rw [← hs]
      exact h
    · rename_i hpos
      have hle : r ≤ 0 := Int.not_lt.1 hpos
      refine Kept.refused (c := ⟨false, i, r⟩) h ?_
      exact (Int.lt_or_eq_of_le hle).imp id fun h0 => ⟨rfl, h0⟩

theorem Kept.write (h : o.Kept) : (o.httpWrite result data).Kept := by
  have hqueue : ∀ (o : Outgoing), o.Kept →
      Kept { o with send := o.send ++ [data], written := o.written ++ data } := by
    intro o h
    refine h.imp ?_ ?_
    · rintro ⟨hall, hi⟩
      refine ⟨hall, ?_⟩
      unfold Intact at hi ⊢
      simp [hi]
    · rintro ⟨hc, hs⟩
      refine ⟨hc, ?_⟩
      simp only [List.length_append, List.flatten_append, List.flatten_cons, List.flatten_nil,
        List.append_nil]
      omega
  unfold httpWrite connWrite
  dsimp only
  split
  · exact hqueue o h
  · rename_i hsend
    have hsend : o.send = [] := by simpa using hsend
    generalize answer result { o with written := o.written ++ data } = r
    split
    · rename_i hneg
      exact hqueue _ (Kept.refused (c := ⟨true, data, r⟩) h (.inl hneg))
    · rename_i hneg
      have := hqueue o h
      refine Kept.took (o := { o with written := o.written ++ data }) (c := ⟨true, data, r⟩)
        o.send ?_ nofun (Int.not_lt.1 hneg)
      simpa [hsend] using this

theorem Kept.perform (h : o.Kept) (op : SendOp) : (o.perform result op).Kept := by
  cases op with
  | write data => exact h.write
  | flush =>
    have hloop := Kept.flushLoop result rfl h
    unfold Outgoing.perform httpFlush
    dsimp only
    split
    · exact hloop.status _ _
    · exact hloop
  | status close closed => exact h.status close closed

theorem calls_flushLoop {send : List (List UInt8)} :
    o.calls <+: (httpFlushLoop result send o).calls := by
  induction send generalizing o with
  | nil => exact List.prefix_rfl
  | cons i send ih =>
    unfold httpFlushLoop connWrite
    dsimp only
    split
    · refine List.IsPrefix.trans ?_ ih
      exact List.prefix_append _ _
    · exact List.prefix_append _ _

theorem calls_perform (op : SendOp) : o.calls <+: (o.perform result op).calls := by
  cases op with
  | write data =>
    unfold perform httpWrite connWrite
    dsimp only
    split
    · exact List.prefix_rfl
    · split <;> exact List.prefix_append _ _
  | flush =>
    unfold perform httpFlush
    dsimp only
    split <;> exact calls_flushLoop
  | status close closed => exact List.prefix_rfl

theorem run_append (ops ops' : List SendOp) :
    run result (ops ++ ops') = ops'.foldl (perform result) (run result ops) :=
  List.foldl_append

variable (result) in
theorem run_kept (ops : List SendOp) : (run result ops).Kept := by
  induction ops using List.reverseRecOn with
  | nil => exact .inl ⟨by simp [run], rfl⟩
  | append_singleton ops op ih =>
    rw [run_append]
    exact ih.perform op

theorem calls_run (ops ops' : List SendOp) :
    (run result ops).calls <+: (run result (ops ++ ops')).calls := by
  induction ops' using List.reverseRecOn with
  | nil => simp
  | append_singleton ops' op ih =>
    rw [← List.append_assoc, run_append]
    exact ih.trans (calls_perform op)

/-- **The stream of a connection.**  After every call the bytes taken and those in the queue are
the bytes written, exactly when no call of `conn_write` takes only a part of its buffer, and
none that `http_write` makes takes nothing without saying so. -/
theorem intact_iff (result : ℕ → ℤ) (ops : List SendOp) :
    (∀ past future, ops = past ++ future → (run result past).Intact) ↔
      ∀ c ∈ (run result ops).calls, c.Whole := by
  constructor
  · intro h
    rcases run_kept result ops with ⟨hall, -⟩ | ⟨-, hs⟩
    · exact hall
    · have hi := congrArg List.length (h ops [] (List.append_nil _).symm)
      rw [List.length_append] at hi
      omega
  · rintro hall past future rfl
    rcases run_kept result past with ⟨-, hi⟩ | ⟨⟨c, hc, hnot⟩, -⟩
    · exact hi
    · exact absurd (hall c ((calls_run past future).subset hc)) hnot

/-- The connection takes one byte of a request of two. -/
theorem not_intact :
    ¬∀ (result : ℕ → ℤ) (ops : List SendOp),
      (∀ c ∈ (run result ops).calls, c.result ≤ c.offered.length) →
      ∀ past future, ops = past ++ future → (run result past).Intact := by
  intro h
  have hshort := h (fun _ => 1) [.write [1, 2]] (by decide) [.write [1, 2]] [] rfl
  unfold Intact at hshort
  revert hshort
  decide

end Outgoing
end SeClient
