import SeClient.StringTable

/-!
# DNS names

`dns_name` of `mdns.c` collects the labels of a name.  A pointer in place of a label leads to any
other place of the packet, and from there possibly to the next pointer.  Pointers that lead
nowhere are found by the length of the name, which must have grown between any two of them.

A place in the packet is its distance from `dns_start`.
-/

namespace SeClient

/-- The variables of `dns_name`: `name` is what it has stored in the buffer of that name. -/
structure NameParser where
  data : ℕ
  name : List UInt8 := []
  ptr : Option ℕ := none
  prevLength : ℤ := -1
deriving DecidableEq, Repr

/-- What becomes of a name: a read outside of the packet is `outside`, and `null` the NULL that is
returned once some of the name may be in the buffer. -/
inductive NameResult
  | outside
  | null (name : List UInt8)
  | found (name : List UInt8) (next : ℕ)
deriving DecidableEq, Repr

/-- The bytes that `memcpy` takes from a packet. -/
def copyFrom (pkt : List UInt8) (data n : ℕ) : Option (List UInt8) :=
  if data + n ≤ pkt.length then some ((pkt.drop data).take n) else none

/-- A pass of the loop of `dns_name`. -/
def nameStep (pkt : List UInt8) (p : NameParser) : NameParser ⊕ NameResult :=
  if pkt.length < p.data + 1 then .inr (.null p.name)
  else match pkt[p.data]? with
  | none => .inr .outside
  | some c =>
    if c = 0 then
      .inr (.found (p.name ++ [0]) (p.ptr.elim (p.data + 1) (· + 2)))
    else if c &&& 0xc0 = 0 then
      let n := c.toNat + 1
      if 254 < p.name.length + n then .inr (.null p.name)
      else if pkt.length < p.data + n then .inr (.null p.name)
      else match copyFrom pkt p.data n with
        | none => .inr .outside
        | some label => .inl { p with name := p.name ++ label, data := p.data + n }
    else if c &&& 0xc0 = 0xc0 then
      if pkt.length < p.data + 2 then .inr (.null p.name)
      else match pkt[p.data + 1]? with
        | none => .inr .outside
        | some d =>
          let data := (c.toNat <<< 8 ||| d.toNat) &&& 0x3fff
          if pkt.length < data then .inr (.null p.name)
          else if p.prevLength = p.name.length then .inr (.null p.name)
          else .inl { p with
            ptr := some (p.ptr.getD p.data), data := data, prevLength := p.name.length }
    else .inr (.null p.name)

/-- The loop of `dns_name`; `none` when it has not left it after `fuel` passes. -/
def nameLoop (pkt : List UInt8) : ℕ → NameParser → Option NameResult
  | 0, _ => none
  | fuel + 1, p =>
    match nameStep pkt p with
    | .inl p => nameLoop pkt fuel p
    | .inr r => some r

/-- `dns_name`, in as many passes as a name can take. -/
def dnsName (pkt : List UInt8) (data : ℕ) : Option NameResult := nameLoop pkt 512 { data := data }

/-! ## A name in a packet of any content -/

section
variable {pkt : List UInt8} {start : ℕ} {p q : NameParser} {r : NameResult}

/-- A parser that began at `start` has room in its buffer, and is behind its start until it follows
a pointer. -/
structure NameParser.Sound (pkt : List UInt8) (start : ℕ) (p : NameParser) : Prop where
  room : p.name.length ≤ 254
  begun : p.ptr = none → start ≤ p.data
  pointer : ∀ ptr ∈ p.ptr, start ≤ ptr ∧ ptr + 2 ≤ pkt.length

/-- **The name is safe**: nothing outside of the packet has been read, the buffer has room for what
was stored, and the place behind a name is behind its start, within the packet or at its end. -/
def NameResult.Safe (pkt : List UInt8) (start : ℕ) : NameResult → Prop
  | .outside => False
  | .null name => name.length ≤ 255
  | .found name next => name.length ≤ 255 ∧ start < next ∧ next ≤ pkt.length

/-- The passes that are left, at most: two for each byte of the name, and a pointer. -/
def NameParser.left (p : NameParser) : ℕ :=
  2 * (254 - p.name.length) + (if p.prevLength = p.name.length then 0 else 1)

theorem copyFrom_some {data n : ℕ} (h : data + n ≤ pkt.length) :
    copyFrom pkt data n = some ((pkt.drop data).take n) := if_pos h

theorem length_copied {data n : ℕ} (h : data + n ≤ pkt.length) :
    ((pkt.drop data).take n).length = n := by
  rw [List.length_take, List.length_drop]
  omega

theorem byte_pos {c : UInt8} (h : c ≠ 0) : 0 < c.toNat :=
  Nat.pos_of_ne_zero fun hzero => h (UInt8.toNat_inj.mp hzero)

/-- **One pass** goes on with a name or with a pointer, and less is left to do. -/
theorem nameStep_go (h : p.Sound pkt start) (hstep : nameStep pkt p = .inl q) :
    q.Sound pkt start ∧ q.left < p.left := by
  unfold nameStep at hstep
  by_cases htruncated : pkt.length < p.data + 1
  · rw [if_pos htruncated] at hstep
    cases hstep
  rw [if_neg htruncated] at hstep
  split at hstep
  · cases hstep
  rename_i c hc
  by_cases hzero : c = 0
  · rw [if_pos hzero] at hstep
    cases hstep
  rw [if_neg hzero] at hstep
  by_cases hlabel : c &&& 0xc0 = 0
  · rw [if_pos hlabel] at hstep
    dsimp only at hstep
    split_ifs at hstep with hlong hend
    rw [copyFrom_some (Nat.not_lt.mp hend)] at hstep
    cases hstep
    have hlength := length_copied (Nat.not_lt.mp hend)
    have hpos := byte_pos hzero
    constructor
    · constructor
      · rw [List.length_append, hlength]
        exact Nat.not_lt.mp hlong
      · exact fun hptr => Nat.le_trans (h.begun hptr) (Nat.le_add_right _ _)
      · exact h.pointer
    · unfold NameParser.left
      dsimp only
      rw [List.length_append, hlength]
      split_ifs <;> omega
  rw [if_neg hlabel] at hstep
  by_cases hpointer : c &&& 0xc0 = 0xc0
  · rw [if_pos hpointer] at hstep
    by_cases hend : pkt.length < p.data + 2
    · rw [if_pos hend] at hstep
      cases hstep
    rw [if_neg hend] at hstep
    split at hstep
    · cases hstep
    dsimp only at hstep
    split_ifs at hstep with hbeyond hloop
    cases hstep
    constructor
    · constructor
      · exact h.room
      · intro hptr
        cases hptr
      · intro ptr hptr
        obtain rfl := Option.some.inj hptr
        cases hfirst : p.ptr with
        | none => exact ⟨h.begun hfirst, Nat.not_lt.mp hend⟩
        | some first => exact h.pointer first hfirst
    · unfold NameParser.left
      dsimp only
      rw [if_pos rfl, if_neg hloop]
      exact Nat.lt_succ_self _
  · rw [if_neg hpointer] at hstep
    cases hstep

/-- **The last pass** is safe. -/
theorem nameStep_end (h : p.Sound pkt start) (hstep : nameStep pkt p = .inr r) :
    r.Safe pkt start := by
  have hnull : NameResult.Safe pkt start (.null p.name) := Nat.le_succ_of_le h.room
  unfold nameStep at hstep
  by_cases htruncated : pkt.length < p.data + 1
  · rw [if_pos htruncated] at hstep
    cases hstep
    exact hnull
  have hin : p.data < pkt.length := Nat.not_lt.mp htruncated
  rw [if_neg htruncated, List.getElem?_eq_getElem hin] at hstep
  dsimp only at hstep
  generalize pkt[p.data] = c at hstep
  by_cases hzero : c = 0
  · rw [if_pos hzero] at hstep
    cases hstep
    refine ⟨?_, ?_⟩
    · rw [List.length_append]
      exact Nat.succ_le_succ h.room
    · cases hptr : p.ptr with
      | none =>
        have hbegun := h.begun hptr
        exact ⟨Nat.lt_succ_of_le hbegun, Nat.not_lt.mp htruncated⟩
      | some ptr =>
        obtain ⟨hstart, hinside⟩ := h.pointer ptr hptr
        exact ⟨Nat.lt_add_right 1 (Nat.lt_succ_of_le hstart), hinside⟩
  rw [if_neg hzero] at hstep
  by_cases hlabel : c &&& 0xc0 = 0
  · rw [if_pos hlabel] at hstep
    split_ifs at hstep with hlong hend
    · cases hstep
      exact hnull
    · cases hstep
      exact hnull
    · rw [copyFrom_some (Nat.not_lt.mp hend)] at hstep
      cases hstep
  rw [if_neg hlabel] at hstep
  by_cases hpointer : c &&& 0xc0 = 0xc0
  · rw [if_pos hpointer] at hstep
    by_cases hend : pkt.length < p.data + 2
    · rw [if_pos hend] at hstep
      cases hstep
      exact hnull
    rw [if_neg hend, List.getElem?_eq_getElem (Nat.not_lt.mp hend)] at hstep
    dsimp only at hstep
    split_ifs at hstep
    · cases hstep
      exact hnull
    · cases hstep
      exact hnull
  · rw [if_neg hpointer] at hstep
    cases hstep
    exact hnull

/-- A name that has passes enough comes to an end. -/
theorem nameLoop_safe {fuel : ℕ} (h : p.Sound pkt start) (hfuel : p.left < fuel) :
    ∃ r, nameLoop pkt fuel p = some r ∧ r.Safe pkt start := by
  induction fuel generalizing p with
  | zero => exact absurd hfuel (Nat.not_lt_zero _)
  | succ fuel ih =>
    unfold nameLoop
    cases hstep : nameStep pkt p with
    | inl q =>
      obtain ⟨hq, hleft⟩ := nameStep_go h hstep
      exact ih hq (by omega)
    | inr r => exact ⟨r, rfl, nameStep_end h hstep⟩

end

/-- **`dns_name` is safe** in a packet of any content, wherever it begins: it comes to an end, reads
the packet only, stores 255 bytes at most and returns a place behind its start. -/
theorem dns_name_safe (pkt : List UInt8) (data : ℕ) :
    ∃ r, dnsName pkt data = some r ∧ r.Safe pkt data := by
  refine nameLoop_safe ⟨Nat.zero_le _, fun _ => Nat.le_refl _, fun ptr hptr => ?_⟩ ?_
  · cases hptr
  · show 2 * 254 + (if (-1 : ℤ) = 0 then 0 else 1) < 512
    decide

end SeClient
