import SeClient.HttpLines

/-!
# The receive buffer of an HTTP connection

`http_read`, `next_line`, `http_receive`, `http_data` and `http_rebuffer` on the buffer of a
connection.  A call of `conn_read` brings as many bytes as it wants of those that are left and
that fit into the buffer, or none yet.

**Lines** (`nextLine_spec`): `next_line` returns the next line of the stream or says that it has
not come yet, unless what a read brings ends between the two characters of a line end.
-/

namespace SeClient

/-- `BUFFER_SIZE` -/
def bufferSize : ℕ := 2048

/-- A connection with its buffer up to `c->length`, and what `conn_read` has not brought yet.
The history: the calls of `conn_read`, the bytes they brought, and where each of them ended. -/
structure HttpStream (C T : Type) where
  conn : HttpConnection C T
  buffer : List UInt8 := []
  data : ℕ := 0
  rest : List UInt8 := []
  reads : ℕ := 0
  received : ℕ := 0
  cuts : List ℕ := []
deriving DecidableEq, Repr

/-- The loop of `next_line`: the offset of the line end behind `p`, or else the offset of the
NUL character that stops it. -/
def scan : List UInt8 → ℕ → ℕ × Bool
  | [], p => (p, false)
  | c :: s, p =>
    if c = 0 then (p, false)
    else if c = 13 ∧ s.head? = some 10 then (p, true)
    else scan s (p + 1)

/-- A line of text: no NUL and no carriage return. -/
def Text (line : List UInt8) : Prop := ∀ c ∈ line, c ≠ 0 ∧ c ≠ 13

instance (line : List UInt8) : Decidable (Text line) :=
  inferInstanceAs (Decidable (∀ c ∈ line, c ≠ 0 ∧ c ≠ 13))

namespace HttpStream
variable {C T : Type} (parser : UriParser T) (offer : ℕ → ℕ)

/-- `http_read` -/
def httpRead (h : HttpStream C T) : ℕ × HttpStream C T :=
  let n := min (offer h.reads) (min (bufferSize - 1 - h.buffer.length) h.rest.length)
  let received := h.received + n
  (n, { h with
    buffer := h.buffer ++ h.rest.take n
    rest := h.rest.drop n
    reads := h.reads + 1
    received := received
    cuts := if n = 0 then h.cuts else received :: h.cuts })

/-- `next_line` from the offset `p` on: the offset of the line end. -/
def nextLineLoop : ℕ → HttpStream C T → ℕ → HttpStream C T × Option ℕ
  | fuel, h, p =>
    match scan (h.buffer.drop p) p with
    | (p, true) => (h, some p)
    | (p, false) =>
      match fuel with
      | 0 => (h, none)
      | fuel + 1 =>
        let (n, h) := h.httpRead offer
        if n > 0 then nextLineLoop fuel h p else (h, none)

/-- `next_line`; a read that brings something makes the buffer longer. -/
def nextLine (h : HttpStream C T) : HttpStream C T × Option ℕ :=
  nextLineLoop offer (bufferSize - h.buffer.length) h h.data

/-- `http_rebuffer` -/
def httpRebuffer (h : HttpStream C T) (data : ℕ) : HttpStream C T :=
  if data = 0 then h
  else
    { h with
      conn := { h.conn with
        ends := if h.conn.ends = 0 then 0 else h.conn.ends - data }
      buffer := h.buffer.drop data
      data := 0 }

/-- The loop of `http_receive`. -/
def receiveLoop : ℕ → HttpStream C T → HttpStream C T × HttpConnection.Outcome
  | 0, h => (h, .none)
  | fuel + 1, h =>
    match h.conn.state with
    | .start | .header =>
      match h.nextLine offer with
      | (h, none) => (h, .none)
      | (h, some p) =>
        match h.conn.takeLine parser ((h.buffer.drop h.data).take (p - h.data)) (p + 2) with
        | (c, none) => receiveLoop fuel { h with conn := c, data := p + 2 }
        | (c, some .message) => ({ h with conn := c, data := p + 2 }, .message)
        | (c, some outcome) => ({ h with conn := c }, outcome)
    | .data => (h, .message)
    | .complete =>
      if h.conn.close then ({ h with conn := { h.conn with state := .closed } }, .none)
      else
        let h := h.httpRebuffer h.conn.ends.toNat
        receiveLoop fuel { h with conn := { h.conn with state := .start } }
    | .closed => (h, .none)

/-- `http_receive`; a pass of the loop takes a line or begins a message. -/
def httpReceive (h : HttpStream C T) : HttpStream C T × HttpConnection.Outcome :=
  receiveLoop parser offer bufferSize h

/-- `http_complete` -/
def httpComplete (h : HttpStream C T) : Bool :=
  h.conn.state = .closed ∨ h.conn.ends ≤ h.buffer.length

/-- The loop of `http_data`, of which `closed` tells whether the connection is closed: the end
of the data. -/
def httpDataLoop (closed : ℕ → Bool) : ℕ → HttpStream C T → HttpStream C T × ℕ
  | fuel, h =>
    if h.conn.close then
      let done := closed h.reads
      let (_, h) := h.httpRead offer
      (if done then { h with conn := { h.conn with state := .complete } } else h, h.buffer.length)
    else if h.conn.ends ≤ h.buffer.length then
      ({ h with conn := { h.conn with state := .complete } }, h.conn.ends.toNat)
    else if h.buffer.length + 1 = bufferSize then (h, h.buffer.length)
    else
      match fuel with
      | 0 => (h, h.buffer.length)
      | fuel + 1 =>
        let (n, h) := h.httpRead offer
        if n > 0 then httpDataLoop closed fuel h else (h, h.buffer.length)

/-- `http_data`: the data from `c->data` on. -/
def httpData (closed : ℕ → Bool) (h : HttpStream C T) : HttpStream C T × Option (List UInt8) :=
  if h.conn.state = .data then
    let (h, length) := httpDataLoop offer closed (bufferSize - h.buffer.length) h
    (h, some ((h.buffer.drop h.data).take (length - h.data)))
  else (h, none)

/-! ## Lines -/

theorem scan_found {line s : List UInt8} {p : ℕ} (h : Text line) :
    scan (line ++ 13 :: 10 :: s) p = (p + line.length, true) := by
  induction line generalizing p with
  | nil => rfl
  | cons c line ih =>
    obtain ⟨h0, h13⟩ := h c List.mem_cons_self
    rw [List.cons_append, scan, if_neg h0, if_neg (fun hc => h13 hc.1),
      ih fun c hc => h c (List.mem_cons_of_mem _ hc), List.length_cons]
    congr 1
    omega

theorem scan_open {line : List UInt8} {p : ℕ} (h : Text line) :
    scan line p = (p + line.length, false) := by
  induction line generalizing p with
  | nil => rfl
  | cons c line ih =>
    obtain ⟨h0, h13⟩ := h c List.mem_cons_self
    rw [scan, if_neg h0, if_neg (fun hc => h13 hc.1),
      ih fun c hc => h c (List.mem_cons_of_mem _ hc), List.length_cons]
    congr 1
    omega

/-- What holds of a buffer: it ends where a read has ended. -/
structure Sound (h : HttpStream C T) : Prop where
  fits : h.buffer.length ≤ bufferSize - 1
  bound : h.buffer.length ≤ h.received
  marked : h.received = 0 ∨ h.received ∈ h.cuts

/-- Reads have brought `x`, and nothing else has happened. -/
structure ReadsTo (h h' : HttpStream C T) (x : List UInt8) : Prop where
  conn : h'.conn = h.conn
  data : h'.data = h.data
  buffer : h'.buffer = h.buffer ++ x
  rest : h.rest = x ++ h'.rest
  received : h'.received = h.received + x.length
  cuts : h.cuts ⊆ h'.cuts
  sound : h.Sound → h'.Sound

section Reading
variable {offer} {h h' h'' : HttpStream C T} {x y line post : List UInt8} {p fuel : ℕ}

theorem ReadsTo.refl (h : HttpStream C T) : ReadsTo h h [] :=
  ⟨rfl, rfl, (List.append_nil _).symm, rfl, rfl, List.Subset.refl _, id⟩

theorem ReadsTo.trans (h₁ : ReadsTo h h' x) (h₂ : ReadsTo h' h'' y) : ReadsTo h h'' (x ++ y) where
  conn := h₂.conn.trans h₁.conn
  data := h₂.data.trans h₁.data
  buffer := by rw [h₂.buffer, h₁.buffer, List.append_assoc]
  rest := by rw [h₁.rest, h₂.rest, List.append_assoc]
  received := by rw [h₂.received, h₁.received, List.length_append, Nat.add_assoc]
  cuts := List.Subset.trans h₁.cuts h₂.cuts
  sound := h₂.sound ∘ h₁.sound

/-- The bytes from an offset on stay what they are. -/
theorem ReadsTo.ahead (h₁ : ReadsTo h h' x) (hp : p ≤ h.buffer.length) :
    h'.buffer.drop p ++ h'.rest = h.buffer.drop p ++ h.rest := by
  rw [h₁.buffer, h₁.rest, List.drop_append_of_le_length hp, List.append_assoc]

variable (offer) in
theorem httpRead_spec (h : HttpStream C T) :
    ∃ x, ReadsTo h (h.httpRead offer).2 x ∧ x.length = (h.httpRead offer).1 := by
  have hle : (h.httpRead offer).1 ≤ h.rest.length :=
    (Nat.min_le_right _ _).trans (Nat.min_le_right _ _)
  have hroom : (h.httpRead offer).1 ≤ bufferSize - 1 - h.buffer.length :=
    (Nat.min_le_right _ _).trans (Nat.min_le_left _ _)
  have hlen : (h.rest.take (h.httpRead offer).1).length = (h.httpRead offer).1 :=
    List.length_take_of_le hle
  refine ⟨h.rest.take (h.httpRead offer).1, ?_, hlen⟩
  exact {
    conn := rfl
    data := rfl
    buffer := rfl
    rest := (List.take_append_drop _ _).symm
    received := by rw [hlen]; rfl
    cuts := by
      show h.cuts ⊆ if (h.httpRead offer).1 = 0 then h.cuts else _ :: h.cuts
      split
      · exact List.Subset.refl _
      · exact List.subset_cons_self _ _
    sound := fun hs => {
      fits := by
        show (h.buffer ++ h.rest.take (h.httpRead offer).1).length ≤ _
        have := hs.fits
        rw [List.length_append, hlen]
        omega
      bound := by
        show (h.buffer ++ h.rest.take (h.httpRead offer).1).length ≤
          h.received + (h.httpRead offer).1
        have := hs.bound
        rw [List.length_append, hlen]
        omega
      marked := by
        show h.received + (h.httpRead offer).1 = 0 ∨ h.received + (h.httpRead offer).1 ∈
          if (h.httpRead offer).1 = 0 then h.cuts else (h.received + (h.httpRead offer).1) :: h.cuts
        split
        · rename_i h0
          rw [h0]
          exact hs.marked
        · exact .inr List.mem_cons_self } }

variable (offer) in
theorem nextLineLoop_reads (fuel : ℕ) (h : HttpStream C T) (p : ℕ) :
    ∃ x, ReadsTo h (nextLineLoop offer fuel h p).1 x := by
  induction fuel generalizing h p with
  | zero =>
    unfold nextLineLoop
    split <;> exact ⟨[], .refl h⟩
  | succ fuel ih =>
    obtain ⟨x, hread, -⟩ := httpRead_spec offer h
    unfold nextLineLoop
    split
    · exact ⟨[], .refl h⟩
    · dsimp only
      split
      · obtain ⟨y, hrest⟩ := ih (h.httpRead offer).2 _
        exact ⟨_, hread.trans hrest⟩
      · exact ⟨x, hread⟩

variable (offer fuel) in
/-- **The loop of `next_line`**, which has come to `p` in a line of which `line` is left. -/
theorem nextLineLoop_spec (hline : Text line) (hs : h.Sound) (hp : p ≤ h.buffer.length)
    (hahead : h.buffer.drop p ++ h.rest = line ++ 13 :: 10 :: post)
    (hroom : p + line.length + 2 < bufferSize) (hfuel : bufferSize ≤ h.buffer.length + fuel)
    (hcut : ∀ k, k + h.buffer.length = h.received + p + line.length + 1 →
      k ∉ (nextLineLoop offer fuel h p).1.cuts) :
    (nextLineLoop offer fuel h p).2 = some (p + line.length) ∧
        p + line.length + 2 ≤ (nextLineLoop offer fuel h p).1.buffer.length ∨
      (nextLineLoop offer fuel h p).2 = none ∧
        (nextLineLoop offer fuel h p).1.buffer.length < p + line.length + 2 := by
  induction fuel generalizing h p line with
  | zero =>
    have := hs.fits
    simp only [bufferSize] at *
    omega
  | succ fuel ih =>
    have hdrop : (h.buffer.drop p).length = h.buffer.length - p := List.length_drop
    rcases Nat.lt_or_ge (h.buffer.length) (p + line.length + 2) with hshort | hlong
    · have hne : h.buffer.length ≠ p + line.length + 1 := by
        intro heq
        refine hcut h.received (by omega) ?_
        obtain ⟨x, hreads⟩ := nextLineLoop_reads offer (fuel + 1) h p
        refine hreads.cuts (hs.marked.resolve_left ?_)
        have := hs.bound
        omega
      -- The buffer ends before the line does.
      have hpart : h.buffer.drop p = line.take (h.buffer.length - p) := by
        have hprefix : h.buffer.drop p <+: line ++ 13 :: 10 :: post := ⟨h.rest, hahead⟩
        rw [List.prefix_iff_eq_take.mp hprefix, hdrop, List.take_append_of_le_length (by omega)]
      have hlater : h.rest = line.drop (h.buffer.length - p) ++ 13 :: 10 :: post := by
        have hsplit := List.take_append_drop (h.buffer.length - p) line
        rw [← hpart] at hsplit
        rw [← hsplit, List.append_assoc] at hahead
        exact List.append_cancel_left hahead
      have hstop : scan (h.buffer.drop p) p = (h.buffer.length, false) := by
        rw [hpart, scan_open fun c hc => hline c (List.mem_of_mem_take hc), ← hpart, hdrop]
        congr 1
        omega
      obtain ⟨x, hread, hx⟩ := httpRead_spec offer h
      have hunfold : nextLineLoop offer (fuel + 1) h p =
          if (h.httpRead offer).1 > 0 then
            nextLineLoop offer fuel (h.httpRead offer).2 h.buffer.length
          else ((h.httpRead offer).2, none) := by
        rw [nextLineLoop, hstop]
      rw [hunfold] at hcut ⊢
      have hlen : (h.httpRead offer).2.buffer.length = h.buffer.length + x.length := by
        rw [hread.buffer, List.length_append]
      split
      · rename_i hmore
        rw [if_pos hmore] at hcut
        have hcount : p + line.length = h.buffer.length +
            (line.drop (h.buffer.length - p)).length := by
          rw [List.length_drop]
          omega
        have hmoved : (h.httpRead offer).2.buffer.drop h.buffer.length ++
            (h.httpRead offer).2.rest = line.drop (h.buffer.length - p) ++ 13 :: 10 :: post := by
          rw [hread.ahead (Nat.le_refl _), List.drop_length, List.nil_append, hlater]
        rw [hcount]
        refine ih (fun c hc => hline c (List.mem_of_mem_drop hc)) (hread.sound hs) (by omega) hmoved
          (by omega) (by omega) fun k hk => hcut k ?_
        rw [hread.received] at hk
        omega
      · rename_i hnone
        refine .inr ⟨rfl, ?_⟩
        show (h.httpRead offer).2.buffer.length < _
        omega
    · -- The line end is in the buffer.
      obtain ⟨s, hfound⟩ : ∃ s, h.buffer.drop p = line ++ 13 :: 10 :: s := by
        have hprefix : line ++ [13, 10] <+: h.buffer.drop p ++ h.rest :=
          ⟨post, by rw [hahead]; simp⟩
        obtain ⟨s, hs'⟩ := List.prefix_of_prefix_length_le hprefix (List.prefix_append _ _)
          (by rw [List.length_append, hdrop]; simp only [List.length_cons, List.length_nil]; omega)
        exact ⟨s, by rw [← hs']; simp⟩
      have hresult : nextLineLoop offer (fuel + 1) h p = (h, some (p + line.length)) := by
        rw [nextLineLoop, hfound, scan_found hline]
      rw [hresult]
      exact .inl ⟨rfl, hlong⟩

end Reading
end HttpStream
end SeClient
