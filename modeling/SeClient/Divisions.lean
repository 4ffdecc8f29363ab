import SeClient.Responses

/-!
# Divisions of a stream of responses

The server sends responses; the reads of the client divide the stream in some way.

**Every division** (`every_division`): `http_receive` finds the messages of the stream, with their
header fields and their bodies, as long as no read ends between the two characters of a line end.
-/

namespace SeClient
open Transition
open HttpConnection ResponseHead

/-! ## What is to be received -/

/-- What a client sees of a message. -/
structure Message (C T : Type) where
  status : ℤ
  close : Bool
  body : Bool
  contentLength : ℤ
  contentType : Option CString
  mediaRange : Option CString
  location : Option CString
  requestMethod : Option HttpMethod
  uri : Option T
  context : Option C
deriving DecidableEq, Repr

section Expected
variable {C T : Type} (parser : UriParser T)

/-- The message of a connection; the location is that of a message with such a field. -/
def HttpConnection.message (c : HttpConnection C T) : Message C T where
  status := c.status
  close := c.close
  body := c.body
  contentLength := c.contentLength
  contentType := c.contentType
  mediaRange := c.mediaRange
  location := if .location ∈ c.header then c.location else none
  requestMethod := c.requestMethod
  uri := c.uri
  context := c.context

/-- A connection behind a message. -/
def HttpConnection.renewed (c : HttpConnection C T) : HttpConnection C T :=
  { c with state := .start, ends := 0 }

/-- The connection behind the head of a response. -/
def HttpConnection.answered (c : HttpConnection C T) (r : HttpResponse) : HttpConnection C T :=
  (takeLines parser c.renewed 0 (r.lines ++ [[]])).1

/-- The bytes of responses. -/
def stream (rs : List HttpResponse) : List UInt8 := rs.flatMap HttpResponse.bytes

/-- What is behind a message that closes the connection: nothing is read any more, or all that comes
is its body. -/
def closingBytes (body : List UInt8) (rs : List HttpResponse) : List (Message C T ⊕ UInt8) :=
  if body = [] then [] else (body ++ stream rs).map .inr

/-- The messages of responses and the bytes of their bodies. -/
def expected (c : HttpConnection C T) : List HttpResponse → List (Message C T ⊕ UInt8)
  | [] => []
  | r :: rs =>
    let c' := c.answered parser r
    .inl c'.message ::
      if c'.close then closingBytes r.body rs else r.body.map .inr ++ expected c' rs

/-- Where the line ends of responses are torn apart. -/
def lineCuts : ℕ → List HttpResponse → List ℕ
  | _, [] => []
  | n, r :: rs => breaks n (r.lines ++ [[]]) ++ lineCuts (n + r.bytes.length) rs

end Expected

/-! ## Runs -/

/-- What a client does, and what it gets: a message or none, and bytes of a body. -/
inductive ReceiveAct (C T : Type)
  | message (m : Message C T)
  | waiting
  | body (data : List UInt8)
  | part (data : List UInt8)
deriving DecidableEq, Repr

section Runs
variable {C T : Type} (parser : UriParser T) (offer : ℕ → ℕ) (closed : ℕ → Bool)

/-- The calls of `http_receive`, and of `http_data` while there is a body, of which the client
uses a part and keeps the rest in the buffer until the body is complete.  The connection is not
found closed before all has been read. -/
inductive ReceiveStep : HttpStream C T → ReceiveAct C T → HttpStream C T → Prop
  | message {h h' : HttpStream C T} : h.conn.state ≠ .data →
      h.httpReceive parser offer = (h', .message) → ReceiveStep h (.message h'.conn.message) h'
  | waiting {h h' : HttpStream C T} {outcome : Outcome} : h.conn.state ≠ .data →
      h.httpReceive parser offer = (h', outcome) → outcome ≠ .message → ReceiveStep h .waiting h'
  | body {h h' : HttpStream C T} {data : List UInt8} : h.conn.state = .data →
      (h.conn.close = true → closed h.reads = true → h.rest = []) →
      h.httpData offer closed = (h', some data) →
      h'.conn.state = .complete → ReceiveStep h (.body data) h'
  | part {h h' : HttpStream C T} {data : List UInt8} (k : ℕ) : h.conn.state = .data →
      h.httpData offer closed = (h', some data) → h'.conn.state = .data → k ≤ data.length →
      ReceiveStep h (.part (data.take k)) (h'.httpRebuffer (h'.data + k))

/-- What an act shows of the stream. -/
def ReceiveAct.shown : ReceiveAct C T → List (Message C T ⊕ UInt8)
  | message m => [.inl m]
  | waiting => []
  | body data | part data => data.map .inr

/-- What a history shows of the stream. -/
def observed (ls : List (ReceiveAct C T)) : List (Message C T ⊕ UInt8) :=
  ls.flatMap ReceiveAct.shown

/-- A client with requests, to which responses are on their way. -/
def HttpStream.begin (reqs : List (QueuedRequest C)) (rs : List HttpResponse) : HttpStream C T where
  conn := { request := reqs }
  rest := stream rs

end Runs

namespace HttpStream
variable {C T : Type} {parser : UriParser T} {offer : ℕ → ℕ} {closed : ℕ → Bool}

/-- A client that is ready for responses. -/
structure Ready (parser : UriParser T) (c : HttpConnection C T) (rs : List HttpResponse) :
    Prop where
  client : c.client = true
  requests : rs.length ≤ c.request.length
  targets : ∀ q ∈ c.request, (requestTarget parser q.uri).isSome
  responses : ∀ r ∈ rs, r.WellFormed ∧ r.Fits

/-- The responses whose message is still to come, what is still to be shown, and where the line
ends that are still to come are torn apart. -/
inductive Expecting (parser : UriParser T) : HttpStream C T → List HttpResponse →
    List (Message C T ⊕ UInt8) → List ℕ → Prop
  | head {h : HttpStream C T} {n m : ℕ} {ls : List CString} {body : List UInt8}
      {r : HttpResponse} {rs : List HttpResponse} {c' : HttpConnection C T} :
      Ahead parser h n ls m (body ++ stream rs) c' → c'.ends = m + body.length →
      (body = [] ∧ c'.state = .complete ∧ c'.body = false ∨
        body ≠ [] ∧ c'.state = .data ∧ c'.body = true) → Ready parser c' rs →
      Expecting parser h (r :: rs)
        (.inl c'.message ::
          if c'.close then closingBytes body rs else body.map .inr ++ expected parser c' rs)
        (breaks n (ls ++ [[]]) ++
          lineCuts (n + (lineText (ls ++ [[]])).length + body.length) rs)
  | data {h : HttpStream C T} {n : ℕ} {body : List UInt8} {rs : List HttpResponse} :
      h.conn.state = .data → h.conn.close = false → h.Sound → h.At n →
      h.data ≤ h.buffer.length → h.buffer.drop h.data ++ h.rest = body ++ stream rs →
      h.conn.ends = h.data + body.length → 0 < h.conn.ends → Ready parser h.conn rs →
      Expecting parser h rs (body.map .inr ++ expected parser h.conn rs)
        (lineCuts (n + body.length) rs)
  | complete {h : HttpStream C T} {n e : ℕ} {rs : List HttpResponse} :
      h.conn.state = .complete → h.conn.close = false → h.Sound → h.conn.ends = e → 0 < e →
      e ≤ h.buffer.length → n + h.buffer.length = h.received + e →
      h.buffer.drop e ++ h.rest = stream rs → Ready parser h.conn rs →
      Expecting parser h rs (expected parser h.conn rs) (lineCuts n rs)
  | idle {h : HttpStream C T} : h.conn.state = .start → h.buffer.drop h.data = [] →
      h.rest = [] → Expecting parser h [] [] []
  | lasting {h : HttpStream C T} {rs : List HttpResponse} : h.conn.state = .data →
      h.conn.close = true → h.data ≤ h.buffer.length →
      Expecting parser h rs ((h.buffer.drop h.data ++ h.rest).map .inr) []
  | closing {h : HttpStream C T} {rs : List HttpResponse} : h.conn.close = true →
      h.conn.state = .complete ∨ h.conn.state = .closed → Expecting parser h rs [] []

/-! ## Heads -/

theorem statusText_text {r : HttpResponse} (hwell : r.WellFormed) : Text r.head.statusText := by
  have hdigits : Text (digits r.head.status) := by
    have hlow := hwell.head.low
    have hhigh := hwell.head.high
    have hchar : ∀ d : ℕ, d < 10 → digitChar d ≠ 0 ∧ digitChar d ≠ 13 := by decide
    intro ch hch
    simp only [digits, List.mem_cons, List.not_mem_nil, or_false] at hch
    rcases hch with rfl | rfl | rfl <;> exact hchar _ (by omega)
  intro ch hch
  simp only [statusText, List.mem_append, List.mem_cons] at hch
  rcases hch with hch | rfl | hch | rfl | hch
  · exact (by decide : Text httpVersion) ch hch
  · decide
  · exact hdigits ch hch
  · decide
  · exact hwell.reason ch hch

theorem fieldText_text {f : CString × CString} (hf : FieldOk f) (hvalue : Text f.2) :
    fieldText f ≠ [] ∧ Text (fieldText f) := by
  refine ⟨by simp [fieldText], fun ch hch => ?_⟩
  simp only [fieldText, List.mem_append, List.mem_cons] at hch
  rcases hch with hch | rfl | hch
  · have htchar := hf.name.2 ch hch
    constructor <;> rintro rfl <;> exact absurd htchar (by decide)
  · decide
  · exact hvalue ch hch

theorem lines_text {r : HttpResponse} (hwell : r.WellFormed) :
    ∀ l ∈ r.lines, l ≠ [] ∧ Text l := by
  intro l hl
  rcases List.mem_cons.mp hl with rfl | hl
  · exact ⟨by simp [statusText, httpVersion, chars], statusText_text hwell⟩
  · obtain ⟨f, hf, rfl⟩ := List.mem_map.mp hl
    exact fieldText_text (hwell.head.fields f hf) (hwell.values f hf)

/-- A client at the beginning of responses. -/
theorem Expecting.renewed {h : HttpStream C T} {c : HttpConnection C T} {n : ℕ}
    {rs : List HttpResponse} (hconn : h.conn = c.renewed) (hs : h.Sound) (hdata : h.data = 0)
    (hplace : h.At n) (hbytes : h.buffer ++ h.rest = stream rs) (hready : Ready parser c rs) :
    Expecting parser h rs (expected parser c rs) (lineCuts n rs) := by
  cases rs with
  | nil =>
    obtain ⟨hbuffer, hrest⟩ := List.append_eq_nil_iff.mp hbytes
    exact .idle (by rw [hconn]; rfl) (by rw [hbuffer, List.drop_nil]) hrest
  | cons r rs =>
    obtain ⟨hwell, hfits⟩ := hready.responses r List.mem_cons_self
    have hrequests := hready.requests
    cases hreq : c.request with
    | nil =>
      rw [hreq] at hrequests
      exact absurd hrequests (by simp)
    | cons q qs =>
      rw [hreq] at hrequests
      obtain ⟨uri, huri⟩ := Option.isSome_iff_exists.mp
        (hready.targets q (by rw [hreq]; exact List.mem_cons_self))
      obtain ⟨c', htakes, hclient, hqs, hends, hbody⟩ := takeLines_response parser
        (c := c.renewed) hwell hfits hready.client rfl hreq huri
      have hready' : Ready parser c' rs := {
        client := hclient
        requests := by
          rw [hqs]
          simpa using hrequests
        targets := fun q' hq' => hready.targets q' (by
          rw [hreq]
          exact List.mem_cons_of_mem _ (hqs ▸ hq'))
        responses := fun r' hr' => hready.responses r' (List.mem_cons_of_mem _ hr') }
      have hahead : Ahead parser h n r.lines r.headLength (r.body ++ stream rs) c' := {
        sound := hs
        place := hplace
        offset := by rw [hdata]; exact Nat.zero_le _
        begun := .inl (by rw [hconn]; rfl)
        text := lines_text hwell
        takes := by rw [hconn, hdata]; exact htakes
        bytes := by
          rw [hdata, List.drop_zero, hbytes, stream, List.flatMap_cons, HttpResponse.bytes,
            List.append_assoc]
          rfl
        stop := by rw [hdata, Nat.zero_add]; rfl
        room := hfits.room }
      have hexpecting := Expecting.head (r := r) hahead hends hbody hready'
      have hanswered : c.answered parser r = c' := congrArg Prod.fst htakes
      have hlength : r.bytes.length = (lineText (r.lines ++ [[]])).length + r.body.length :=
        List.length_append
      rw [expected, hanswered, lineCuts, hlength, ← Nat.add_assoc]
      exact hexpecting

/-! ## Calls -/

variable {h : HttpStream C T} {back : List HttpResponse} {todo : List (Message C T ⊕ UInt8)}
  {cuts : List ℕ} {fuel : ℕ}

/-- What a call of `http_receive` comes to. -/
def Receives (parser : UriParser T) (rs : List HttpResponse) (todo : List (Message C T ⊕ UInt8))
    (cuts : List ℕ) (result : HttpStream C T × Outcome) : Prop :=
  (result.2 = .message ∧ (result.1.conn.state = .data ↔ result.1.conn.body = true) ∧
      (result.1.conn.state = .data ∨ result.1.conn.state = .complete) ∧
      ∃ todo' cuts', cuts' ⊆ cuts ∧ Expecting parser result.1 rs.tail todo' cuts' ∧
        todo = .inl result.1.conn.message :: todo') ∨
    (result.2 = .none ∧ result.1.conn.state ≠ .data ∧
      ∃ cuts', cuts' ⊆ cuts ∧ Expecting parser result.1 rs todo cuts' ∧
        (result.1.rest = [] → todo = []))

theorem length_lines (ls : List CString) : 2 * ls.length ≤ (lineText (ls ++ [[]])).length := by
  induction ls with
  | nil => exact Nat.zero_le _
  | cons l ls ih =>
    rw [List.cons_append, length_lineText_cons, List.length_cons]
    omega

theorem receives_head {n m : ℕ} {ls : List CString} {body : List UInt8} {r : HttpResponse}
    {rs : List HttpResponse} {c' : HttpConnection C T}
    (ha : Ahead parser h n ls m (body ++ stream rs) c')
    (hends : c'.ends = m + body.length)
    (hbody : body = [] ∧ c'.state = .complete ∧ c'.body = false ∨
      body ≠ [] ∧ c'.state = .data ∧ c'.body = true)
    (hready : Ready parser c' rs) (hfuel : bufferSize ≤ fuel + 2)
    (hcut : ∀ k ∈ breaks n (ls ++ [[]]) ++
        lineCuts (n + (lineText (ls ++ [[]])).length + body.length) rs,
      k ∉ (receiveLoop parser offer fuel h).1.cuts) :
    Receives parser (r :: rs)
      (.inl c'.message ::
        if c'.close then closingBytes body rs else body.map .inr ++ expected parser c' rs)
      (breaks n (ls ++ [[]]) ++ lineCuts (n + (lineText (ls ++ [[]])).length + body.length) rs)
      (receiveLoop parser offer fuel h) := by
  have hcount : ls.length < fuel := by
    have hlen := length_lines ls
    have hstop := ha.stop
    have hroom := ha.room
    unfold bufferSize at hfuel hroom
    omega
  rcases receiveLoop_ahead ha hcount fun k hk => hcut k (List.mem_append_left _ hk) with
    ⟨n', ls', hnone, hahead, hsum, hsub, hrest⟩ | ⟨hmessage, harrived⟩
  · refine .inr ⟨hnone, ?_, _, ?_, .head hahead hends hbody hready,
      fun hnil => absurd hnil hrest⟩
    · rcases hahead.begun with hbegun | hbegun <;> rw [hbegun] <;> decide
    rw [hsum]
    exact List.append_subset.mpr ⟨List.subset_append_of_subset_left _ hsub,
      List.subset_append_right _ _⟩
  · have hconn := harrived.conn
    refine .inl ⟨hmessage, ?_, ?_, ?_⟩
    · rw [hconn]
      rcases hbody with ⟨-, hstate, hflag⟩ | ⟨-, hstate, hflag⟩ <;> rw [hstate, hflag] <;> decide
    · rw [hconn]
      rcases hbody with ⟨-, hstate, -⟩ | ⟨-, hstate, -⟩
      · exact .inr hstate
      · exact .inl hstate
    rw [hconn]
    by_cases hclose : c'.close = true
    · rw [if_pos hclose]
      refine ⟨closingBytes body rs, [], List.nil_subset _, ?_, rfl⟩
      unfold closingBytes
      have hclosing := hclose
      rw [← hconn] at hclosing hbody
      rcases hbody with ⟨hnil, hstate, -⟩ | ⟨hne, hstate, -⟩
      · rw [if_pos hnil]
        exact .closing hclosing (.inl hstate)
      · -- All that comes is the body.
        have hbytes := harrived.bytes
        have hdata := harrived.data
        rw [if_neg hne, ← hbytes, ← hdata]
        refine .lasting hstate hclosing ?_
        rw [hdata]
        exact harrived.offset
    · have hopen : c'.close = false := by simpa using hclose
      have hpos : 0 < m := by
        have hlen := length_lineText_cons [] []
        have hstop := ha.stop
        have hblank : (lineText (ls ++ [[]])).length = (lineText ls).length + 2 := by
          simp [lineText]
        omega
      rw [if_neg hclose]
      refine ⟨_, _, List.subset_append_right _ _, ?_, rfl⟩
      rcases hbody with ⟨hnil, hstate, -⟩ | ⟨-, hstate, -⟩
      · have hplace := harrived.place
        subst hnil
        unfold At at hplace
        rw [harrived.data] at hplace
        rw [← hconn] at hready hopen hstate hends ⊢
        exact .complete hstate hopen harrived.sound hends hpos harrived.offset hplace
          harrived.bytes hready
      · have hdata := harrived.data
        rw [← hconn] at hready hopen hstate hends ⊢
        refine .data hstate hopen harrived.sound harrived.place ?_ ?_ ?_ (by omega) hready
        · rw [hdata]
          exact harrived.offset
        · rw [hdata]
          exact harrived.bytes
        · rw [hdata]
          exact hends

/-- A client at the beginning of responses calls `http_receive`. -/
theorem receives_renewed (he : Expecting parser h back todo cuts) (hstate : h.conn.state = .start)
    (hfuel : bufferSize ≤ fuel + 2)
    (hcut : ∀ k ∈ cuts, k ∉ (receiveLoop parser offer fuel h).1.cuts) :
    Receives parser back todo cuts (receiveLoop parser offer fuel h) := by
  cases he with
  | head ha hends hbody hready => exact receives_head ha hends hbody hready hfuel hcut
  | data hdata | lasting hdata => rw [hdata] at hstate; exact nomatch hstate
  | complete hcomplete => rw [hcomplete] at hstate; exact nomatch hstate
  | closing _ hdone =>
    rcases hdone with hdone | hdone <;> rw [hdone] at hstate <;> exact nomatch hstate
  | idle _ hbuffer hrest =>
    obtain ⟨fuel, rfl⟩ : ∃ k, fuel = k + 1 := ⟨fuel - 1, by unfold bufferSize at hfuel; omega⟩
    obtain ⟨x, hread, hx⟩ := httpRead_spec offer h
    have hnone : x = [] := by
      have := hread.rest
      rw [hrest] at this
      exact (List.append_eq_nil_iff.mp this.symm).1
    obtain ⟨y, hreads, hline⟩ : ∃ y, ReadsTo h (h.nextLine offer).1 y ∧
        (h.nextLine offer).2 = none := by
      unfold nextLine
      cases bufferSize - h.buffer.length with
      | zero =>
        rw [nextLineLoop, hbuffer]
        exact ⟨[], .refl h, rfl⟩
      | succ k =>
        rw [nextLineLoop, hbuffer]
        dsimp only [scan]
        rw [if_neg (by rw [← hx, hnone]; decide)]
        exact ⟨x, hread, rfl⟩
    have hresult : receiveLoop parser offer (fuel + 1) h = ((h.nextLine offer).1, .none) := by
      rw [receiveLoop, hstate]
      dsimp only
      rw [show h.nextLine offer = ((h.nextLine offer).1, none) from Prod.ext rfl hline]
    have hy : y = [] ∧ (h.nextLine offer).1.rest = [] := by
      have := hreads.rest
      rw [hrest] at this
      exact List.append_eq_nil_iff.mp this.symm
    rw [hresult]
    refine .inr ⟨rfl, ?_, [], List.Subset.refl _, .idle ?_ ?_ hy.2, fun _ => rfl⟩
    · rw [hreads.conn, hstate]
      decide
    · rw [hreads.conn]
      exact hstate
    · rw [hreads.buffer, hreads.data, hy.1, List.append_nil]
      exact hbuffer

variable (offer) in
/-- **`http_receive`** between messages. -/
theorem Expecting.receive (he : Expecting parser h back todo cuts) (hstate : h.conn.state ≠ .data)
    (hcut : ∀ k ∈ cuts, k ∉ (h.httpReceive parser offer).1.cuts) :
    Receives parser back todo cuts (h.httpReceive parser offer) := by
  unfold httpReceive at hcut ⊢
  cases he with
  | head ha hends hbody hready => exact receives_head ha hends hbody hready (by decide) hcut
  | data hdata | lasting hdata => exact absurd hdata hstate
  | idle hstart hbuffer hrest =>
    exact receives_renewed (.idle hstart hbuffer hrest) hstart (by decide) hcut
  | closing hclose hdone =>
    refine .inr ?_
    have hclosed : (receiveLoop parser offer bufferSize h).2 = .none ∧
        (receiveLoop parser offer bufferSize h).1.conn.close = true ∧
        (receiveLoop parser offer bufferSize h).1.conn.state = .closed := by
      rw [show bufferSize = 2047 + 1 from rfl, receiveLoop]
      rcases hdone with hcase | hcase
      · rw [hcase]
        dsimp only
        rw [if_pos hclose]
        exact ⟨rfl, hclose, rfl⟩
      · rw [hcase]
        exact ⟨rfl, hclose, hcase⟩
    obtain ⟨hnone, hclose', hstate'⟩ := hclosed
    exact ⟨hnone, by rw [hstate']; decide, [], List.Subset.refl _,
      .closing hclose' (.inr hstate'), fun _ => rfl⟩
  | @complete n e rs hcomplete hopen hs hends hpos hoffset hplace hbytes hready =>
    have hrestart : receiveLoop parser offer bufferSize h = receiveLoop parser offer 2047
        { h.httpRebuffer e with conn := { (h.httpRebuffer e).conn with state := .start } } := by
      rw [show bufferSize = 2047 + 1 from rfl, receiveLoop, hcomplete]
      dsimp only
      rw [if_neg (by rw [hopen]; decide), hends]
      rfl
    have hrebuffer : h.httpRebuffer e =
        { h with
          conn := { h.conn with ends := 0 }
          buffer := h.buffer.drop e
          data := 0 } := by
      unfold httpRebuffer
      rw [if_neg (Nat.ne_of_gt hpos), hends, Int.sub_self, ite_self]
    rw [hrestart] at hcut ⊢
    rw [hrebuffer] at hcut ⊢
    refine receives_renewed (.renewed rfl ?_ rfl ?_ hbytes hready) rfl (by decide) hcut
    · have hle : (h.buffer.drop e).length ≤ h.buffer.length := by
        rw [List.length_drop]
        exact Nat.sub_le _ _
      exact ⟨hle.trans hs.fits, hle.trans hs.bound, hs.marked⟩
    · show n + (h.buffer.drop e).length = h.received + 0
      rw [List.length_drop]
      omega

variable (offer closed fuel) in
/-- **`http_data`** reads until the body is complete, or for now. -/
theorem httpDataLoop_spec (hopen : h.conn.close = false) (hs : h.Sound)
    (hfuel : bufferSize ≤ h.buffer.length + fuel) :
    ∃ h' x, ReadsTo h h' x ∧
      (h.conn.ends ≤ h'.buffer.length ∧ httpDataLoop offer closed fuel h =
          ({ h' with conn := { h.conn with state := .complete } }, h.conn.ends.toNat) ∨
        h'.buffer.length < h.conn.ends ∧
          httpDataLoop offer closed fuel h = (h', h'.buffer.length)) := by
  induction fuel generalizing h with
  | zero =>
    have := hs.fits
    unfold bufferSize at *
    omega
  | succ fuel ih =>
    unfold httpDataLoop
    rw [if_neg (by rw [hopen]; decide)]
    split
    · rename_i hends
      exact ⟨h, [], .refl h, .inl ⟨hends, rfl⟩⟩
    · rename_i hends
      split
      · exact ⟨h, [], .refl h, .inr ⟨by omega, rfl⟩⟩
      · obtain ⟨x, hread, hx⟩ := httpRead_spec offer h
        have hlen : (h.httpRead offer).2.buffer.length = h.buffer.length + x.length := by
          rw [hread.buffer, List.length_append]
        dsimp only
        split
        · obtain ⟨h', y, hreads, hresult⟩ := ih (h := (h.httpRead offer).2)
            (by rw [hread.conn]; exact hopen) (hread.sound hs) (by omega)
          rw [hread.conn] at hresult
          exact ⟨h', x ++ y, hread.trans hreads, hresult⟩
        · exact ⟨_, x, hread, .inr ⟨by omega, rfl⟩⟩

/-- What of a body is in the buffer. -/
theorem body_taken {h' : HttpStream C T} {x body post : List UInt8} (hr : ReadsTo h h' x)
    (hoffset : h.data ≤ h.buffer.length)
    (hbytes : h.buffer.drop h.data ++ h.rest = body ++ post) :
    (h.data + body.length ≤ h'.buffer.length → (h'.buffer.drop h'.data).take body.length = body ∧
        h'.buffer.drop (h.data + body.length) ++ h'.rest = post) ∧
      (h'.buffer.length < h.data + body.length → h'.rest ≠ [] ∧
        h'.buffer.drop h'.data = body.take (h'.buffer.length - h.data) ∧
        h'.rest = body.drop (h'.buffer.length - h.data) ++ post) := by
  have hahead := (hr.ahead hoffset).trans hbytes
  have hlen := congrArg List.length hahead
  have hle : h.data ≤ h'.buffer.length := by
    rw [hr.buffer, List.length_append]
    omega
  simp only [List.length_append, List.length_drop] at hlen
  rw [hr.data]
  constructor
  · intro hlong
    have htake := congrArg (List.take body.length) hahead
    have hdrop := congrArg (List.drop body.length) hahead
    rw [List.take_append_of_le_length (by rw [List.length_drop]; omega), List.take_left] at htake
    rw [List.drop_append_of_le_length (by rw [List.length_drop]; omega), List.drop_left,
      List.drop_drop] at hdrop
    exact ⟨htake, hdrop⟩
  · intro hshort
    have htake := congrArg (List.take (h'.buffer.length - h.data)) hahead
    have hdrop := congrArg (List.drop (h'.buffer.length - h.data)) hahead
    rw [List.take_left' (by rw [List.length_drop]),
      List.take_append_of_le_length (by omega)] at htake
    rw [List.drop_left' (by rw [List.length_drop]),
      List.drop_append_of_le_length (by omega)] at hdrop
    refine ⟨fun hnil => ?_, htake, hdrop⟩
    rw [hnil, List.length_nil] at hlen
    omega

variable (offer closed fuel) in
/-- **`http_data`** of a message that closes the connection: what is in the buffer, and the body is
complete if the connection has been found closed. -/
theorem httpDataLoop_closing (hclose : h.conn.close = true) :
    ∃ g x, ReadsTo h g x ∧ httpDataLoop offer closed fuel h =
      (if closed h.reads then { g with conn := { g.conn with state := .complete } } else g,
        g.buffer.length) := by
  obtain ⟨x, hread, -⟩ := httpRead_spec offer h
  refine ⟨_, x, hread, ?_⟩
  unfold httpDataLoop
  rw [if_pos hclose]

theorem expected_renewed {c c' : HttpConnection C T} (h : c.renewed = c'.renewed)
    (rs : List HttpResponse) : expected parser c rs = expected parser c' rs := by
  cases rs with
  | nil => rfl
  | cons r rs => rw [expected, expected, answered, answered, h]

variable {h' : HttpStream C T} {data : List UInt8} {k : ℕ}

/-- What `http_data` gives of a body: all of it, or what has come. -/
theorem httpData_spec {body : List UInt8} {rs : List HttpResponse}
    (hstate : h.conn.state = .data) (hopen : h.conn.close = false) (hs : h.Sound)
    (hoffset : h.data ≤ h.buffer.length)
    (hbytes : h.buffer.drop h.data ++ h.rest = body ++ stream rs)
    (hends : h.conn.ends = h.data + body.length)
    (hdata : h.httpData offer closed = (h', some data)) :
    ∃ g x, ReadsTo h g x ∧
      (data = body ∧ h' = { g with conn := { h.conn with state := .complete } } ∧
          h.data + body.length ≤ g.buffer.length ∧
          g.buffer.drop (h.data + body.length) ++ g.rest = stream rs ∨
        data = body.take (g.buffer.length - h.data) ∧ h' = g ∧
          g.buffer.length < h.data + body.length ∧ g.rest ≠ [] ∧
          g.buffer.drop h.data = body.take (g.buffer.length - h.data) ∧
          g.rest = body.drop (g.buffer.length - h.data) ++ stream rs) := by
  obtain ⟨g, x, hreads, hloop⟩ := httpDataLoop_spec offer closed
    (bufferSize - h.buffer.length) hopen hs
    (by have := hs.fits; omega)
  obtain ⟨hwhole, hpart⟩ := body_taken hreads hoffset hbytes
  refine ⟨g, x, hreads, ?_⟩
  unfold httpData at hdata
  rw [if_pos hstate] at hdata
  rcases hloop with ⟨hlong, hloop⟩ | ⟨hshort, hloop⟩
  · left
    rw [hloop] at hdata
    obtain ⟨rfl, hsome⟩ := Prod.mk.inj hdata
    obtain ⟨htake, hdrop⟩ := hwhole (by omega)
    refine ⟨?_, rfl, by omega, hdrop⟩
    rw [← Option.some.inj hsome]
    have hlength : h.conn.ends.toNat - h.data = body.length := by omega
    have hgdata := hreads.data
    show (g.buffer.drop g.data).take (h.conn.ends.toNat - g.data) = body
    rw [hgdata] at htake ⊢
    rw [hlength, htake]
  · right
    rw [hloop] at hdata
    obtain ⟨rfl, hsome⟩ := Prod.mk.inj hdata
    obtain ⟨hrest, hbuffer, hleft⟩ := hpart (by omega)
    rw [hreads.data] at hbuffer hsome
    refine ⟨?_, rfl, by omega, hrest, hbuffer, hleft⟩
    rw [← Option.some.inj hsome, ← hbuffer, List.take_of_length_le (by rw [List.length_drop])]

/-- **What `http_data` gives** of the body of a message that closes the connection. -/
theorem httpData_closing (hstate : h.conn.state = .data) (hclose : h.conn.close = true)
    (hoffset : h.data ≤ h.buffer.length) (hdata : h.httpData offer closed = (h', some data)) :
    h'.conn.close = true ∧ h'.data ≤ h'.buffer.length ∧ data = h'.buffer.drop h'.data ∧
      data ++ h'.rest = h.buffer.drop h.data ++ h.rest ∧ (h.rest = [] → h'.rest = []) ∧
      (h'.conn.state = .complete → closed h.reads = true) := by
  obtain ⟨g, x, hreads, hloop⟩ := httpDataLoop_closing offer closed
    (bufferSize - h.buffer.length) hclose
  unfold httpData at hdata
  rw [if_pos hstate, hloop] at hdata
  obtain ⟨rfl, hsome⟩ := Prod.mk.inj hdata
  have hbuffer := hreads.buffer
  have hahead := hreads.ahead hoffset
  have hrest : h.rest = [] → g.rest = [] := by
    intro hnil
    have hsplit := hreads.rest
    rw [hnil] at hsplit
    exact (List.append_eq_nil_iff.mp hsplit.symm).2
  have hlong : g.data ≤ g.buffer.length := by
    rw [hreads.data, hbuffer, List.length_append]
    exact Nat.le_add_right_of_le hoffset
  have hgiven : data = g.buffer.drop g.data := by
    rw [← Option.some.inj hsome]
    split <;> exact List.take_of_length_le (by rw [List.length_drop])
  rw [← hreads.data] at hahead
  split
  · rename_i hfound
    refine ⟨?_, hlong, hgiven, ?_, hrest, fun _ => hfound⟩
    · show g.conn.close = true
      rw [hreads.conn]
      exact hclose
    · rw [hgiven]
      exact hahead.trans (by rw [hreads.data])
  · refine ⟨by rw [hreads.conn]; exact hclose, hlong, hgiven, ?_, hrest, fun hcomplete => ?_⟩
    · rw [hgiven]
      exact hahead.trans (by rw [hreads.data])
    · rw [hreads.conn, hstate] at hcomplete
      exact nomatch hcomplete

/-- A body that is complete. -/
theorem Expecting.body (he : Expecting parser h back todo cuts) (hstate : h.conn.state = .data)
    (hlast : h.conn.close = true → closed h.reads = true → h.rest = [])
    (hdata : h.httpData offer closed = (h', some data)) (hdone : h'.conn.state = .complete) :
    ∃ todo', Expecting parser h' back todo' cuts ∧ todo = data.map .inr ++ todo' := by
  cases he with
  | head ha =>
    rcases ha.begun with hbegun | hbegun <;> rw [hbegun] at hstate <;> exact nomatch hstate
  | complete hcomplete => rw [hcomplete] at hstate; exact nomatch hstate
  | idle hstart => rw [hstart] at hstate; exact nomatch hstate
  | closing _ hend =>
    rcases hend with hend | hend <;> rw [hend] at hstate <;> exact nomatch hstate
  | lasting _ hclose hoffset =>
    obtain ⟨hclose', -, -, hbytes, hnone, hfound⟩ := httpData_closing hstate hclose hoffset hdata
    refine ⟨[], .closing hclose' (.inl hdone), ?_⟩
    rw [← hbytes, hnone (hlast hclose (hfound hdone)), List.append_nil, List.append_nil]
  | @data n body _ _ hopen hs hplace hoffset hbytes hends hpos hready =>
    obtain ⟨g, x, hreads, ⟨rfl, rfl, hlong, hrest⟩ | ⟨-, rfl, -⟩⟩ :=
      httpData_spec hstate hopen hs hoffset hbytes hends hdata
    · refine ⟨_, .complete rfl hopen ?_ hends (by omega) hlong ?_ hrest ?_, ?_⟩
      · exact ⟨(hreads.sound hs).fits, (hreads.sound hs).bound, (hreads.sound hs).marked⟩
      · have hlen := hreads.received
        have hbuffer := congrArg List.length hreads.buffer
        rw [List.length_append] at hbuffer
        unfold At at hplace
        show n + data.length + g.buffer.length = g.received + (h.data + data.length)
        omega
      · exact ⟨hready.client, hready.requests, hready.targets, hready.responses⟩
      · have hsame : expected parser h.conn back =
            expected parser { h.conn with state := .complete } back := by
          apply expected_renewed
          rfl
        rw [hsame]
    · rw [hreads.conn, hstate] at hdone
      exact nomatch hdone

/-- What `http_rebuffer` keeps, where the message ends behind `p`. -/
theorem httpRebuffer_spec {p : ℕ} (hdata : h.data ≤ p) (hp : p ≤ h.buffer.length)
    (hends : (p : ℤ) < h.conn.ends) (hs : h.Sound) :
    (h.httpRebuffer p).Sound ∧ (h.httpRebuffer p).data ≤ (h.httpRebuffer p).buffer.length ∧
      (h.httpRebuffer p).buffer.drop (h.httpRebuffer p).data = h.buffer.drop p ∧
      (h.httpRebuffer p).rest = h.rest ∧ (h.httpRebuffer p).received = h.received ∧
      (h.httpRebuffer p).buffer.length + p = h.buffer.length + (h.httpRebuffer p).data ∧
      (h.httpRebuffer p).conn =
        { h.conn with ends := (h.httpRebuffer p).data + (h.conn.ends - p) } := by
  unfold httpRebuffer
  split
  · rename_i h0
    have hzero : h.data = 0 := by omega
    refine ⟨hs, by omega, by rw [h0, hzero], rfl, rfl, by omega, ?_⟩
    rw [h0, hzero]
    simp
  · have hne : h.conn.ends ≠ 0 := by omega
    have hle : (h.buffer.drop p).length = h.buffer.length - p := List.length_drop
    have hfits := hs.fits
    have hbound := hs.bound
    refine ⟨⟨by dsimp only; omega, by dsimp only; omega, hs.marked⟩, Nat.zero_le _, rfl, rfl, rfl,
      by dsimp only; omega, ?_⟩
    dsimp only
    rw [if_neg hne]
    simp

/-- A part of a body has come, and is kept. -/
theorem Expecting.read (he : Expecting parser h back todo cuts) (hstate : h.conn.state = .data)
    (hopen : h.conn.close = false) (hdata : h.httpData offer closed = (h', some data))
    (hmore : h'.conn.state = .data) :
    Expecting parser h' back todo cuts ∧ h'.rest ≠ [] ∧ data = h'.buffer.drop h'.data ∧
      h'.conn = h.conn ∧ h'.data ≤ h'.buffer.length ∧ h'.buffer.length < h'.conn.ends := by
  cases he with
  | head ha =>
    rcases ha.begun with hbegun | hbegun <;> rw [hbegun] at hstate <;> exact nomatch hstate
  | complete hcomplete => rw [hcomplete] at hstate; exact nomatch hstate
  | idle hstart => rw [hstart] at hstate; exact nomatch hstate
  | closing hclose | lasting _ hclose => rw [hclose] at hopen; exact nomatch hopen
  | @data n body _ _ _ hs hplace hoffset hbytes hends hpos hready =>
    obtain ⟨g, x, hreads, ⟨-, rfl, -⟩ | ⟨rfl, rfl, hshort, hrest, hbuffer, -⟩⟩ :=
      httpData_spec hstate hopen hs hoffset hbytes hends hdata
    · exact nomatch hmore
    · have hgrown := congrArg List.length hreads.buffer
      rw [List.length_append] at hgrown
      have hlen := hreads.received
      have hconn := hreads.conn
      have hsame := hreads.data
      have hkept : h'.data ≤ h'.buffer.length := by omega
      refine ⟨?_, hrest, by rw [hsame, hbuffer], hconn, hkept, by rw [hconn]; omega⟩
      have hahead := (hreads.ahead hoffset).trans hbytes
      rw [← hsame] at hahead
      rw [← hconn] at hends hpos hready ⊢
      refine .data hmore (by rw [hconn]; exact hopen) (hreads.sound hs) ?_ hkept hahead
        (by rw [hsame]; exact hends) hpos hready
      unfold At at *
      omega

/-- What is in the buffer of a body that is not complete. -/
theorem body_held {body post : List UInt8} (hbytes : h.buffer.drop h.data ++ h.rest = body ++ post)
    (hends : h.conn.ends = h.data + body.length) (hwaits : h.buffer.length < h.conn.ends)
    (hk : h.data + k ≤ h.buffer.length) :
    (h.buffer.drop h.data).take k = body.take k ∧
      h.buffer.drop (h.data + k) ++ h.rest = body.drop k ++ post := by
  have htake := congrArg (List.take k) hbytes
  have hdrop := congrArg (List.drop k) hbytes
  rw [List.take_append_of_le_length (by rw [List.length_drop]; omega),
    List.take_append_of_le_length (by omega)] at htake
  rw [List.drop_append_of_le_length (by rw [List.length_drop]; omega), List.drop_drop,
    List.drop_append_of_le_length (by omega)] at hdrop
  exact ⟨htake, hdrop⟩

/-- A part of a body is passed over. -/
theorem Expecting.pass (he : Expecting parser h back todo cuts) (hstate : h.conn.state = .data)
    (hopen : h.conn.close = false) (hk : h.data + k ≤ h.buffer.length)
    (hwaits : h.buffer.length < h.conn.ends) :
    ∃ todo', Expecting parser (h.httpRebuffer (h.data + k)) back todo' cuts ∧
      todo = ((h.buffer.drop h.data).take k).map .inr ++ todo' := by
  cases he with
  | head ha =>
    rcases ha.begun with hbegun | hbegun <;> rw [hbegun] at hstate <;> exact nomatch hstate
  | complete hcomplete => rw [hcomplete] at hstate; exact nomatch hstate
  | idle hstart => rw [hstart] at hstate; exact nomatch hstate
  | closing hclose | lasting _ hclose => rw [hclose] at hopen; exact nomatch hopen
  | @data n body _ _ _ hs hplace hoffset hbytes hends hpos hready =>
    obtain ⟨htake, hall⟩ := body_held hbytes hends hwaits hk
    refine ⟨(body.drop k).map .inr ++ expected parser h.conn back, ?_, ?_⟩
    · obtain ⟨hsound, hoffset', hkept, hrest', hreceived, hshift, hconn'⟩ :=
        httpRebuffer_spec (h := h) (p := h.data + k) (Nat.le_add_right _ _) hk (by omega) hs
      generalize h.httpRebuffer (h.data + k) = f at *
      have hcuts : lineCuts (n + body.length) back =
          lineCuts (n + k + (body.drop k).length) back := by
        rw [List.length_drop]
        congr 1
        omega
      have htodo : expected parser h.conn back = expected parser f.conn back :=
        expected_renewed (by rw [hconn']; rfl) back
      rw [hcuts, htodo]
      refine .data ?_ ?_ hsound ?_ hoffset' ?_ ?_ ?_ ?_
      · rw [hconn']
        exact hstate
      · rw [hconn']
        exact hopen
      · unfold At at *
        omega
      · rw [hkept, hrest', hall]
      · rw [hconn', List.length_drop]
        dsimp only
        omega
      · rw [hconn']
        dsimp only
        omega
      · rw [hconn']
        exact ⟨hready.client, hready.requests, hready.targets, hready.responses⟩
    · rw [htake, ← List.append_assoc, ← List.map_append, List.take_append_drop]

/-- A part of the body of a message that closes the connection is passed over. -/
theorem Expecting.pass_closing (hstate : h.conn.state = .data) (hclose : h.conn.close = true)
    (hk : h.data + k ≤ h.buffer.length) :
    Expecting parser (h.httpRebuffer (h.data + k)) back
      ((h.buffer.drop (h.data + k) ++ h.rest).map .inr) [] := by
  unfold httpRebuffer
  split
  · rename_i hzero
    obtain ⟨hdata, rfl⟩ := Nat.add_eq_zero_iff.mp hzero
    exact .lasting hstate hclose hk
  · exact .lasting hstate hclose (Nat.zero_le _)

/-- What has come of a body, of which a part is passed over. -/
theorem Expecting.part (he : Expecting parser h back todo cuts) (hstate : h.conn.state = .data)
    (hdata : h.httpData offer closed = (h', some data)) (hmore : h'.conn.state = .data)
    (hk : k ≤ data.length) :
    ∃ todo', Expecting parser (h'.httpRebuffer (h'.data + k)) back todo' cuts ∧
      todo = (data.take k).map .inr ++ todo' := by
  by_cases hclose : h.conn.close = true
  · have hlasting := he
    cases he with
    | head ha =>
      rcases ha.begun with hbegun | hbegun <;> rw [hbegun] at hstate <;> exact nomatch hstate
    | complete hcomplete => rw [hcomplete] at hstate; exact nomatch hstate
    | idle hstart => rw [hstart] at hstate; exact nomatch hstate
    | data _ hopen => rw [hopen] at hclose; exact nomatch hclose
    | closing _ hend =>
      rcases hend with hend | hend <;> rw [hend] at hstate <;> exact nomatch hstate
    | lasting _ _ hoffset =>
      obtain ⟨hclose', hoffset', rfl, hbytes, -, -⟩ :=
        httpData_closing hstate hclose hoffset hdata
      rw [List.length_drop] at hk
      refine ⟨_, .pass_closing (k := k) hmore hclose' (by omega), ?_⟩
      rw [← hbytes, ← List.map_append, ← List.append_assoc, ← List.drop_drop,
        List.take_append_drop]
  · obtain ⟨he', -, rfl, hconn, hoffset, hwaits⟩ :=
      he.read hstate (Bool.eq_false_of_not_eq_true hclose) hdata hmore
    rw [List.length_drop] at hk
    exact he'.pass hmore (by rw [hconn]; exact Bool.eq_false_of_not_eq_true hclose) (by omega)
      hwaits

theorem ReadsTo.withConn {g : HttpStream C T} {x : List UInt8} (hreads : ReadsTo h g x)
    (conn : HttpConnection C T) : ReadsTo h { { g with conn := conn } with conn := h.conn } x :=
  ⟨rfl, hreads.data, hreads.buffer, hreads.rest, hreads.received, hreads.cuts, fun hs =>
    ⟨(hreads.sound hs).fits, (hreads.sound hs).bound, (hreads.sound hs).marked⟩⟩

variable (offer closed) in
/-- `http_data` reads, and does nothing else to the buffer. -/
theorem httpDataLoop_reads (fuel : ℕ) (h : HttpStream C T) :
    ∃ x, ReadsTo h { (httpDataLoop offer closed fuel h).1 with conn := h.conn } x := by
  induction fuel generalizing h with
  | zero =>
    obtain ⟨x, hread, -⟩ := httpRead_spec offer h
    unfold httpDataLoop
    dsimp only
    split_ifs
    · exact ⟨x, hread.withConn _⟩
    · exact ⟨x, hread.withConn _⟩
    · exact ⟨[], (ReadsTo.refl h).withConn _⟩
    · exact ⟨[], (ReadsTo.refl h).withConn _⟩
    · exact ⟨[], (ReadsTo.refl h).withConn _⟩
  | succ fuel ih =>
    obtain ⟨x, hread, -⟩ := httpRead_spec offer h
    unfold httpDataLoop
    dsimp only
    split_ifs
    · exact ⟨x, hread.withConn _⟩
    · exact ⟨x, hread.withConn _⟩
    · exact ⟨[], (ReadsTo.refl h).withConn _⟩
    · exact ⟨[], (ReadsTo.refl h).withConn _⟩
    · obtain ⟨y, hreads⟩ := ih (h.httpRead offer).2
      rw [hread.conn] at hreads
      exact ⟨x ++ y, hread.trans hreads⟩
    · exact ⟨x, hread.withConn _⟩

theorem httpData_reads (hdata : h.httpData offer closed = (h', some data)) :
    ∃ x, ReadsTo h { h' with conn := h.conn } x := by
  have hloop := httpDataLoop_reads offer closed (bufferSize - h.buffer.length) h
  unfold httpData at hdata
  split at hdata
  · obtain ⟨rfl, -⟩ := Prod.mk.inj hdata
    exact hloop
  · exact nomatch (Prod.mk.inj hdata).2

theorem httpData_cuts (hdata : h.httpData offer closed = (h', some data)) : h.cuts ⊆ h'.cuts := by
  obtain ⟨x, hreads⟩ := httpData_reads hdata
  exact hreads.cuts

theorem httpRebuffer_cuts (h : HttpStream C T) (p : ℕ) : (h.httpRebuffer p).cuts = h.cuts := by
  unfold httpRebuffer
  split <;> rfl

end HttpStream

/-! ## Every run -/

section Runs
variable {C T : Type} {parser : UriParser T} {offer : ℕ → ℕ} {closed : ℕ → Bool}
  {h h' : HttpStream C T} {act : ReceiveAct C T} {back : List HttpResponse}
  {todo : List (Message C T ⊕ UInt8)} {cuts : List ℕ}
open HttpStream

theorem ReceiveStep.cuts_subset (hs : ReceiveStep parser offer closed h act h') :
    h.cuts ⊆ h'.cuts := by
  cases hs with
  | message _ hres | waiting _ hres _ =>
    have hcuts := @receiveLoop_cuts _ _ parser offer bufferSize h
    rw [show receiveLoop parser offer bufferSize h = _ from hres] at hcuts
    exact hcuts
  | body _ _ hdata _ => exact httpData_cuts hdata
  | part k _ hdata _ _ =>
    rw [httpRebuffer_cuts]
    exact httpData_cuts hdata

/-- **The step lemma.** -/
theorem ReceiveStep.expecting (hs : ReceiveStep parser offer closed h act h')
    (he : Expecting parser h back todo cuts) (hcut : ∀ k ∈ cuts, k ∉ h'.cuts) :
    ∃ back' todo' cuts', cuts' ⊆ cuts ∧ Expecting parser h' back' todo' cuts' ∧
      todo = act.shown ++ todo' ∧ (h'.rest = [] → act = .waiting → todo' = []) := by
  cases hs with
  | message hstate hres =>
    have hreceives := he.receive offer hstate (by rw [hres]; exact hcut)
    rw [hres] at hreceives
    rcases hreceives with ⟨-, -, -, todo', cuts', hsub, he', htodo⟩ | ⟨hnone, -⟩
    · exact ⟨_, todo', cuts', hsub, he', htodo, fun _ hwaiting => nomatch hwaiting⟩
    · exact nomatch hnone
  | waiting hstate hres hne =>
    have hreceives := he.receive offer hstate (by rw [hres]; exact hcut)
    rw [hres] at hreceives
    rcases hreceives with ⟨hmessage, -⟩ | ⟨-, -, cuts', hsub, he', hdone⟩
    · exact absurd hmessage hne
    · exact ⟨_, todo, cuts', hsub, he', rfl, fun hrest _ => hdone hrest⟩
  | body hstate hlast hdata hdone =>
    obtain ⟨todo', he', htodo⟩ := he.body hstate hlast hdata hdone
    exact ⟨_, todo', cuts, List.Subset.refl _, he', htodo, fun _ hwaiting => nomatch hwaiting⟩
  | @part g data k hstate hdata hmore hk =>
    obtain ⟨todo', he', htodo⟩ := he.part hstate hdata hmore hk
    exact ⟨_, todo', cuts, List.Subset.refl _, he', htodo, fun _ hwaiting => nomatch hwaiting⟩

/-- **The run lemma.** -/
theorem run_expecting {reqs : List (QueuedRequest C)} {rs : List HttpResponse}
    {ls : List (ReceiveAct C T)} (hready : Ready parser { request := reqs } rs)
    (hrun : Run (ReceiveStep parser offer closed) (begin reqs rs) ls h)
    (hcut : ∀ k ∈ lineCuts 0 rs, k ∉ h.cuts) :
    ∃ back todo cuts, cuts ⊆ lineCuts 0 rs ∧ Expecting parser h back todo cuts ∧
      expected parser { request := reqs } rs = observed ls ++ todo ∧
      (h.rest = [] → ∀ past, ls = past ++ [.waiting] → todo = []) := by
  induction hrun with
  | nil =>
    have hbegin : Expecting parser (begin reqs rs) rs (expected parser { request := reqs } rs)
        (lineCuts 0 rs) :=
      .renewed rfl ⟨Nat.zero_le _, Nat.zero_le _, .inl rfl⟩ rfl rfl rfl hready
    exact ⟨_, _, _, List.Subset.refl _, hbegin, rfl, fun _ past hnil => absurd hnil (by simp)⟩
  | @snoc ls g h act _ hs ih =>
    obtain ⟨back, todo, cuts, hsub, he, htodo, -⟩ :=
      ih fun k hk hmem => hcut k hk (hs.cuts_subset hmem)
    obtain ⟨back', todo', cuts', hsub', he', htodo', hdone⟩ :=
      hs.expecting he fun k hk => hcut k (hsub hk)
    refine ⟨back', todo', cuts', List.Subset.trans hsub' hsub, he', ?_, ?_⟩
    · rw [htodo, htodo', observed, observed, List.flatMap_append, List.append_assoc]
      simp
    · intro hrest past hlast
      obtain ⟨-, hact⟩ := List.append_inj' hlast rfl
      exact hdone hrest (List.cons.inj hact).1

/-- **Every division.**  However the reads divide a stream of responses, not between the two
characters of a line end, the client gets the messages of the stream with their bodies, and when
all has come it gets them all.  The body of a message that closes the connection is all that comes
behind its head. -/
theorem every_division (parser : UriParser T) (offer : ℕ → ℕ) (closed : ℕ → Bool)
    (reqs : List (QueuedRequest C)) (rs : List HttpResponse)
    (hrequests : rs.length ≤ reqs.length)
    (htargets : ∀ q ∈ reqs, (requestTarget parser q.uri).isSome)
    (hresponses : ∀ r ∈ rs, r.WellFormed) (hfits : ∀ r ∈ rs, r.Fits)
    (ls : List (ReceiveAct C T)) (h : HttpStream C T)
    (hrun : Run (ReceiveStep parser offer closed) (begin reqs rs) ls h)
    (hcut : ∀ k ∈ lineCuts 0 rs, k ∉ h.cuts) :
    observed ls <+: expected parser { request := reqs } rs ∧
      (h.rest = [] → ∀ past, ls = past ++ [.waiting] →
        observed ls = expected parser { request := reqs } rs) := by
  obtain ⟨-, todo, cuts, -, -, htodo, hdone⟩ := run_expecting
    ⟨rfl, hrequests, htargets, fun r hr => ⟨hresponses r hr, hfits r hr⟩⟩ hrun hcut
  refine ⟨⟨todo, htodo.symm⟩, fun hrest past hlast => ?_⟩
  rw [htodo, hdone hrest past hlast, List.append_nil]

/-! ## A response in two reads -/

/-- A response with a body of two bytes. -/
def responseHi : HttpResponse where
  head := ⟨200, chars ['O', 'K'], [(chars
    ['C', 'o', 'n', 't', 'e', 'n', 't', '-', 'L', 'e', 'n', 'g', 't', 'h'], chars [' ', '2'])]⟩
  body := chars ['h', 'i']

theorem responseHi_ok : responseHi.WellFormed ∧ responseHi.Fits := by
  have hfield : ∀ f ∈ responseHi.head.fields, FieldOk f := by
    intro f hf
    obtain rfl := List.mem_singleton.mp hf
    exact ⟨⟨by decide, by decide⟩, by decide, fun _ => ⟨by decide, by decide⟩⟩
  exact ⟨⟨⟨by decide, by decide, hfield⟩, by decide, by decide, by decide⟩,
    ⟨by decide, by decide, by decide⟩⟩

/-- The request that it answers. -/
def requestHi : QueuedRequest ℕ := ⟨.get, chars ['/', 'h', 'i'], some 1⟩

def messageHi : Message ℕ CString where
  status := 200
  close := false
  body := true
  contentLength := 2
  contentType := none
  mediaRange := none
  location := none
  requestMethod := some .get
  uri := some (chars ['/', 'h', 'i'])
  context := some 1

theorem ReceiveStep.messages (hstate : h.conn.state ≠ .data)
    (hres : (h.httpReceive parser offer).2 = .message) :
    ReceiveStep parser offer closed h (.message (h.httpReceive parser offer).1.conn.message)
      (h.httpReceive parser offer).1 :=
  .message hstate (Prod.ext rfl hres)

theorem ReceiveStep.waits (hstate : h.conn.state ≠ .data)
    (hres : (h.httpReceive parser offer).2 ≠ .message) :
    ReceiveStep parser offer closed h .waiting (h.httpReceive parser offer).1 :=
  .waiting hstate rfl hres

theorem ReceiveStep.completes {data : List UInt8} (hstate : h.conn.state = .data)
    (hlast : h.conn.close = true → closed h.reads = true → h.rest = [])
    (hres : (h.httpData offer closed).2 = some data)
    (hdone : (h.httpData offer closed).1.conn.state = .complete) :
    ReceiveStep parser offer closed h (.body data) (h.httpData offer closed).1 :=
  .body hstate hlast (Prod.ext rfl hres) hdone

theorem responseHi_received : ∃ h, Run (ReceiveStep HttpAct.pathParser (fun _ => 9) fun _ => false)
    (begin [requestHi] [responseHi]) [.message messageHi, .body (chars ['h', 'i']), .waiting] h ∧
    observed [.message messageHi, .body (chars ['h', 'i']), .waiting] =
      expected HttpAct.pathParser { request := [requestHi] } [responseHi] := by
  obtain ⟨h₁, hfirst, hh₁⟩ : ∃ h₁, ReceiveStep HttpAct.pathParser (fun _ => 9) (fun _ => false)
      (begin [requestHi] [responseHi]) (.message messageHi) h₁ ∧
      h₁ = ((begin [requestHi] [responseHi]).httpReceive HttpAct.pathParser fun _ => 9).1 := by
    refine ⟨_, ?_, rfl⟩
    rw [show messageHi = ((begin [requestHi] [responseHi]).httpReceive HttpAct.pathParser
      fun _ => 9).1.conn.message by decide +kernel]
    exact .messages (by decide) (by decide +kernel)
  obtain ⟨h₂, hbody, hh₂⟩ : ∃ h₂, ReceiveStep HttpAct.pathParser (fun _ => 9) (fun _ => false) h₁
      (.body (chars ['h', 'i'])) h₂ ∧ h₂ = (h₁.httpData (fun _ => 9) fun _ => false).1 := by
    refine ⟨_, ?_, rfl⟩
    subst hh₁
    exact .completes (by decide +kernel) (by decide +kernel) (by decide +kernel)
      (by decide +kernel)
  obtain ⟨h₃, hlast, hh₃⟩ : ∃ h₃, ReceiveStep HttpAct.pathParser (fun _ => 9) (fun _ => false) h₂
      .waiting h₃ ∧ h₃ = (h₂.httpReceive HttpAct.pathParser fun _ => 9).1 := by
    refine ⟨_, ?_, rfl⟩
    subst hh₂ hh₁
    exact .waits (by decide +kernel) (by decide +kernel)
  have hrun := Run.cons hfirst (Run.cons hbody (Run.single hlast))
  have hend : (∀ k ∈ lineCuts 0 [responseHi], k ∉ h₃.cuts) ∧ h₃.rest = [] := by
    subst hh₃ hh₂ hh₁
    decide +kernel
  refine ⟨h₃, hrun, (every_division HttpAct.pathParser _ _ [requestHi] [responseHi] (by decide)
    (by decide) ?_ ?_ _ h₃ hrun hend.1).2 hend.2
    [.message messageHi, .body (chars ['h', 'i'])] rfl⟩
  · intro r hr
    exact List.mem_singleton.mp hr ▸ responseHi_ok.1
  · intro r hr
    exact List.mem_singleton.mp hr ▸ responseHi_ok.2

/-- The first read ends between the two characters of the first line end. -/
theorem not_every_division :
    ¬∀ (offer : ℕ → ℕ) (reqs : List (QueuedRequest ℕ)) (rs : List HttpResponse),
      rs.length ≤ reqs.length →
      (∀ q ∈ reqs, (requestTarget HttpAct.pathParser q.uri).isSome) →
      (∀ r ∈ rs, r.WellFormed) → (∀ r ∈ rs, r.Fits) →
      ∀ (ls : List (ReceiveAct ℕ CString)) (h : HttpStream ℕ CString),
        Run (ReceiveStep HttpAct.pathParser offer fun _ => false) (begin reqs rs) ls h →
        observed ls <+: expected HttpAct.pathParser { request := reqs } rs := by
  intro hclaim
  let offer : ℕ → ℕ := fun k => if k = 0 then 16 else 100
  have hstep := @ReceiveStep.messages _ _ HttpAct.pathParser offer (fun _ => false)
    (begin [requestHi] [responseHi]) (by decide) (by decide +kernel)
  have hprefix := hclaim offer [requestHi] [responseHi] (by decide) (by decide)
    (fun r hr => List.mem_singleton.mp hr ▸ responseHi_ok.1)
    (fun r hr => List.mem_singleton.mp hr ▸ responseHi_ok.2) _ _ (Run.single hstep)
  revert hprefix
  decide +kernel

end Runs
end SeClient
