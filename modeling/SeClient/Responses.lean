import Mathlib.Data.List.Induction
import Mathlib.Data.List.TakeWhile
import SeClient.Answers
import SeClient.HttpReceive

/-!
# Responses in the receive buffer

What `http_receive` makes of the head of a response that is next in the stream.

**Heads** (`receiveLoop_ahead`): the lines that have come are taken, and the others are left for
the next call.

**Responses** (`takeLines_response`): the body of a well-formed response begins behind its head
and is as long as Content-Length says.
-/

namespace SeClient
open Transition
open HttpConnection ResponseHead

/-! ## A head in the buffer -/

/-- The bytes of lines. -/
def lineText (ls : List CString) : List UInt8 := ls.flatMap fun l => l ++ [13, 10]

/-- Where the line ends of lines are torn apart, the first of which begins at `n`. -/
def breaks : ℕ → List CString → List ℕ
  | _, [] => []
  | n, l :: ls => (n + l.length + 1) :: breaks (n + l.length + 2) ls

@[simp] theorem lineText_nil : lineText [] = [] := rfl

@[simp] theorem lineText_cons (l : CString) (ls : List CString) :
    lineText (l :: ls) = l ++ 13 :: 10 :: lineText ls := by
  simp [lineText]

theorem length_lineText_cons (l : CString) (ls : List CString) :
    (lineText (l :: ls)).length = l.length + 2 + (lineText ls).length := by
  simp only [lineText_cons, List.length_append, List.length_cons]
  omega

namespace HttpStream
variable {C T : Type} {parser : UriParser T} {offer : ℕ → ℕ}

/-- The stream offset of `c->data` is `n`. -/
def At (h : HttpStream C T) (n : ℕ) : Prop := n + h.buffer.length = h.received + h.data

/-- The lines `ls` and the empty line of a head are next, at the stream offset `n`; `c'` is what
comes of them.  The head ends at the offset `m` of the buffer. -/
structure Ahead (parser : UriParser T) (h : HttpStream C T) (n : ℕ) (ls : List CString) (m : ℕ)
    (post : List UInt8) (c' : HttpConnection C T) : Prop where
  sound : h.Sound
  place : h.At n
  offset : h.data ≤ h.buffer.length
  begun : h.conn.state = .start ∨ h.conn.state = .header
  text : ∀ l ∈ ls, l ≠ [] ∧ Text l
  takes : takeLines parser h.conn h.data (ls ++ [[]]) = (c', .message)
  bytes : h.buffer.drop h.data ++ h.rest = lineText (ls ++ [[]]) ++ post
  stop : h.data + (lineText (ls ++ [[]])).length = m
  room : m < bufferSize

/-- The head has come, up to the stream offset `n` and the offset `m` of the buffer. -/
structure Arrived (h : HttpStream C T) (n m : ℕ) (post : List UInt8) (c' : HttpConnection C T) :
    Prop where
  sound : h.Sound
  place : h.At n
  conn : h.conn = c'
  data : h.data = m
  offset : m ≤ h.buffer.length
  bytes : h.buffer.drop m ++ h.rest = post

section Lines
variable {c c' : HttpConnection C T} {data : CString} {next : ℕ}

theorem statusLine_state (h : statusLine parser c data = some c') : c'.state = .header := by
  unfold statusLine at h
  simp only [Option.bind_eq_bind, Option.bind_eq_some_iff] at h
  obtain ⟨_, -, _, -, _, -, _, -, _, -, h⟩ := h
  split at h
  · exact nomatch h
  · obtain ⟨uri, -, h⟩ := Option.bind_eq_some_iff.mp h
    rw [← Option.some.inj h]

theorem requestLine_state (h : requestLine parser c data = some c') : c'.state = .header := by
  unfold requestLine at h
  simp only [Option.bind_eq_bind, Option.bind_eq_some_iff] at h
  obtain ⟨_, -, _, -, _, -, _, -, h⟩ := h
  rw [← Option.some.inj h]

variable (parser next) in
/-- A line that is not empty leads to the header fields or closes the connection. -/
theorem takeLine_text (hopen : c.state = .start ∨ c.state = .header) (hdata : data ≠ []) :
    (∃ c', takeLine parser c data next = (c', none) ∧ c'.state = .header) ∨
      ∃ c' outcome, takeLine parser c data next = (c', some outcome) ∧ outcome ≠ .message := by
  cases data with
  | nil => exact absurd rfl hdata
  | cons ch data =>
    unfold takeLine
    rcases hopen with hstate | hstate <;> rw [hstate] <;> dsimp only
    · split
      · split
        · rename_i hline
          exact .inl ⟨_, rfl, statusLine_state hline⟩
        · exact .inr ⟨_, _, rfl, by decide⟩
      · split
        · rename_i hline
          exact .inl ⟨_, rfl, requestLine_state hline⟩
        · exact .inr ⟨_, _, rfl, by decide⟩
    · refine .inl ⟨_, rfl, ?_⟩
      split
      · rfl
      · exact (headerField_same parser c _).2.trans hstate

end Lines

variable {h : HttpStream C T} {n m fuel : ℕ} {ls : List CString} {l : CString}
  {post : List UInt8} {c' : HttpConnection C T}

variable (offer) in
/-- `next_line` where the line `l` is next. -/
theorem nextLine_spec (hs : h.Sound) (hplace : h.At n) (hoffset : h.data ≤ h.buffer.length)
    (hl : Text l) (hbytes : h.buffer.drop h.data ++ h.rest = l ++ 13 :: 10 :: post)
    (hroom : h.data + l.length + 2 < bufferSize)
    (hcut : n + l.length + 1 ∉ (h.nextLine offer).1.cuts) :
    ∃ x, ReadsTo h (h.nextLine offer).1 x ∧
      ((h.nextLine offer).2 = some (h.data + l.length) ∧
          h.data + l.length + 2 ≤ (h.nextLine offer).1.buffer.length ∨
        (h.nextLine offer).2 = none ∧ (h.nextLine offer).1.rest ≠ []) := by
  obtain ⟨x, hreads⟩ := nextLineLoop_reads offer (bufferSize - h.buffer.length) h h.data
  refine ⟨x, hreads, ?_⟩
  have hfits := hs.fits
  rcases nextLineLoop_spec offer (bufferSize - h.buffer.length) hl hs hoffset hbytes hroom
    (by omega) (fun k hk => by
      have hkn : k = n + l.length + 1 := by
        unfold At at hplace
        omega
      rw [hkn]
      exact hcut) with hfound | ⟨hnone, hshort⟩
  · exact .inl hfound
  · refine .inr ⟨hnone, fun hrest => ?_⟩
    have hahead := hreads.ahead hoffset
    have hlen := congrArg List.length (hahead.trans hbytes)
    unfold nextLine at hrest
    rw [hrest] at hlen
    simp only [List.length_append, List.length_drop, List.length_nil, List.length_cons] at hlen
    omega

/-- Reads leave a head where it is. -/
theorem Ahead.reads {h' : HttpStream C T} {x : List UInt8} (ha : Ahead parser h n ls m post c')
    (hr : ReadsTo h h' x) : Ahead parser h' n ls m post c' where
  sound := hr.sound ha.sound
  place := by
    have := ha.place
    unfold At at *
    rw [hr.buffer, List.length_append, hr.received, hr.data]
    omega
  offset := by
    have := ha.offset
    rw [hr.data, hr.buffer, List.length_append]
    omega
  begun := by rw [hr.conn]; exact ha.begun
  text := ha.text
  takes := by rw [hr.conn, hr.data]; exact ha.takes
  bytes := by rw [hr.data, hr.ahead ha.offset]; exact ha.bytes
  stop := by rw [hr.data]; exact ha.stop
  room := ha.room

theorem receiveLoop_cuts (fuel : ℕ) (h : HttpStream C T) :
    h.cuts ⊆ (receiveLoop parser offer fuel h).1.cuts := by
  induction fuel generalizing h with
  | zero => exact List.Subset.refl _
  | succ fuel ih =>
    obtain ⟨x, hreads⟩ := nextLineLoop_reads offer (bufferSize - h.buffer.length) h h.data
    have hnext : h.cuts ⊆ (h.nextLine offer).1.cuts := hreads.cuts
    have hpass : ∀ (g : HttpStream C T) (c : HttpConnection C T) data, g.cuts ⊆
        (receiveLoop parser offer fuel { g with conn := c, data := data }).1.cuts :=
      fun g c data => ih { g with conn := c, data := data }
    unfold receiveLoop
    split
    case h_1 | h_2 =>
      split
      · rename_i hline
        rw [hline] at hnext
        exact hnext
      · rename_i hline
        rw [hline] at hnext
        split
        · exact List.Subset.trans hnext (hpass _ _ _)
        · exact hnext
        · exact hnext
    case h_3 | h_5 => exact List.Subset.refl _
    case h_4 =>
      split
      · exact List.Subset.refl _
      · refine List.Subset.trans ?_ (ih _)
        show h.cuts ⊆ (h.httpRebuffer _).cuts
        unfold httpRebuffer
        split <;> exact List.Subset.refl _

theorem pass_cuts (g : HttpStream C T) (c : HttpConnection C T) (data : ℕ) :
    g.cuts ⊆ (receiveLoop parser offer fuel { g with conn := c, data := data }).1.cuts :=
  receiveLoop_cuts fuel { g with conn := c, data := data }

theorem taken {a b l post : List UInt8} (h : a ++ b = l ++ 13 :: 10 :: post)
    (hlen : l.length + 2 ≤ a.length) :
    a.take l.length = l ∧ a.drop (l.length + 2) ++ b = post := by
  have htake := congrArg (List.take l.length) h
  have hdrop := congrArg (List.drop (l.length + 2)) h
  rw [List.take_append_of_le_length (by omega), List.take_left] at htake
  rw [List.drop_append_of_le_length hlen,
    show l ++ 13 :: 10 :: post = (l ++ [13, 10]) ++ post by simp, List.drop_left' (by simp)] at hdrop
  exact ⟨htake, hdrop⟩

variable (parser offer fuel) in
theorem receiveLoop_open (hbegun : h.conn.state = .start ∨ h.conn.state = .header) :
    receiveLoop parser offer (fuel + 1) h =
      match h.nextLine offer with
      | (h, none) => (h, .none)
      | (h, some p) =>
        match h.conn.takeLine parser ((h.buffer.drop h.data).take (p - h.data)) (p + 2) with
        | (c, none) => receiveLoop parser offer fuel { h with conn := c, data := p + 2 }
        | (c, some .message) => ({ h with conn := c, data := p + 2 }, .message)
        | (c, some outcome) => ({ h with conn := c }, outcome) := by
  rw [receiveLoop]
  rcases hbegun with hstate | hstate
  · rewrite [hstate]
    rfl
  · rewrite [hstate]
    rfl

variable (parser) in
/-- A pass of the loop of `http_receive` where the line `l` is next. -/
theorem receiveLoop_line (hs : h.Sound) (hplace : h.At n) (hoffset : h.data ≤ h.buffer.length)
    (hbegun : h.conn.state = .start ∨ h.conn.state = .header) (hl : Text l)
    (hbytes : h.buffer.drop h.data ++ h.rest = l ++ 13 :: 10 :: post)
    (hroom : h.data + l.length + 2 < bufferSize)
    (hcut : n + l.length + 1 ∉ (receiveLoop parser offer (fuel + 1) h).1.cuts) :
    ∃ h' x, ReadsTo h h' x ∧
      (receiveLoop parser offer (fuel + 1) h = (h', .none) ∧ h'.rest ≠ [] ∨
        h.data + l.length + 2 ≤ h'.buffer.length ∧
          h'.buffer.drop (h.data + l.length + 2) ++ h'.rest = post ∧
          receiveLoop parser offer (fuel + 1) h =
            match takeLine parser h.conn l (h.data + l.length + 2) with
            | (c, none) =>
              receiveLoop parser offer fuel { h' with conn := c, data := h.data + l.length + 2 }
            | (c, some .message) =>
              ({ h' with conn := c, data := h.data + l.length + 2 }, .message)
            | (c, some outcome) => ({ h' with conn := c }, outcome)) := by
  have hunfold := receiveLoop_open parser offer fuel hbegun
  have hmono : (h.nextLine offer).1.cuts ⊆ (receiveLoop parser offer (fuel + 1) h).1.cuts := by
    rw [hunfold]
    split
    · rename_i hline
      rw [hline]
      exact List.Subset.refl _
    · rename_i hline
      rw [hline]
      split
      · exact pass_cuts _ _ _
      · exact List.Subset.refl _
      · exact List.Subset.refl _
  obtain ⟨x, hreads, hnext⟩ := nextLine_spec offer hs hplace hoffset hl hbytes hroom
    fun hk => hcut (hmono hk)
  refine ⟨(h.nextLine offer).1, x, hreads, ?_⟩
  rcases hnext with ⟨hfound, hlen⟩ | ⟨hnone, hrest⟩
  · right
    have hahead := (hreads.ahead hoffset).trans hbytes
    obtain ⟨htake, hdrop⟩ := taken hahead (by rw [List.length_drop]; omega)
    rw [List.drop_drop, ← Nat.add_assoc] at hdrop
    refine ⟨hlen, hdrop, ?_⟩
    rw [hunfold, show h.nextLine offer = ((h.nextLine offer).1, some (h.data + l.length)) from
      Prod.ext rfl hfound]
    dsimp only
    rw [hreads.conn, hreads.data, Nat.add_sub_cancel_left, htake]
  · left
    refine ⟨?_, hrest⟩
    rw [hunfold, show h.nextLine offer = ((h.nextLine offer).1, none) from Prod.ext rfl hnone]

theorem Ahead.pass {h' : HttpStream C T} {x : List UInt8} {c : HttpConnection C T}
    (ha : Ahead parser h n (l :: ls) m post c') (hr : ReadsTo h h' x)
    (hlen : h.data + l.length + 2 ≤ h'.buffer.length)
    (hbytes : h'.buffer.drop (h.data + l.length + 2) ++ h'.rest = lineText (ls ++ [[]]) ++ post)
    (htake : takeLine parser h.conn l (h.data + l.length + 2) = (c, none))
    (hstate : c.state = .header) :
    Ahead parser { h' with conn := c, data := h.data + l.length + 2 } (n + l.length + 2) ls m post
      c' where
  sound := ⟨(hr.sound ha.sound).fits, (hr.sound ha.sound).bound, (hr.sound ha.sound).marked⟩
  place := by
    have := (ha.reads hr).place
    unfold At at *
    rw [hr.data] at this
    show n + l.length + 2 + h'.buffer.length = h'.received + (h.data + l.length + 2)
    omega
  offset := hlen
  begun := .inr hstate
  text := fun l' hl' => ha.text l' (List.mem_cons_of_mem _ hl')
  takes := by
    have htakes := ha.takes
    rw [List.cons_append, takeLines, htake] at htakes
    exact htakes
  bytes := hbytes
  stop := by
    have hstop := ha.stop
    rw [List.cons_append, length_lineText_cons] at hstop
    show h.data + l.length + 2 + _ = m
    omega
  room := ha.room

/-- **A head in the buffer**: the loop of `http_receive` takes the lines that have come. -/
theorem receiveLoop_ahead (ha : Ahead parser h n ls m post c') (hfuel : ls.length < fuel)
    (hcut : ∀ k ∈ breaks n (ls ++ [[]]), k ∉ (receiveLoop parser offer fuel h).1.cuts) :
    (∃ n' ls', (receiveLoop parser offer fuel h).2 = .none ∧
        Ahead parser (receiveLoop parser offer fuel h).1 n' ls' m post c' ∧
        n' + (lineText (ls' ++ [[]])).length = n + (lineText (ls ++ [[]])).length ∧
        breaks n' (ls' ++ [[]]) ⊆ breaks n (ls ++ [[]]) ∧
        (receiveLoop parser offer fuel h).1.rest ≠ []) ∨
      (receiveLoop parser offer fuel h).2 = .message ∧
        Arrived (receiveLoop parser offer fuel h).1 (n + (lineText (ls ++ [[]])).length) m post
          c' := by
  induction ls generalizing h n fuel with
  | nil =>
    obtain ⟨fuel, rfl⟩ : ∃ k, fuel = k + 1 := ⟨fuel - 1, by rw [List.length_nil] at hfuel; omega⟩
    have hstop := ha.stop
    have hroom := ha.room
    have hlength : (lineText ([] ++ [[]])).length = 2 := rfl
    rw [hlength] at hstop
    have hblank := ha.bytes
    obtain ⟨h', x, hreads, ⟨hnone, hrest⟩ | ⟨hlen, hbytes, hpass⟩⟩ :=
      receiveLoop_line parser (l := []) ha.sound ha.place ha.offset
        ha.begun (by simp [Text]) hblank (by rw [List.length_nil]; omega)
        (hcut _ List.mem_cons_self)
    · left
      rw [hnone]
      exact ⟨n, [], rfl, ha.reads hreads, rfl, List.Subset.refl _, hrest⟩
    · right
      have htakes := ha.takes
      rw [List.nil_append, takeLines] at htakes
      rw [hpass]
      cases htake : takeLine parser h.conn [] (h.data + ([] : CString).length + 2) with
      | mk c outcome =>
        rw [htake] at htakes
        cases outcome with
        | none => exact absurd (Prod.mk.inj htakes).2 (by decide)
        | some outcome =>
          obtain ⟨rfl, rfl⟩ := Prod.mk.inj htakes
          have hplace := (ha.reads hreads).place
          refine ⟨rfl, ⟨?_, ?_, rfl, hstop, ?_, ?_⟩⟩
          · exact ⟨(hreads.sound ha.sound).fits, (hreads.sound ha.sound).bound,
              (hreads.sound ha.sound).marked⟩
          · unfold At at *
            rw [hreads.data] at hplace
            rw [hlength]
            show n + 2 + h'.buffer.length = h'.received + (h.data + 0 + 2)
            omega
          · show m ≤ h'.buffer.length
            rw [← hstop]
            exact hlen
          · rw [← hstop]
            exact hbytes
  | cons l ls ih =>
    obtain ⟨fuel, rfl⟩ : ∃ k, fuel = k + 1 := ⟨fuel - 1, by rw [List.length_cons] at hfuel; omega⟩
    have hstop := ha.stop
    have hroom := ha.room
    rw [List.cons_append, length_lineText_cons] at hstop
    obtain ⟨hne, hl⟩ := ha.text l List.mem_cons_self
    have hline : h.buffer.drop h.data ++ h.rest =
        l ++ 13 :: 10 :: (lineText (ls ++ [[]]) ++ post) := by
      rw [ha.bytes, List.cons_append, lineText_cons, List.append_assoc]
      rfl
    obtain ⟨h', x, hreads, ⟨hnone, hrest⟩ | ⟨hlen, hbytes, hpass⟩⟩ :=
      receiveLoop_line parser ha.sound ha.place ha.offset ha.begun hl hline (by omega)
        (hcut _ List.mem_cons_self)
    · left
      rw [hnone]
      exact ⟨n, l :: ls, rfl, ha.reads hreads, rfl, List.Subset.refl _, hrest⟩
    · rcases takeLine_text parser (h.data + l.length + 2) ha.begun hne with
        ⟨c, htake, hstate⟩ | ⟨c, outcome, htake, hclosed⟩
      · rw [htake] at hpass
        have hnext := ha.pass hreads hlen hbytes htake hstate
        have hbreaks : breaks (n + l.length + 2) (ls ++ [[]]) ⊆ breaks n (l :: ls ++ [[]]) :=
          List.subset_cons_self _ _
        have hend : n + l.length + 2 + (lineText (ls ++ [[]])).length =
            n + (lineText (l :: ls ++ [[]])).length := by
          rw [List.cons_append, length_lineText_cons]
          omega
        rw [hpass] at hcut ⊢
        have hrec := ih hnext (by rw [List.length_cons] at hfuel; omega)
          fun k hk => hcut k (hbreaks hk)
        rw [hend] at hrec
        rcases hrec with ⟨n', ls', hnone, hahead, hsum, hsub, hrest⟩ | harrived
        · exact .inl ⟨n', ls', hnone, hahead, hsum, List.Subset.trans hsub hbreaks, hrest⟩
        · exact .inr harrived
      · have htakes := ha.takes
        rw [List.cons_append, takeLines, htake] at htakes
        exact absurd (Prod.mk.inj htakes).2 hclosed

end HttpStream

/-! ## Responses -/

/-- A response, as the server sends it. -/
structure HttpResponse where
  head : ResponseHead
  body : List UInt8
deriving DecidableEq, Repr

/-- The value of a Content-Length field. -/
def lengthField (f : CString × CString) : Option ℕ :=
  if toLower f.1 = chars
      ['c', 'o', 'n', 't', 'e', 'n', 't', '-', 'l', 'e', 'n', 'g', 't', 'h'] then
    some (decimal ((ows f.2).takeWhile digit))
  else none

/-- The Content-Length of header fields. -/
def declaredLength (fs : List (CString × CString)) : Option ℕ := (fs.filterMap lengthField).getLast?

namespace HttpResponse

/-- The lines of the head but for the empty one. -/
def lines (r : HttpResponse) : List CString := r.head.statusText :: r.head.fields.map fieldText

def headLength (r : HttpResponse) : ℕ := (lineText (r.lines ++ [[]])).length

def bytes (r : HttpResponse) : List UInt8 := lineText (r.lines ++ [[]]) ++ r.body

/-- A response that never has a body. -/
def Bodiless (r : HttpResponse) : Prop :=
  r.head.status ≤ 199 ∨ r.head.status = 204 ∨ r.head.status = 304

instance (r : HttpResponse) : Decidable r.Bodiless := inferInstanceAs (Decidable (_ ∨ _))

/-- A well-formed response with a Content-Length or without a body. -/
structure WellFormed (r : HttpResponse) : Prop where
  head : r.head.WellFormed
  reason : Text r.head.reason
  values : ∀ f ∈ r.head.fields, Text f.2
  length : if r.Bodiless then r.body = [] else declaredLength r.head.fields = some r.body.length

/-- What `http_receive` takes for granted: the header section fits into the buffer, offsets are
of type `int`, and a response that never has a body has no Content-Length but 0. -/
structure Fits (r : HttpResponse) : Prop where
  room : r.headLength < bufferSize
  small : r.body.length + bufferSize ≤ 2 ^ 31
  bodiless : r.Bodiless → (declaredLength r.head.fields).getD 0 = 0

end HttpResponse

namespace HttpConnection
variable {C T : Type} {parser : UriParser T} {c : HttpConnection C T}

/-- The connection behind header fields. -/
def takeFields (parser : UriParser T) (c : HttpConnection C T) (fs : List (CString × CString)) :
    HttpConnection C T :=
  fs.foldl (fun c f => headerField parser c (fieldText f)) c

variable (parser) in
theorem takeFields_same (fs : List (CString × CString)) (c : HttpConnection C T) :
    SameAnswer c (takeFields parser c fs) ∧ (takeFields parser c fs).state = c.state := by
  induction fs generalizing c with
  | nil => exact ⟨.refl c, rfl⟩
  | cons f fs ih =>
    obtain ⟨hsame, hstate⟩ := headerField_same parser c (fieldText f)
    obtain ⟨hsame', hstate'⟩ := ih (headerField parser c (fieldText f))
    exact ⟨hsame.trans hsame', hstate'.trans hstate⟩

theorem headerField_body (c : HttpConnection C T) (data : CString) :
    (headerField parser c data).body = c.body := by
  unfold headerField
  split
  · split
    · rename_i flag _ _
      unfold headerValue
      cases flag with
      | accept | contentType | location => rfl
      | host | connection => dsimp only; split <;> rfl
      | contentLength =>
        dsimp only
        split
        · split <;> rfl
        · rfl
    · rfl
  · rfl

theorem takeFields_body (fs : List (CString × CString)) (c : HttpConnection C T) :
    (takeFields parser c fs).body = c.body := by
  induction fs generalizing c with
  | nil => rfl
  | cons f fs ih => exact (ih _).trans (headerField_body c (fieldText f))

theorem takeFields_error {fs : List (CString × CString)} (hfs : ∀ f ∈ fs, FieldOk f) :
    (takeFields parser c fs).error = c.error := by
  induction fs generalizing c with
  | nil => rfl
  | cons f fs ih =>
    obtain ⟨hf, hfs⟩ := List.forall_mem_cons.mp hfs
    exact (ih hfs).trans (headerField_error hf)

/-- Header fields and the empty line behind them. -/
theorem takeLines_fold {fs : List (CString × CString)} {next : ℕ} (hfs : ∀ f ∈ fs, FieldOk f)
    (hstate : c.state = .header) :
    takeLines parser c next (fs.map fieldText ++ [[]]) =
      (takeFields parser c fs).endOfHeaders
        (next + (lineText (fs.map fieldText ++ [[]])).length) := by
  induction fs generalizing c next with
  | nil =>
    have htake : takeLine parser c [] (next + 0 + 2) =
        ((c.endOfHeaders (next + 0 + 2)).1, some (c.endOfHeaders (next + 0 + 2)).2) := by
      unfold takeLine
      rw [hstate]
    rw [List.map_nil, List.nil_append, takeLines, List.length_nil, htake]
    rfl
  | cons f fs ih =>
    obtain ⟨hf, hfs⟩ := List.forall_mem_cons.mp hfs
    have hheader := (headerField_same parser c (fieldText f)).2.trans hstate
    rw [List.map_cons, List.cons_append, takeLines, takeLine_field hstate hf]
    dsimp only
    rw [ih hfs hheader, length_lineText_cons]
    congr 1
    omega

theorem le_decimal (ds : CString) (y : ℕ) :
    y ≤ ds.foldl (fun y c => y * 10 + (c.toNat - 48)) y := by
  induction ds generalizing y with
  | nil => exact Nat.le_refl _
  | cons c ds ih =>
    exact Nat.le_trans (by omega) (ih (y * 10 + (c.toNat - 48)))

/-- `number` on digits that are worth an `int`. -/
theorem number_decimal {ds : CString} (hd : ∀ c ∈ ds, digit c = true) (y : ℕ)
    (hlt : ds.foldl (fun y c => y * 10 + (c.toNat - 48)) y < 2 ^ 31) :
    ds.foldl (fun y c => toInt32 (y * 10 + (c.toNat - 48))) (y : ℤ) =
      ((ds.foldl (fun y c => y * 10 + (c.toNat - 48)) y : ℕ) : ℤ) := by
  induction ds generalizing y with
  | nil => rfl
  | cons c ds ih =>
    have hle := le_decimal ds (y * 10 + (c.toNat - 48))
    have hc : 48 ≤ c.toNat := by
      have hdigit := hd c List.mem_cons_self
      unfold digit at hdigit
      exact UInt8.le_iff_toNat_le.mp (of_decide_eq_true hdigit).1
    have hstep : (y : ℤ) * 10 + ((c.toNat : ℤ) - 48) = ((y * 10 + (c.toNat - 48) : ℕ) : ℤ) := by
      omega
    rw [List.foldl_cons] at hlt ⊢
    rw [hstep, toInt32_of_lt (Nat.lt_of_le_of_lt hle hlt),
      ih (fun c hc => hd c (List.mem_cons_of_mem _ hc)) _ hlt]
    rfl

theorem tokenColon_field {f : CString × CString} (hf : FieldOk f) :
    tokenColon (fieldText f) = some (f.1, ows f.2) := by
  refine tokenTo_append (fun ch hch => ?_) (by decide)
  have htchar := hf.name.2 ch hch
  rw [decide_eq_false_iff_not]
  rintro rfl
  exact absurd htchar (by decide)

variable (parser) in
/-- What a header field does to the Content-Length. -/
theorem headerField_length {f : CString × CString} (hf : FieldOk f) :
    (∀ n, lengthField f = some n → .contentLength ∈ (headerField parser c (fieldText f)).header ∧
        (n < 2 ^ 31 → (headerField parser c (fieldText f)).ends = n)) ∧
      (lengthField f = none → (headerField parser c (fieldText f)).ends = c.ends ∧
        (.contentLength ∈ (headerField parser c (fieldText f)).header ↔
          .contentLength ∈ c.header)) := by
  unfold headerField
  rw [tokenColon_field hf]
  dsimp only
  split
  · rename_i flag name hfind
    have hmem := List.mem_of_find?_eq_some hfind
    have hlow : name = toLower f.1 := by simpa using List.find?_some hfind
    subst hlow
    by_cases hflag : flag = .contentLength
    · subst hflag
      have hname : toLower f.1 = chars
          ['c', 'o', 'n', 't', 'e', 'n', 't', '-', 'l', 'e', 'n', 'g', 't', 'h'] := by
        simpa [headerNames] using hmem
      obtain ⟨hdigits, hrest⟩ := hf.length hname
      have hvalue : lengthField f = some (decimal ((ows f.2).takeWhile digit)) := if_pos hname
      rw [hvalue]
      refine ⟨?_, fun h => absurd h (Option.some_ne_none _)⟩
      rintro n hn
      obtain rfl := Option.some.inj hn
      have hnumber : number (ows f.2) = some
          (((ows f.2).takeWhile digit).foldl (fun y c => toInt32 (y * 10 + (c.toNat - 48))) 0,
            (ows f.2).dropWhile digit) := by
        unfold number
        split
        · rename_i hnil
          exact absurd hnil hdigits
        · rfl
      unfold headerValue
      dsimp only
      rw [hnumber]
      dsimp only
      rw [if_pos hrest]
      refine ⟨List.mem_cons_self, fun hlt => ?_⟩
      exact number_decimal (fun ch hch => List.mem_takeWhile_imp hch) 0 hlt
    · have hname : lengthField f = none := by
        refine if_neg fun hname => hflag ?_
        rw [hname] at hmem
        simpa [headerNames, chars] using hmem
      rw [hname]
      refine ⟨fun n h => absurd h.symm (Option.some_ne_none _), fun _ => ?_⟩
      unfold headerValue
      cases flag with
      | contentLength => exact absurd rfl hflag
      | accept | contentType | location => exact ⟨rfl, by simp⟩
      | host | connection => dsimp only; split <;> exact ⟨rfl, by simp⟩
  · rename_i hfind
    have hname : lengthField f = none := by
      refine if_neg fun hname => ?_
      have hnone := List.find?_eq_none.mp hfind (.contentLength, toLower f.1) (by
        rw [hname]
        simp [headerNames])
      exact hnone (by simp)
    rw [hname]
    exact ⟨fun n h => absurd h.symm (Option.some_ne_none _), fun _ => ⟨rfl, Iff.rfl⟩⟩

variable (parser) in
/-- What header fields do to the Content-Length. -/
theorem takeFields_length {fs : List (CString × CString)} (hfs : ∀ f ∈ fs, FieldOk f)
    (hends : c.ends = 0) (hheader : c.header = []) :
    (∀ n, declaredLength fs = some n → .contentLength ∈ (takeFields parser c fs).header ∧
        (n < 2 ^ 31 → (takeFields parser c fs).ends = n)) ∧
      (declaredLength fs = none → (takeFields parser c fs).ends = 0 ∧
        .contentLength ∉ (takeFields parser c fs).header) := by
  induction fs using List.reverseRecOn with
  | nil => exact ⟨(fun n h => nomatch h), fun _ => ⟨hends, by simp [takeFields, hheader]⟩⟩
  | append_singleton fs f ih =>
    obtain ⟨hsome, hnone⟩ := ih fun g hg => hfs g (List.mem_append_left _ hg)
    obtain ⟨hsome', hnone'⟩ := headerField_length parser
      (c := takeFields parser c fs) (hfs f (by simp))
    have hfold : takeFields parser c (fs ++ [f]) =
        headerField parser (takeFields parser c fs) (fieldText f) := by
      rw [takeFields, List.foldl_append]
      rfl
    rw [hfold]
    cases hlength : lengthField f with
    | some n =>
      have hlast : declaredLength (fs ++ [f]) = some n := by
        simp [declaredLength, List.filterMap_append, hlength]
      rw [hlast]
      refine ⟨?_, (fun h => nomatch h)⟩
      rintro n' hn
      obtain rfl := Option.some.inj hn
      exact hsome' n hlength
    | none =>
      have hlast : declaredLength (fs ++ [f]) = declaredLength fs := by
        simp [declaredLength, List.filterMap_append, hlength]
      obtain ⟨hends', hheader'⟩ := hnone' hlength
      rw [hlast, hends', hheader']
      exact ⟨hsome, hnone⟩

variable {r : HttpResponse} {q : QueuedRequest C} {qs : List (QueuedRequest C)} {uri : T}

variable (parser) in
/-- **A response**: its status line takes a request, and its body is where it is. -/
theorem takeLines_response (hwell : r.WellFormed) (hfits : r.Fits) (hclient : c.client = true)
    (hstate : c.state = .start) (hreq : c.request = q :: qs)
    (huri : requestTarget parser q.uri = some uri) :
    ∃ c', takeLines parser c 0 (r.lines ++ [[]]) = (c', .message) ∧ c'.client = true ∧
      c'.request = qs ∧ c'.ends = r.headLength + r.body.length ∧
      (r.body = [] ∧ c'.state = .complete ∧ c'.body = false ∨
        r.body ≠ [] ∧ c'.state = .data ∧ c'.body = true) := by
  let d : HttpConnection C T := { c.reset with
    state := .header
    status := r.head.status
    request := qs
    uri := some uri
    context := q.context
    method := .response
    requestMethod := some q.method }
  have htake : takeLine parser c r.head.statusText (0 + r.head.statusText.length + 2) =
      (d, none) := by
    have hline := statusLine_spec (c := c.reset) hwell.head.low hwell.head.high hreq huri
    unfold takeLine
    rw [hstate]
    split
    · rename_i hnil
      exact absurd hnil (by simp [statusText, httpVersion, chars])
    · rw [if_pos hclient, hline]
    all_goals contradiction
  obtain ⟨hsame, -⟩ := takeFields_same parser r.head.fields d
  have herror : (takeFields parser d r.head.fields).error = 0 := takeFields_error hwell.head.fields
  obtain ⟨hsome, hnone⟩ := takeFields_length parser (c := d) hwell.head.fields rfl rfl
  have hlines : takeLines parser c 0 (r.lines ++ [[]]) =
      (takeFields parser d r.head.fields).endOfHeaders r.headLength := by
    rw [HttpResponse.lines, List.cons_append, takeLines, htake]
    dsimp only
    rw [takeLines_fold hwell.head.fields rfl, HttpResponse.headLength, HttpResponse.lines,
      List.cons_append, length_lineText_cons]
    congr 1
    omega
  have hempty : (takeFields parser d r.head.fields).noBody = decide (r.body = []) ∧
      (takeFields parser d r.head.fields).ends = r.body.length := by
    have hcode : (takeFields parser d r.head.fields).noBody =
        decide ((.contentLength ∈ (takeFields parser d r.head.fields).header ∧
          (takeFields parser d r.head.fields).ends = 0) ∨ r.Bodiless) := by
      have hlow := hwell.head.low
      have hrange : ((100 : ℤ) ≤ r.head.status ∧ (r.head.status : ℤ) ≤ 199) ↔
          r.head.status ≤ 199 := by omega
      have h204 : (r.head.status : ℤ) = 204 ↔ r.head.status = 204 := by omega
      have h304 : (r.head.status : ℤ) = 304 ↔ r.head.status = 304 := by omega
      have hmethod : (takeFields parser d r.head.fields).method = .response := hsame.method
      have hstatus : (takeFields parser d r.head.fields).status = r.head.status := hsame.status
      unfold noBody HttpResponse.Bodiless
      rw [hmethod, hstatus]
      simp only [decide_eq_decide, hrange, h204, h304]
    have hlength := hwell.length
    split at hlength
    · rename_i hbodiless
      rw [hcode, hlength]
      refine ⟨by simp [hbodiless], ?_⟩
      have hzero := hfits.bodiless hbodiless
      cases hdeclared : declaredLength r.head.fields with
      | none => exact (hnone hdeclared).1
      | some n =>
        rw [hdeclared] at hzero
        exact (hsome n hdeclared).2 (by rw [show n = 0 from hzero]; decide) |>.trans
          (by rw [show n = 0 from hzero]; rfl)
    · rename_i hbodiless
      obtain ⟨hflag, hends⟩ := hsome _ hlength
      have hends := hends (by have := hfits.small; unfold bufferSize at this; omega)
      refine ⟨?_, hends⟩
      rw [hcode, hends, decide_eq_decide]
      simp [hflag, hbodiless]
  obtain ⟨hnobody, hends⟩ := hempty
  rw [hlines]
  unfold endOfHeaders
  rw [if_neg (fun h => h herror)]
  dsimp only
  rw [hnobody]
  have hsum : (takeFields parser d r.head.fields).ends + (r.headLength : ℤ) =
      r.headLength + r.body.length := by
    rw [hends]
    omega
  by_cases hbody : r.body = []
  · rw [if_pos (by simp [hbody])]
    exact ⟨_, rfl, hsame.client.trans hclient, hsame.request, hsum, .inl ⟨hbody, rfl, rfl⟩⟩
  · rw [if_neg (by simp [hbody])]
    exact ⟨_, rfl, hsame.client.trans hclient, hsame.request, hsum,
      .inr ⟨hbody, rfl, takeFields_body _ _⟩⟩

end HttpConnection
end SeClient
