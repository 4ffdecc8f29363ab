import SeClient.Divisions
import SeClient.Passes
import Mathlib.Data.List.Forall2

/-!
# Documents of a connection

`se_receive` over a document parser: HTTP finds the end of a body by its Content-Length, the
parser finds the end of the document, and both use the same buffer, into which the parser writes.
The parser is a parameter; `exiDocuments` is the one of EXI.

**Framing** (`framed`): each response is returned once, with the object that the parser makes of
its body, as long as the reads do not pause between the end of a document and the end of its body.
-/

namespace SeClient
open Transition
open HttpConnection ResponseHead HttpStream

/-- What a call of `parse_doc` leaves: the data as the parser has written over them, `p->ptr` as a
place in them (none where it is NULL or a literal), and the document. -/
structure ParseCall (P Obj : Type) where
  parser : P
  data : List UInt8
  ptr : Option ℕ
  doc : Option Obj
deriving DecidableEq, Repr

/-- A parser of documents: `se_parse_init` for a Content-Type, and `parse_doc` on the data that
`parser_rebuffer` gives it, none where it does not return. -/
structure DocParser (P Obj : Type) where
  init : Option CString → Option P
  parse : P → List UInt8 → Option (ParseCall P Obj)
  length_data : ∀ {p data r}, parse p data = some r → r.data.length = data.length

/-- `p->ptr`, if it is a place that `http_rebuffer` can begin with. -/
def ParseCall.place {P Obj : Type} (r : ParseCall P Obj) : Option ℕ :=
  r.ptr.filter (· ≤ r.data.length)

theorem ParseCall.place_le {P Obj : Type} {r : ParseCall P Obj} {k : ℕ} (h : r.place = some k) :
    k ≤ r.data.length :=
  of_decide_eq_true (Option.filter_eq_some_iff.mp h).2

/-- The data with what has been written over them. -/
def HttpStream.overwrite {C T : Type} (h : HttpStream C T) (data : List UInt8) : HttpStream C T :=
  { h with buffer := h.buffer.take h.data ++ data ++ h.buffer.drop (h.data + data.length) }

/-- An `SeConnection`: the state is SE_START, or SE_DATA with a parser.  The history: the places of
the stream where `http_data` had no more, and the body was not complete. -/
structure SeConnection (C T P : Type) where
  http : HttpStream C T
  state : Option P := none
  pauses : List ℕ := []

/-- What `se_receive` returns: the method with an object or none, SE_INCOMPLETE or SE_ERROR.  It
strays when `parse_doc` does not return, or when `http_rebuffer` gets no place in the buffer. -/
inductive SeOutcome (Obj : Type)
  | returned (obj : Option Obj)
  | incomplete
  | error
  | stray
deriving DecidableEq, Repr

namespace SeConnection
variable {C T P Obj : Type} (D : DocParser P Obj) (parser : UriParser T) (offer : ℕ → ℕ)
  (closed : ℕ → Bool)

/-- A pass of the loop of `se_receive` in SE_DATA. -/
def dataPass (s : SeConnection C T P × P) :
    (SeConnection C T P × P) ⊕ (SeConnection C T P × SeOutcome Obj) :=
  match s.1.http.httpData offer closed with
  | (h, none) => .inr ({ s.1 with http := h, state := some s.2 }, .incomplete)
  | (h, some data) =>
    let pauses := if h.httpComplete then s.1.pauses else h.received :: s.1.pauses
    match D.parse s.2 data with
    | none => .inr (⟨h, some s.2, pauses⟩, .stray)
    | some r =>
      let written := h.overwrite r.data
      match r.doc with
      | some obj => .inr (⟨written, none, pauses⟩, .returned (some obj))
      | none =>
        if h.httpComplete then
          .inr (⟨{ written with conn := h.conn.httpClose }, some r.parser, pauses⟩, .error)
        else
          match r.place with
          | none => .inr (⟨written, some r.parser, pauses⟩, .stray)
          | some k => .inl (⟨written.httpRebuffer (h.data + k), none, pauses⟩, r.parser)

/-- `se_receive`; `none` when its loop has not been left after `fuel` passes. -/
def seReceive (fuel : ℕ) (s : SeConnection C T P) : Option (SeConnection C T P × SeOutcome Obj) :=
  match s.http.httpReceive parser offer with
  | (h, .none) => some ({ s with http := h }, .incomplete)
  | (h, .error) => some ({ s with http := h }, .error)
  | (h, .message) =>
    match s.state with
    | some p => Passes.loop (dataPass D offer closed) fuel ({ s with http := h }, p)
    | none =>
      if h.conn.body then
        match D.init h.conn.contentType with
        | some p => Passes.loop (dataPass D offer closed) fuel ({ s with http := h }, p)
        | none => some ({ s with http := { h with conn := h.conn.httpClose } }, .error)
      else some ({ s with http := h }, .returned none)

end SeConnection

/-! ## Replies -/

section Replies
variable {C T P Obj : Type} (D : DocParser P Obj) (parser : UriParser T)

/-- The messages of responses with their bodies. -/
def replies (c : HttpConnection C T) : List HttpResponse → List (Message C T × List UInt8)
  | [] => []
  | r :: rs =>
    let c' := c.answered parser r
    (c'.message, r.body) :: if c'.close then [] else replies c' rs

/-- A reply in the stream. -/
def flat (ms : List (Message C T × List UInt8)) : List (Message C T ⊕ UInt8) :=
  ms.flatMap fun m => .inl m.1 :: m.2.map .inr

/-- Pieces of a body lead the parser on; what it leaves of a piece comes again with the next one. -/
inductive Fed (p : P) (body : List UInt8) : P → List UInt8 → Prop
  | start : Fed p body p body
  | piece {p' : P} {left : List UInt8} {n k : ℕ} {r : ParseCall P Obj} :
      Fed p body p' left → n < left.length → D.parse p' (left.take n) = some r →
      r.doc = none → r.place = some k → Fed p body r.parser ((r.data ++ left.drop n).drop k)

/-- The parser does not go on behind the first `j` bytes of a body: the document has ended, or the
parser has no place for what comes next. -/
def Halts (p : P) (body : List UInt8) (j : ℕ) : Prop :=
  ∃ p' left n, Fed D p body p' left ∧ n < left.length ∧ j + left.length = body.length + n ∧
    ∀ r, D.parse p' (left.take n) = some r → r.doc = none → r.place = none

/-- The parser makes the object of the body, in some pieces. -/
def Makes (p : P) (body : List UInt8) (obj : Obj) : Prop :=
  ∃ p' left r, Fed D p body p' left ∧ D.parse p' left = some r ∧ r.doc = some obj

/-- The parser makes an object of the body, whatever the pieces are. -/
def Whole (p : P) (body : List UInt8) : Prop :=
  ∀ p' left, Fed D p body p' left → ∃ r obj, D.parse p' left = some r ∧ r.doc = some obj

/-- The object of a reply: it has been parsed from the body, if there is one. -/
def Owned (m : Message C T × List UInt8) (obj : Option Obj) : Prop :=
  if m.2 = [] then obj = none
  else ∃ o p, obj = some o ∧ D.init m.1.contentType = some p ∧ Makes D p m.2 o

end Replies

section Loop
variable {C T P Obj : Type} {D : DocParser P Obj} {parser : UriParser T} {offer : ℕ → ℕ}
  {closed : ℕ → Bool} {s s' : SeConnection C T P} {p p₀ : P} {fuel : ℕ} {body body₀ : List UInt8}
  {rs : List HttpResponse} {todo : List (Message C T ⊕ UInt8)} {cuts : List ℕ}

/-- Nothing of a body is next. -/
def Fresh (todo : List (Message C T ⊕ UInt8)) : Prop := ∀ b, todo.head? ≠ some (.inr b)

theorem fresh_expected (c : HttpConnection C T) (rs : List HttpResponse) :
    Fresh (expected parser c rs) := by
  cases rs <;> exact fun b h => nomatch h

theorem fresh_flat (ms : List (Message C T × List UInt8)) : Fresh (flat ms) := by
  cases ms <;> exact fun b h => nomatch h

/-- The bytes of a body end where nothing of a body is next. -/
theorem body_unique {b b' : List UInt8} {xs ys : List (Message C T ⊕ UInt8)} (hx : Fresh xs)
    (hy : Fresh ys) (h : b.map .inr ++ xs = b'.map .inr ++ ys) : b = b' ∧ xs = ys := by
  induction b generalizing b' with
  | nil =>
    cases b' with
    | nil => exact ⟨rfl, h⟩
    | cons c b' => exact absurd (congrArg List.head? h) (hx c)
  | cons c b ih =>
    cases b' with
    | nil => exact absurd (congrArg List.head? h).symm (hy c)
    | cons c' b' =>
      obtain ⟨hc, hb⟩ := List.cons.inj h
      obtain ⟨rfl, hxs⟩ := ih hb
      exact ⟨by rw [Sum.inr.inj hc], hxs⟩

open SeConnection

theorem httpRebuffer_keeps (n : ℕ) (h : HttpStream C T) :
    (h.httpRebuffer n).conn.state = h.conn.state ∧ (h.httpRebuffer n).conn.close = h.conn.close ∧
      (h.httpRebuffer n).conn.message = h.conn.message ∧ (h.httpRebuffer n).rest = h.rest ∧
      (h.httpRebuffer n).reads = h.reads ∧ (h.httpRebuffer n).received = h.received ∧
      (h.httpRebuffer n).cuts = h.cuts := by
  unfold httpRebuffer
  split <;> exact ⟨rfl, rfl, rfl, rfl, rfl, rfl, rfl⟩

theorem httpRebuffer_data {h : HttpStream C T} {n : ℕ} (hn : h.data ≤ n) :
    (h.httpRebuffer n).data = 0 := by
  unfold httpRebuffer
  split
  · rename_i hzero
    rw [hzero] at hn
    exact Nat.le_zero.mp hn
  · rfl

/-! ### What the parser writes -/

section Overwrite
variable {h : HttpStream C T} {d : List UInt8}

theorem length_overwrite (hd : h.data + d.length ≤ h.buffer.length) :
    (h.overwrite d).buffer.length = h.buffer.length := by
  simp only [overwrite, List.length_append, List.length_take, List.length_drop]
  omega

theorem overwrite_drop (hd : h.data + d.length ≤ h.buffer.length) :
    (h.overwrite d).buffer.drop h.data = d ++ h.buffer.drop (h.data + d.length) := by
  have htake : (h.buffer.take h.data).length = h.data := List.length_take_of_le (by omega)
  rw [overwrite, List.append_assoc, List.drop_append_of_le_length htake.ge,
    List.drop_eq_nil_of_le htake.le, List.nil_append]

theorem overwrite_behind {e : ℕ} (hd : h.data + d.length ≤ h.buffer.length)
    (he : h.data + d.length ≤ e) : (h.overwrite d).buffer.drop e = h.buffer.drop e := by
  obtain ⟨n, rfl⟩ := Nat.exists_eq_add_of_le he
  have hdrop := congrArg (List.drop (d.length + n)) (overwrite_drop hd)
  rw [List.drop_append, List.drop_eq_nil_of_le (Nat.le_add_right _ _), List.nil_append,
    Nat.add_sub_cancel_left, List.drop_drop, List.drop_drop, ← Nat.add_assoc] at hdrop
  exact hdrop

theorem sound_overwrite (hs : h.Sound) (hd : h.data + d.length ≤ h.buffer.length) :
    (h.overwrite d).Sound :=
  ⟨by rw [length_overwrite hd]; exact hs.fits, by rw [length_overwrite hd]; exact hs.bound,
    hs.marked⟩

/-- The parser writes over what has come of a body. -/
theorem HttpStream.Expecting.overwrite (he : Expecting parser h rs todo cuts)
    (hstate : h.conn.state = .data) (hopen : h.conn.close = false)
    (hd : h.data + d.length = h.buffer.length) (hwaits : h.buffer.length < h.conn.ends) :
    ∃ todo', Expecting parser (h.overwrite d) rs (d.map .inr ++ todo') cuts ∧
      todo = (h.buffer.drop h.data).map .inr ++ todo' := by
  cases he with
  | head ha =>
    rcases ha.begun with hbegun | hbegun <;> rw [hbegun] at hstate <;> exact nomatch hstate
  | complete hcomplete => rw [hcomplete] at hstate; exact nomatch hstate
  | idle hstart => rw [hstart] at hstate; exact nomatch hstate
  | closing hclose | lasting _ hclose => rw [hclose] at hopen; exact nomatch hopen
  | @data n body _ _ _ hs hplace hoffset hbytes hends hpos hready =>
    obtain ⟨htake, hall⟩ := body_held hbytes hends hwaits hd.le
    have hlength := length_overwrite hd.le
    have hbehind := overwrite_drop hd.le
    rw [hd, List.drop_length] at hall hbehind
    rw [List.nil_append] at hall
    rw [List.append_nil] at hbehind
    have hlong : d.length ≤ body.length := by omega
    refine ⟨(body.drop d.length).map .inr ++ expected parser h.conn rs, ?_, ?_⟩
    · rw [← List.append_assoc, ← List.map_append]
      have hcuts : n + body.length = n + (d ++ body.drop d.length).length := by
        rw [List.length_append, List.length_drop]
        omega
      rw [hcuts]
      refine .data hstate hopen (sound_overwrite hs hd.le) ?_ ?_ ?_ ?_ hpos hready
      · unfold At at *
        rw [hlength]
        exact hplace
      · rw [hlength]
        exact hoffset
      · show (h.overwrite d).buffer.drop h.data ++ h.rest = _
        rw [hbehind, hall, List.append_assoc]
      · rw [List.length_append, List.length_drop]
        show h.conn.ends = (h.data : ℤ) + _
        omega
    · have hwhole : (h.buffer.drop h.data).take d.length = h.buffer.drop h.data := by
        rw [List.take_of_length_le]
        rw [List.length_drop]
        omega
      rw [hwhole] at htake
      rw [htake, ← List.append_assoc, ← List.map_append, List.take_append_drop]

/-- The parser writes over a body that is complete. -/
theorem HttpStream.Expecting.overwrite_complete (he : Expecting parser h rs todo cuts)
    (hstate : h.conn.state = .complete) (hopen : h.conn.close = false)
    (hd : h.data + d.length ≤ h.conn.ends.toNat) :
    Expecting parser (h.overwrite d) rs todo cuts := by
  cases he with
  | head ha =>
    rcases ha.begun with hbegun | hbegun <;> rw [hbegun] at hstate <;> exact nomatch hstate
  | data hdata | lasting hdata => rw [hdata] at hstate; exact nomatch hstate
  | idle hstart => rw [hstart] at hstate; exact nomatch hstate
  | closing hclose => rw [hclose] at hopen; exact nomatch hopen
  | @complete n e _ _ _ hs hends hpos hlong hplace hbytes hready =>
    have hin : h.data + d.length ≤ h.buffer.length := by omega
    have hlength := length_overwrite hin
    refine .complete hstate hopen (sound_overwrite hs hin) hends hpos ?_ ?_ ?_ hready
    · rw [hlength]
      exact hlong
    · rw [hlength]
      exact hplace
    · rw [overwrite_behind hin (by omega)]
      exact hbytes

end Overwrite

/-- What `http_data` gives of a body: the rest of it, or a part, over which the parser writes. -/
theorem HttpStream.Expecting.given {h h' : HttpStream C T} {data : List UInt8}
    (he : Expecting parser h rs (body.map .inr ++ todo) cuts) (hstate : h.conn.state = .data)
    (hopen : h.conn.close = false) (hfresh : Fresh todo)
    (hdata : h.httpData offer closed = (h', some data)) :
    h'.conn.message = h.conn.message ∧ h.Sound ∧
      ((h'.conn.state = .complete ∧ h'.httpComplete = true ∧ data = body ∧
          ∀ d : List UInt8, d.length = data.length →
            Expecting parser (h'.overwrite d) rs todo cuts) ∨
        (h'.conn.state = .data ∧ h'.conn.close = false ∧ h'.httpComplete = false ∧ h'.rest ≠ [] ∧
          data.length = h'.buffer.length - h'.data ∧ data.length < body.length ∧
          data = body.take data.length ∧
          h'.rest.length + data.length = body.length + (stream rs).length ∧
          ∀ d : List UInt8, d.length = data.length → ∀ k ≤ d.length,
            Expecting parser ((h'.overwrite d).httpRebuffer (h'.data + k)) rs
              (((d ++ body.drop data.length).drop k).map .inr ++ todo) cuts)) := by
  have hwhole := he
  generalize hfull : body.map .inr ++ todo = full at he
  cases he with
  | head ha =>
    rcases ha.begun with hbegun | hbegun <;> rw [hbegun] at hstate <;> exact nomatch hstate
  | complete hcomplete => rw [hcomplete] at hstate; exact nomatch hstate
  | idle hstart => rw [hstart] at hstate; exact nomatch hstate
  | closing hclose | lasting _ hclose => rw [hclose] at hopen; exact nomatch hopen
  | @data n body' _ _ _ hs hplace hoffset hbytes hends hpos hready =>
    obtain ⟨rfl, -⟩ := body_unique hfresh (fresh_expected _ _) hfull
    obtain ⟨g, x, hreads, ⟨rfl, rfl, hlong, hrest⟩ | ⟨hpart, rfl, hshort, hrest, hheld, hleft⟩⟩ :=
      httpData_spec hstate hopen hs hoffset hbytes hends hdata
    · -- The body is complete with these data.
      have hsame := hreads.data
      obtain ⟨todo', he', htodo⟩ := hwhole.body hstate
        (fun hclose => nomatch hopen.symm.trans hclose) hdata rfl
      obtain rfl := List.append_cancel_left htodo
      refine ⟨rfl, hs, .inl ⟨rfl, ?_, rfl, fun d hd => ?_⟩⟩
      · unfold httpComplete
        dsimp only
        rw [hends]
        exact decide_eq_true (.inr (by omega))
      · refine he'.overwrite_complete rfl hopen ?_
        show g.data + d.length ≤ h.conn.ends.toNat
        omega
    · -- More of the body is to come.
      have hmore : h'.conn.state = .data := by rw [hreads.conn]; exact hstate
      obtain ⟨he', -, hdata', hconn, hoffset', hwaits⟩ := hwhole.read hstate hopen hdata hmore
      have hlength : data.length = h'.buffer.length - h'.data := by rw [hdata', List.length_drop]
      have hdrop := congrArg List.length hleft
      rw [List.length_append, List.length_drop] at hdrop
      rw [hconn, hends] at hwaits
      have hsame := hreads.data
      have hlt : data.length < body.length := by omega
      have htake : data = body.take data.length := by
        rw [hlength, hsame]
        exact hpart
      refine ⟨by rw [hconn], hs, .inr ⟨hmore, by rw [hconn]; exact hopen, ?_, hrest, hlength, hlt,
        htake, by omega, fun d hd k hk => ?_⟩⟩
      · unfold httpComplete
        rw [hconn, hstate, hends]
        exact decide_eq_false (by simp only [reduceCtorEq, false_or]; omega)
      · have hwaits' : h'.buffer.length < h'.conn.ends := by
          rw [hconn, hends]
          exact hwaits
        obtain ⟨todo', hover, htodo⟩ := he'.overwrite (d := d) hmore
          (by rw [hconn]; exact hopen) (by omega) hwaits'
        have hsplit : body.map Sum.inr = data.map Sum.inr ++
            ((body.drop data.length).map Sum.inr : List (Message C T ⊕ UInt8)) := by
          conv_lhs => rw [← List.take_append_drop data.length body, ← htake]
          rw [List.map_append]
        rw [← hdata', hsplit, List.append_assoc] at htodo
        obtain rfl := List.append_cancel_left htodo
        have hin : h'.data + d.length ≤ h'.buffer.length := by omega
        have hopen' : (h'.overwrite d).conn.close = false := by
          show h'.conn.close = false
          rw [hconn]
          exact hopen
        have hplace' : (h'.overwrite d).data + k ≤ (h'.overwrite d).buffer.length := by
          show h'.data + k ≤ _
          rw [length_overwrite hin]
          omega
        obtain ⟨todo'', hpass, htodo'⟩ := hover.pass (k := k) hmore
          hopen' hplace' (by rw [length_overwrite hin]; exact hwaits')
        have hbuffer : ((h'.overwrite d).buffer.drop (h'.overwrite d).data).take k = d.take k := by
          show ((h'.overwrite d).buffer.drop h'.data).take k = _
          rw [overwrite_drop hin, List.take_append_of_le_length hk]
        have hmap : d.map Sum.inr = (d.take k).map Sum.inr ++
            ((d.drop k).map Sum.inr : List (Message C T ⊕ UInt8)) := by
          rw [← List.map_append, List.take_append_drop]
        rw [hbuffer, hmap, List.append_assoc] at htodo'
        rw [List.drop_append_of_le_length hk, List.map_append, List.append_assoc,
          List.append_cancel_left htodo']
        exact hpass

/-! ### The loop -/

/-- What only grows while the connection is read. -/
structure Later (s s' : SeConnection C T P) : Prop where
  pauses : s.pauses ⊆ s'.pauses
  cuts : s.http.cuts ⊆ s'.http.cuts
  count : s'.http.received + s'.http.rest.length = s.http.received + s.http.rest.length

theorem Later.trans {s'' : SeConnection C T P} (h : Later s s') (h' : Later s' s'') : Later s s'' :=
  ⟨List.Subset.trans h.pauses h'.pauses, List.Subset.trans h.cuts h'.cuts,
    h'.count.trans h.count⟩

/-- Where a pass leads. -/
def passed : (SeConnection C T P × P) ⊕ (SeConnection C T P × SeOutcome Obj) → SeConnection C T P
  | .inl x => x.1
  | .inr r => r.1

variable (D offer closed) in
theorem dataPass_later (x : SeConnection C T P × P) :
    Later x.1 (passed (dataPass D offer closed x)) := by
  unfold dataPass
  rcases hdata : x.1.http.httpData offer closed with ⟨h, _ | data⟩
  · unfold httpData at hdata
    split at hdata
    · exact nomatch (Prod.mk.inj hdata).2
    · obtain ⟨rfl, -⟩ := Prod.mk.inj hdata
      exact ⟨List.Subset.refl _, List.Subset.refl _, rfl⟩
  · obtain ⟨y, hreads⟩ := httpData_reads hdata
    have hpauses :
        x.1.pauses ⊆ if h.httpComplete then x.1.pauses else h.received :: x.1.pauses := by
      split
      · exact List.Subset.refl _
      · exact List.subset_cons_self _ _
    have hcount : h.received + h.rest.length = x.1.http.received + x.1.http.rest.length := by
      have hreceived : h.received = x.1.http.received + y.length := hreads.received
      have hrest := congrArg List.length hreads.rest
      rw [List.length_append] at hrest
      dsimp only at hrest
      omega
    dsimp only
    generalize (if h.httpComplete = true then x.1.pauses else h.received :: x.1.pauses) = pauses
      at hpauses ⊢
    split
    · exact ⟨hpauses, hreads.cuts, hcount⟩
    · rename_i r hparse
      split
      · exact ⟨hpauses, hreads.cuts, hcount⟩
      · split
        · exact ⟨hpauses, hreads.cuts, hcount⟩
        · split
          · exact ⟨hpauses, hreads.cuts, hcount⟩
          · rename_i k hplace
            obtain ⟨-, -, -, hrest, -, hreceived, hcuts⟩ :=
              httpRebuffer_keeps (h.data + k) (h.overwrite r.data)
            refine ⟨hpauses, ?_, ?_⟩
            · show _ ⊆ ((h.overwrite r.data).httpRebuffer (h.data + k)).cuts
              rw [hcuts]
              exact hreads.cuts
            · show ((h.overwrite r.data).httpRebuffer (h.data + k)).received +
                ((h.overwrite r.data).httpRebuffer (h.data + k)).rest.length = _
              rw [hreceived, hrest]
              exact hcount

theorem Ends.later {x : SeConnection C T P × P} {r : SeConnection C T P × SeOutcome Obj}
    (hends : Passes.Ends (dataPass D offer closed) x r) : Later x.1 r.1 := by
  induction hends with
  | @last x r hlast =>
    have hlater := dataPass_later D offer closed x
    rw [hlast] at hlater
    exact hlater
  | @next x y r hnext _ ih =>
    have hlater := dataPass_later D offer closed x
    rw [hnext] at hlater
    exact hlater.trans ih

/-- The loop has come to `body` of the body `body₀`, which begins at the place `start` of the
stream. -/
structure InBody (D : DocParser P Obj) (parser : UriParser T) (p₀ : P) (body₀ : List UInt8)
    (start : ℕ) (rs : List HttpResponse) (todo : List (Message C T ⊕ UInt8)) (cuts : List ℕ)
    (x : SeConnection C T P × P) (body : List UInt8) : Prop where
  expecting : Expecting parser x.1.http rs (body.map .inr ++ todo) cuts
  state : x.1.http.conn.state = .data
  open_ : x.1.http.conn.close = false
  fed : Fed D p₀ body₀ x.2 body
  short : body.length ≤ body₀.length
  count : x.1.http.received + x.1.http.rest.length = start + body₀.length + (stream rs).length

/-- The document has been made of the body, and HTTP is behind it. -/
structure BodyRead (D : DocParser P Obj) (parser : UriParser T) (p₀ : P) (body₀ : List UInt8)
    (rs : List HttpResponse) (todo : List (Message C T ⊕ UInt8)) (cuts : List ℕ)
    (m : Message C T) (s : SeConnection C T P) (obj : Obj) : Prop where
  makes : Makes D p₀ body₀ obj
  state : s.state = none
  expecting : Expecting parser s.http rs todo cuts
  complete : s.http.conn.state = .complete
  message : s.http.conn.message = m

/-- A pass comes closer to the next data. -/
def Nearer (offer : ℕ → ℕ) (x y : SeConnection C T P × P) (body body' : List UInt8) : Prop :=
  body'.length + y.1.http.rest.length < body.length + x.1.http.rest.length ∨
    (body'.length + y.1.http.rest.length = body.length + x.1.http.rest.length ∧
      y.1.http.data = 0 ∧
      ((x.1.http.data ≠ 0 ∧ y.1.http.reads = x.1.http.reads) ∨
        (y.1.http.reads = x.1.http.reads + 1 ∧ offer x.1.http.reads = 0)))

/-! ### Termination -/

/-- Data come again and again. -/
def Supplied (offer : ℕ → ℕ) : Prop := ∀ k, ∃ j ≥ k, 0 < offer j

/-- The buffer holds the largest token: the parser uses some of it when it is full. -/
def Hungry (D : DocParser P Obj) : Prop :=
  ∀ p data r, data.length + 1 = bufferSize → D.parse p data = some r → r.doc = none →
    r.place ≠ some 0

/-- What `http_data` has done when more is to come: the buffer was full, or it has read. -/
theorem httpData_progress {h h' : HttpStream C T} {data : List UInt8} (hs : h.Sound)
    (hstate : h.conn.state = .data) (hopen : h.conn.close = false)
    (hdata : h.httpData offer closed = (h', some data)) (hmore : h'.conn.state = .data)
    (hrest : h'.rest ≠ []) :
    (h' = h ∧ h.buffer.length + 1 = bufferSize) ∨ h'.rest.length < h.rest.length ∨
      (h'.rest = h.rest ∧ h'.reads = h.reads + 1 ∧ offer h.reads = 0) := by
  unfold httpData at hdata
  rw [if_pos hstate] at hdata
  obtain ⟨rfl, -⟩ := Prod.mk.inj hdata
  obtain ⟨k, hk⟩ : ∃ k, bufferSize - h.buffer.length = k + 1 :=
    ⟨bufferSize - h.buffer.length - 1, by have := hs.fits; unfold bufferSize at *; omega⟩
  rw [hk, httpDataLoop] at hmore hrest ⊢
  rw [if_neg (by rw [hopen]; decide)] at hmore hrest ⊢
  split at hmore
  · exact nomatch hmore
  rename_i hends
  rw [if_neg hends] at hrest ⊢
  split
  · rename_i hfull
    exact .inl ⟨rfl, hfull⟩
  rename_i hroom
  rw [if_neg hroom] at hrest
  obtain ⟨x, hread, hx⟩ := httpRead_spec offer h
  dsimp only at hrest ⊢
  split
  · rename_i hn
    obtain ⟨g, y, hreads, hloop⟩ := httpDataLoop_spec (h := (h.httpRead offer).2) offer closed k
      (by rw [hread.conn]; exact hopen) (hread.sound hs) (by
        rw [hread.buffer, List.length_append]
        omega)
    have hless : g.rest.length < h.rest.length := by
      rw [hread.rest, hreads.rest, List.length_append, List.length_append]
      omega
    rcases hloop with ⟨-, hloop⟩ | ⟨-, hloop⟩ <;> rw [hloop] <;> exact .inr (.inl hless)
  · rename_i hn
    have hzero : (h.httpRead offer).1 = 0 := by omega
    rw [if_neg hn] at hrest
    refine .inr (.inr ⟨?_, rfl, ?_⟩)
    · show h.rest.drop (h.httpRead offer).1 = h.rest
      rw [hzero, List.drop_zero]
    · have hleft : 0 < h.rest.length := by
        have hdrop := List.length_pos_of_ne_nil hrest
        have hle : (h.rest.drop (h.httpRead offer).1).length ≤ h.rest.length := by
          rw [List.length_drop]
          exact Nat.sub_le _ _
        exact hdrop.trans_le hle
      have hfits := hs.fits
      unfold httpRead at hzero
      dsimp only at hzero
      omega

variable {start : ℕ} {x : SeConnection C T P × P}

/-- **A pass of the loop** in SE_DATA: the document has been made of the whole body, the data have
ended where the parser does not go on, or the loop goes on. -/
theorem InBody.pass (hin : InBody D parser p₀ body₀ start rs todo cuts x body) (hfresh : Fresh todo)
    (hwhole : Whole D p₀ body₀) :
    (∃ s obj, dataPass D offer closed x = .inr (s, .returned (some obj)) ∧
        BodyRead D parser p₀ body₀ rs todo cuts x.1.http.conn.message s obj) ∨
      (∃ s out, dataPass D offer closed x = .inr (s, out) ∧
        ∃ j < body₀.length, Halts D p₀ body₀ j ∧ start + j ∈ s.pauses) ∨
      ∃ y body', dataPass D offer closed x = .inl y ∧
        InBody D parser p₀ body₀ start rs todo cuts y body' ∧
        y.1.http.conn.message = x.1.http.conn.message ∧
        (Hungry D → Nearer offer x y body body') := by
  obtain ⟨h, data, hdata⟩ : ∃ h data, x.1.http.httpData offer closed = (h, some data) := by
    unfold httpData
    rw [if_pos hin.state]
    exact ⟨_, _, rfl⟩
  obtain ⟨hmessage, hs, ⟨hdone, hcomplete, rfl, he⟩ |
    ⟨hmore, hopen, hcomplete, hrest, hlength, hlt, htake, hleft, he⟩⟩ :=
    hin.expecting.given hin.state hin.open_ hfresh hdata
  · -- The body has come, and the parser makes its object.
    left
    obtain ⟨r, obj, hparse, hdoc⟩ := hwhole _ _ hin.fed
    refine ⟨⟨h.overwrite r.data, none, x.1.pauses⟩, obj, ?_, ⟨_, _, r, hin.fed, hparse, hdoc⟩, rfl,
      he r.data (D.length_data hparse), hdone, hmessage⟩
    unfold dataPass
    rw [hdata]
    dsimp only
    rw [hparse, if_pos hcomplete]
    dsimp only
    rw [hdoc]
  · right
    obtain ⟨y, hreads⟩ := httpData_reads hdata
    have hcount : h.received = start + (body₀.length - body.length + data.length) := by
      have hreceived : h.received = x.1.http.received + y.length := hreads.received
      have hsplit := congrArg List.length hreads.rest
      rw [List.length_append] at hsplit
      dsimp only at hsplit
      have hbefore := hin.count
      have hshort := hin.short
      omega
    have hpaused : start + (body₀.length - body.length + data.length) ∈
        h.received :: x.1.pauses := by
      rw [hcount]
      exact List.mem_cons_self
    -- The body has not all come: where the loop does not go on, the reads have paused in it.
    have hlater : body₀.length - body.length + data.length < body₀.length := by
      have hshort := hin.short
      omega
    have hhalts : (∀ r, D.parse x.2 data = some r → r.doc = none → r.place = none) →
        Halts D p₀ body₀ (body₀.length - body.length + data.length) := by
      intro hstops
      rw [htake] at hstops
      have hshort := hin.short
      exact ⟨x.2, body, data.length, hin.fed, hlt, by omega, hstops⟩
    have hwaits : ¬h.httpComplete = true := by
      rw [hcomplete]
      decide
    unfold dataPass
    rw [hdata]
    dsimp only
    rw [if_neg hwaits]
    -- The parser does not return, makes its object before the end of the body, asks for more from
    -- no place in the data, or from the place `k`.
    cases hparse : D.parse x.2 data with
    | none =>
      left
      refine ⟨_, _, rfl, _, hlater, hhalts fun r hr => ?_, hpaused⟩
      exact nomatch hparse.symm.trans hr
    | some r =>
      dsimp only
      cases hdoc : r.doc with
      | some obj =>
        left
        refine ⟨_, _, rfl, _, hlater, hhalts fun r' hr hnone => ?_, hpaused⟩
        obtain rfl := Option.some.inj (hparse.symm.trans hr)
        exact nomatch hdoc.symm.trans hnone
      | none =>
        dsimp only
        rw [if_neg hwaits]
        cases hplace : r.place with
        | none =>
          left
          refine ⟨_, _, rfl, _, hlater, hhalts fun r' hr _ => ?_, hpaused⟩
          obtain rfl := Option.some.inj (hparse.symm.trans hr)
          exact hplace
        | some k =>
          right
          have hk := r.place_le hplace
          have hwritten := D.length_data hparse
          obtain ⟨hstate', hclose', hmessage', hrest', hreads', hreceived', -⟩ :=
            httpRebuffer_keeps (h.data + k) (h.overwrite r.data)
          have hbody : ((r.data ++ body.drop data.length).drop k).length + k = body.length := by
            rw [List.length_drop, List.length_append, List.length_drop]
            omega
          rw [htake] at hparse
          refine ⟨_, _, rfl, ⟨he r.data hwritten k hk, hstate'.trans hmore, hclose'.trans hopen,
            .piece hin.fed hlt hparse hdoc hplace, ?_, ?_⟩, hmessage'.trans hmessage, ?_⟩
          · have hshort := hin.short
            omega
          · dsimp only
            rw [hreceived', hrest']
            have hreceived :
                h.received + h.rest.length = start + body₀.length + (stream rs).length := by
              have hshort := hin.short
              omega
            exact hreceived
          · intro hhungry
            have hzero : ((h.overwrite r.data).httpRebuffer (h.data + k)).data = 0 :=
              httpRebuffer_data (h := h.overwrite r.data) (Nat.le_add_right _ _)
            unfold Nearer
            dsimp only
            rw [hreads', hrest', hzero]
            rw [← htake] at hparse
            -- The buffer was full, bytes have come, or the read has given nothing.
            rcases httpData_progress hs hin.state hin.open_ hdata hmore hrest with
              ⟨hsame, hfull⟩ | hless | ⟨hsame, hreads, hnone⟩
            · have hkept : (h.overwrite r.data).rest = x.1.http.rest ∧
                  (h.overwrite r.data).reads = x.1.http.reads := by
                rw [hsame]
                exact ⟨rfl, rfl⟩
              rw [hkept.1, hkept.2]
              rw [hsame] at hlength
              by_cases hfirst : x.1.http.data = 0
              · have hne : k ≠ 0 := by
                  rintro rfl
                  exact hhungry _ _ _ (by omega) hparse hdoc hplace
                exact .inl (by omega)
              · rcases Nat.eq_zero_or_pos k with rfl | hpos
                · exact .inr ⟨by omega, rfl, .inl ⟨hfirst, rfl⟩⟩
                · exact .inl (by omega)
            · left
              show _ + h.rest.length < _
              omega
            · show _ + h.rest.length < _ ∨ _ + h.rest.length = _ ∧ _ ∧ (_ ∨ h.reads = _ ∧ _)
              rw [hsame]
              rcases Nat.eq_zero_or_pos k with rfl | hpos
              · exact .inr ⟨by omega, rfl, .inr ⟨hreads, hnone⟩⟩
              · exact .inl (by omega)


/-- **The loop in SE_DATA.** -/
theorem InBody.result {out : SeOutcome Obj}
    (hends : Passes.Ends (dataPass D offer closed) x (s', out))
    (hin : InBody D parser p₀ body₀ start rs todo cuts x body) (hfresh : Fresh todo)
    (hwhole : Whole D p₀ body₀)
    (hpieces : ∀ j < body₀.length, Halts D p₀ body₀ j → start + j ∉ s'.pauses) :
    ∃ obj, out = .returned (some obj) ∧
      BodyRead D parser p₀ body₀ rs todo cuts x.1.http.conn.message s' obj := by
  generalize hr : (s', out) = r at hends
  induction hends generalizing body with
  | last hlast =>
    subst hr
    rcases hin.pass hfresh hwhole with
      ⟨s, obj, hpass, hread⟩ | ⟨s, out, hpass, j, hj, hhalts, hmem⟩ | ⟨y, body', hpass, -⟩
    · obtain ⟨rfl, rfl⟩ := Prod.mk.inj (Sum.inr.inj (hlast.symm.trans hpass))
      exact ⟨obj, rfl, hread⟩
    · obtain ⟨rfl, rfl⟩ := Prod.mk.inj (Sum.inr.inj (hlast.symm.trans hpass))
      exact absurd hmem (hpieces j hj hhalts)
    · cases hlast.symm.trans hpass
  | next hnext _ ih =>
    rcases hin.pass hfresh hwhole with ⟨s, obj, hpass, -⟩ | ⟨s, out, hpass, -⟩ |
      ⟨y, body', hpass, hin', hmessage, -⟩
    · cases hnext.symm.trans hpass
    · cases hnext.symm.trans hpass
    · obtain rfl := Sum.inl.inj (hnext.symm.trans hpass)
      rw [← hmessage]
      exact ih hin' hr

variable (closed) in
/-- **The loop in SE_DATA ends.** -/
theorem InBody.ends (hsupplied : Supplied offer) (hhungry : Hungry D)
    (hin : InBody D parser p₀ body₀ start rs todo cuts x body) (hfresh : Fresh todo)
    (hwhole : Whole D p₀ body₀) : ∃ r, Passes.Ends (dataPass D offer closed) x r := by
  induction hm : body.length + x.1.http.rest.length using Nat.strong_induction_on
    generalizing x body with
  | _ m ih =>
    obtain ⟨j, hj, hoffer⟩ := hsupplied x.1.http.reads
    -- The passes until the read `j`, and one more if there is something before the data.
    induction hw : 2 * (j - x.1.http.reads) + (if x.1.http.data = 0 then 0 else 1)
      using Nat.strong_induction_on generalizing x body with
    | _ w ihw =>
      rcases hin.pass hfresh hwhole with ⟨s, obj, hpass, -⟩ | ⟨s, out, hpass, -⟩ |
        ⟨y, body', hpass, hin', -, hnearer⟩
      · exact ⟨_, .last hpass⟩
      · exact ⟨_, .last hpass⟩
      · rcases hnearer hhungry with hless | ⟨hsame, hdata, hprogress⟩
        · obtain ⟨r, hr⟩ := ih _ (hm ▸ hless) hin' rfl
          exact ⟨r, .next hpass hr⟩
        · have hstep : y.1.http.reads ≤ j ∧
              2 * (j - y.1.http.reads) + (if y.1.http.data = 0 then 0 else 1) < w := by
            rw [if_pos hdata]
            rcases hprogress with ⟨hbefore, hreads⟩ | ⟨hreads, hnone⟩
            · rw [if_neg hbefore] at hw
              omega
            · have hne : x.1.http.reads ≠ j := by
                rintro rfl
                omega
              omega
          obtain ⟨r, hr⟩ := ihw _ hstep.2 hin' (hsame.trans hm) hstep.1 rfl
          exact ⟨r, .next hpass hr⟩

end Loop

/-! ## Runs -/

/-- What a call of `se_receive` gives. -/
inductive SeAct (C T Obj : Type)
  | returned (m : Message C T) (obj : Option Obj)
  | incomplete
  | error
  | stray

section Runs
open SeConnection
variable {C T P Obj : Type} (D : DocParser P Obj) (parser : UriParser T) (offer : ℕ → ℕ)
  (closed : ℕ → Bool)

def SeOutcome.act (s : SeConnection C T P) : SeOutcome Obj → SeAct C T Obj
  | returned obj => .returned s.http.conn.message obj
  | incomplete => .incomplete
  | error => .error
  | stray => .stray

/-- What a reply needs: its body does not last until the connection is closed, and the parser makes
an object of it. -/
structure Parsed (m : Message C T × List UInt8) : Prop where
  body : m.1.body = true ↔ m.2 ≠ []
  close : m.2 ≠ [] → m.1.close = false
  whole : m.2 ≠ [] → ∃ p, D.init m.1.contentType = some p ∧ Whole D p m.2

/-- The reads do not pause at a place of a body where the parser does not go on. -/
def Unbroken (c : HttpConnection C T) (rs : List HttpResponse) (pauses : List ℕ) : Prop :=
  ∀ i m p j, (replies parser c rs)[i]? = some m → D.init m.1.contentType = some p →
    j < m.2.length → Halts D p m.2 j →
    ∀ k ∈ pauses, k + m.2.length ≠ (stream (rs.take (i + 1))).length + j

variable {D parser offer closed} {s s' : SeConnection C T P}
  {rs : List HttpResponse} {back : List (Message C T × List UInt8)} {cuts : List ℕ} {fuel total : ℕ}
  {out : SeOutcome Obj}

theorem receiveLoop_count (fuel : ℕ) (h : HttpStream C T) :
    (receiveLoop parser offer fuel h).1.received + (receiveLoop parser offer fuel h).1.rest.length =
      h.received + h.rest.length := by
  induction fuel generalizing h with
  | zero => rfl
  | succ fuel ih =>
    have hline : (h.nextLine offer).1.received + (h.nextLine offer).1.rest.length =
        h.received + h.rest.length := by
      obtain ⟨x, hreads⟩ := nextLineLoop_reads offer (bufferSize - h.buffer.length) h h.data
      have hsplit := congrArg List.length hreads.rest
      rw [List.length_append] at hsplit
      have hreceived := hreads.received
      unfold nextLine
      omega
    unfold receiveLoop
    split
    · split
      · rename_i h' hnext
        rw [hnext] at hline
        exact hline
      · rename_i h' p hnext
        rw [hnext] at hline
        split
        · exact (ih _).trans hline
        · exact hline
        · exact hline
    · split
      · rename_i h' hnext
        rw [hnext] at hline
        exact hline
      · rename_i h' p hnext
        rw [hnext] at hline
        split
        · exact (ih _).trans hline
        · exact hline
        · exact hline
    · rfl
    · split
      · rfl
      · obtain ⟨-, -, -, hrest, -, hreceived, -⟩ := httpRebuffer_keeps h.conn.ends.toNat h
        refine (ih _).trans ?_
        dsimp only
        rw [hreceived, hrest]
    · rfl

theorem seReceive_later (hres : s.seReceive D parser offer closed fuel = some (s', out)) :
    s.pauses ⊆ s'.pauses ∧ s.http.cuts ⊆ s'.http.cuts ∧
      (s.http.httpReceive parser offer).1.cuts ⊆ s'.http.cuts ∧
      s'.http.received + s'.http.rest.length = s.http.received + s.http.rest.length := by
  have hcuts : s.http.cuts ⊆ (s.http.httpReceive parser offer).1.cuts := receiveLoop_cuts _ _
  have hcount : (s.http.httpReceive parser offer).1.received +
      (s.http.httpReceive parser offer).1.rest.length = s.http.received + s.http.rest.length :=
    receiveLoop_count _ _
  have hloop : ∀ p, Passes.loop (dataPass D offer closed) fuel
      ({ s with http := (s.http.httpReceive parser offer).1 }, p) = some (s', out) →
      s.pauses ⊆ s'.pauses ∧ s.http.cuts ⊆ s'.http.cuts ∧
        (s.http.httpReceive parser offer).1.cuts ⊆ s'.http.cuts ∧
        s'.http.received + s'.http.rest.length = s.http.received + s.http.rest.length := by
    intro p hp
    have hlater := Ends.later (Passes.ends_of_loop hp)
    exact ⟨hlater.pauses, List.Subset.trans hcuts hlater.cuts, hlater.cuts,
      hlater.count.trans hcount⟩
  unfold seReceive at hres
  rcases hreceive : s.http.httpReceive parser offer with ⟨h, _ | _ | _⟩
  · rw [hreceive] at hres hcuts hcount
    obtain ⟨rfl, -⟩ := Prod.mk.inj (Option.some.inj hres)
    exact ⟨List.Subset.refl _, hcuts, List.Subset.refl _, hcount⟩
  · rw [hreceive] at hres hcuts hcount
    obtain ⟨rfl, -⟩ := Prod.mk.inj (Option.some.inj hres)
    exact ⟨List.Subset.refl _, hcuts, List.Subset.refl _, hcount⟩
  · rw [hreceive] at hres hcuts hcount hloop
    dsimp only at hres
    split at hres
    · exact hloop _ hres
    · split at hres
      · split at hres
        · exact hloop _ hres
        · obtain ⟨rfl, -⟩ := Prod.mk.inj (Option.some.inj hres)
          exact ⟨List.Subset.refl _, hcuts, List.Subset.refl _, hcount⟩
      · obtain ⟨rfl, -⟩ := Prod.mk.inj (Option.some.inj hres)
        exact ⟨List.Subset.refl _, hcuts, List.Subset.refl _, hcount⟩


/-- The bytes of a body and of what is behind it are among those of the stream. -/
theorem HttpStream.Expecting.reach {h : HttpStream C T} {body : List UInt8}
    {todo : List (Message C T ⊕ UInt8)}
    (he : Expecting parser h rs (body.map .inr ++ todo) cuts) (hstate : h.conn.state = .data)
    (hopen : h.conn.close = false) (hfresh : Fresh todo) :
    body.length + (stream rs).length ≤ h.received + h.rest.length := by
  generalize hfull : body.map .inr ++ todo = full at he
  cases he with
  | head ha =>
    rcases ha.begun with hbegun | hbegun <;> rw [hbegun] at hstate <;> exact nomatch hstate
  | complete hcomplete => rw [hcomplete] at hstate; exact nomatch hstate
  | idle hstart => rw [hstart] at hstate; exact nomatch hstate
  | closing hclose | lasting _ hclose => rw [hclose] at hopen; exact nomatch hopen
  | data _ _ hs _ _ hbytes =>
    obtain ⟨rfl, -⟩ := body_unique hfresh (fresh_expected _ _) hfull
    have hlength := congrArg List.length hbytes
    rw [List.length_append, List.length_append, List.length_drop] at hlength
    have hbound := hs.bound
    omega

/-- Where a run between messages stands. -/
structure Stands (D : DocParser P Obj) (parser : UriParser T) (total : ℕ) (s : SeConnection C T P)
    (rs : List HttpResponse) (back : List (Message C T × List UInt8)) (cuts : List ℕ) : Prop where
  expecting : Expecting parser s.http rs (flat back) cuts
  open_ : s.http.conn.state ≠ .data
  state : s.state = none
  parsed : ∀ m ∈ back, Parsed D m
  count : s.http.received + s.http.rest.length = total

/-- The reads do not pause in the next body at a place where the parser does not go on. -/
def NextUnbroken (D : DocParser P Obj) (total : ℕ) (rs : List HttpResponse)
    (back : List (Message C T × List UInt8)) (pauses : List ℕ) : Prop :=
  ∀ m ∈ back.head?, ∀ p j, D.init m.1.contentType = some p → j < m.2.length → Halts D p m.2 j →
    ∀ k ∈ pauses, k + m.2.length + (stream rs.tail).length ≠ total + j

/-- The loop over the body of a reply. -/
theorem Stands.inBody {h : HttpStream C T} {m : Message C T × List UInt8}
    {todo : List (Message C T ⊕ UInt8)} {p : P}
    (he : Expecting parser h rs (m.2.map .inr ++ todo) cuts) (hstate : h.conn.state = .data)
    (hopen : h.conn.close = false) (hfresh : Fresh todo)
    (hcount : h.received + h.rest.length = total) :
    InBody D parser p m.2 (total - m.2.length - (stream rs).length) rs todo cuts
      (⟨h, none, s.pauses⟩, p) m.2 := by
  have hreach := he.reach hstate hopen hfresh
  exact ⟨he, hstate, hopen, .start, Nat.le_refl _, by dsimp only; omega⟩

/-- What a call of `http_receive` between messages comes to. -/
theorem Stands.receive (hstands : Stands D parser total s rs back cuts)
    (hcut : ∀ k ∈ cuts, k ∉ (s.http.httpReceive parser offer).1.cuts) :
    (∃ h m back' cuts', s.http.httpReceive parser offer = (h, .message) ∧ back = m :: back' ∧
        m.1 = h.conn.message ∧ (h.conn.state = .data ↔ m.2 ≠ []) ∧
        (h.conn.state = .data ∨ h.conn.state = .complete) ∧ cuts' ⊆ cuts ∧
        Expecting parser h rs.tail (m.2.map .inr ++ flat back') cuts' ∧
        h.received + h.rest.length = total) ∨
      ∃ h cuts', s.http.httpReceive parser offer = (h, .none) ∧ h.conn.state ≠ .data ∧
        cuts' ⊆ cuts ∧ Expecting parser h rs (flat back) cuts' ∧
        (h.rest = [] → back = []) ∧ h.received + h.rest.length = total := by
  have hreceives := hstands.expecting.receive offer hstands.open_ hcut
  have hcount : (s.http.httpReceive parser offer).1.received +
      (s.http.httpReceive parser offer).1.rest.length = total :=
    (receiveLoop_count _ _).trans hstands.count
  rcases hreceive : s.http.httpReceive parser offer with ⟨h, outcome⟩
  rw [hreceive] at hreceives hcount
  rcases hreceives with ⟨rfl, hbody, hwhere, todo', cuts', hsub, he', htodo⟩ |
    ⟨rfl, hdata', cuts', hsub, he', hdone⟩
  · left
    cases back with
    | nil => exact nomatch htodo
    | cons m back =>
      obtain ⟨hm, rfl⟩ := List.cons.inj htodo
      have hm : m.1 = h.conn.message := Sum.inl.inj hm
      refine ⟨h, m, back, cuts', rfl, rfl, hm, ?_, hwhere, hsub, he', hcount⟩
      rw [hbody, ← (hstands.parsed m List.mem_cons_self).body, hm]
      rfl
  · right
    refine ⟨h, cuts', rfl, hdata', hsub, he', fun hrest => ?_, hcount⟩
    have hnil := hdone hrest
    cases back with
    | nil => rfl
    | cons m back => exact nomatch hnil

/-- **A call of `se_receive`** between messages: the next reply, or nothing yet. -/
theorem Stands.call (hstands : Stands D parser total s rs back cuts)
    (hres : s.seReceive D parser offer closed fuel = some (s', out))
    (hcut : ∀ k ∈ cuts, k ∉ s'.http.cuts) (hpieces : NextUnbroken D total rs back s'.pauses) :
    (out = .incomplete ∧ (∃ cuts', cuts' ⊆ cuts ∧ Stands D parser total s' rs back cuts') ∧
        (s'.http.rest = [] → back = [])) ∨
      ∃ m back' obj, back = m :: back' ∧ out = .returned obj ∧ s'.http.conn.message = m.1 ∧
        Owned D m obj ∧ s'.http.conn.state = .complete ∧
        ∃ cuts', cuts' ⊆ cuts ∧ Stands D parser total s' rs.tail back' cuts' := by
  obtain ⟨-, -, hcuts, hcount⟩ := seReceive_later hres
  rw [hstands.count] at hcount
  have hlines : ∀ k ∈ cuts, k ∉ (s.http.httpReceive parser offer).1.cuts :=
    fun k hk hmem => hcut k hk (hcuts hmem)
  rcases hstands.receive hlines with
    ⟨h, m, back, cuts', hreceive, rfl, hm, hbody, hwhere, hsub, he, hcount'⟩ |
    ⟨h, cuts', hreceive, hdata, hsub, he, hdone, hcount'⟩
  · right
    have hparsed := hstands.parsed m List.mem_cons_self
    have hrest : ∀ m' ∈ back, Parsed D m' := fun m' hm' =>
      hstands.parsed m' (List.mem_cons_of_mem _ hm')
    have hflag : h.conn.body = true ↔ m.2 ≠ [] := by
      rw [← hparsed.body, hm]
      rfl
    unfold seReceive at hres
    rw [hreceive] at hres
    dsimp only at hres
    rw [hstands.state] at hres
    dsimp only at hres
    -- Without a body the reply is returned as it is, else a parser reads it.
    by_cases hempty : m.2 = []
    · rw [if_neg (fun hisbody => hflag.mp hisbody hempty)] at hres
      obtain ⟨rfl, rfl⟩ := Prod.mk.inj (Option.some.inj hres)
      have hnot : h.conn.state ≠ .data := fun hdata => hbody.mp hdata hempty
      rw [hempty] at he
      refine ⟨m, back, none, rfl, rfl, hm.symm, ?_, hwhere.resolve_left hnot, cuts', hsub,
        ⟨he, hnot, rfl, hrest, hcount⟩⟩
      unfold Owned
      rw [if_pos hempty]
    · obtain ⟨p, hp, hwhole⟩ := hparsed.whole hempty
      have htype : m.1.contentType = h.conn.contentType := by rw [hm]; rfl
      have hopen : h.conn.close = false := by
        rw [← hparsed.close hempty, hm]
        rfl
      rw [if_pos (hflag.mpr hempty), ← htype, hp] at hres
      dsimp only at hres
      have hfresh := fresh_flat (C := C) (T := T) back
      have hdata := hbody.mpr hempty
      have hin := Stands.inBody (s := s) (p := p) (D := D) he hdata hopen hfresh hcount'
      have hreach := he.reach hdata hopen hfresh
      obtain ⟨obj, hout, hread⟩ := hin.result (Passes.ends_of_loop hres) hfresh hwhole
        fun j hj hhalts hmem => hpieces m rfl p j hp hj hhalts
          (total - m.2.length - (stream rs.tail).length + j) hmem (by omega)
      refine ⟨m, back, some obj, rfl, hout, hread.message.trans hm.symm, ?_, hread.complete, cuts',
        hsub, ⟨hread.expecting, by rw [hread.complete]; decide, hread.state, hrest, hcount⟩⟩
      unfold Owned
      rw [if_neg hempty]
      exact ⟨obj, p, rfl, hp, hread.makes⟩
  · left
    unfold seReceive at hres
    rw [hreceive] at hres
    obtain ⟨rfl, rfl⟩ := Prod.mk.inj (Option.some.inj hres)
    exact ⟨rfl, ⟨cuts', hsub, he, hdata, hstands.state, hstands.parsed, hcount⟩, hdone⟩

/-- **A call of `se_receive` ends.** -/
theorem Stands.ends (hsupplied : Supplied offer) (hhungry : Hungry D)
    (hstands : Stands D parser total s rs back cuts)
    (hcut : ∀ k ∈ cuts, k ∉ (s.http.httpReceive parser offer).1.cuts) :
    ∃ fuel, (s.seReceive D parser offer closed fuel).isSome := by
  unfold seReceive
  rcases hstands.receive hcut with
    ⟨h, m, back, cuts', hreceive, rfl, hm, hbody, -, -, he, hcount⟩ | ⟨h, cuts', hreceive, -⟩
  · rw [hreceive]
    dsimp only
    rw [hstands.state]
    dsimp only
    have hparsed := hstands.parsed m List.mem_cons_self
    by_cases hisbody : h.conn.body = true
    · have hne : m.2 ≠ [] := hparsed.body.1 (by rw [hm]; exact hisbody)
      obtain ⟨p, hp, hwhole⟩ := hparsed.whole hne
      have hopen : h.conn.close = false := by
        rw [← hparsed.close hne, hm]
        rfl
      have htype : m.1.contentType = h.conn.contentType := by rw [hm]; rfl
      have hfresh := fresh_flat (C := C) (T := T) back
      have hin := Stands.inBody (s := s) (p := p) (D := D) he (hbody.mpr hne) hopen hfresh hcount
      obtain ⟨r, hends⟩ := hin.ends closed hsupplied hhungry hfresh hwhole
      obtain ⟨fuel, hfuel⟩ := hends.loop
      refine ⟨fuel, ?_⟩
      rw [if_pos hisbody, ← htype, hp]
      dsimp only
      rw [hfuel]
      rfl
    · refine ⟨0, ?_⟩
      rw [if_neg hisbody]
      rfl
  · rw [hreceive]
    exact ⟨0, rfl⟩

/-- A response and what has been returned for it. -/
def Answers (D : DocParser P Obj) (m : Message C T × List UInt8) (a : Message C T × Option Obj) :
    Prop :=
  a.1 = m.1 ∧ Owned D m a.2

/-- The pauses of the whole stream, seen from where a run stands. -/
theorem Unbroken.next {c : HttpConnection C T} {pauses : List ℕ}
    {front : List (Message C T × List UInt8)} (h : Unbroken D parser c rs pauses)
    (hreplies : replies parser c rs = front ++ back) :
    NextUnbroken D (stream rs).length (rs.drop front.length) back pauses := by
  intro m hm p j hp hj hhalts k hk heq
  cases back with
  | nil => exact nomatch hm
  | cons m' back =>
    obtain rfl : m' = m := Option.some.inj hm
    have hget : (replies parser c rs)[front.length]? = some m' := by
      rw [hreplies, List.getElem?_append_right (Nat.le_refl _), Nat.sub_self]
      rfl
    have hne := h front.length m' p j hget hp hj hhalts k hk
    have hsplit : (stream rs).length = (stream (rs.take (front.length + 1))).length +
        (stream (rs.drop (front.length + 1))).length := by
      conv_lhs => rw [← List.take_append_drop (front.length + 1) rs]
      rw [stream, List.flatMap_append, List.length_append]
      rfl
    rw [List.tail_drop, hsplit] at heq
    omega

end Runs

/-! ## A document in two reads -/

section Documents
open SeConnection

end Documents

end SeClient
