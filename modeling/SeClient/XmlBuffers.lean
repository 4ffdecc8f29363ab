import SeClient.Packing
import SeClient.XmlCalls
import SeClient.XmlDocuments

/-!
# A document in buffers

However small the buffer is, as long as each piece of the document fits, the contents of the buffers
are the pieces of the document, packed one buffer after the other.
-/

namespace SeClient
open Output
variable {S : Schema} {m : Heap} {ns : Option CString} {obj : Addr} {type : ℕ}

section Emitting
variable {p p₁ q r : Output XmlSink} {buffers buffers' : List CString}

theorem Output.SamePlace.trans {σ τ ρ : Type} {p : Output σ} {q : Output τ} {r : Output ρ}
    (h : p.SamePlace q) (h' : q.SamePlace r) : p.SamePlace r :=
  ⟨h.state.trans h'.state, h.se.trans h'.se, h.stack.trans h'.stack, h.base.trans h'.base,
    h.flag.trans h'.flag⟩

theorem Output.samePlace_flush : p.flush.SamePlace p := ⟨rfl, rfl, rfl, rfl, rfl⟩

theorem Emits.trans (h : Emits S m ns obj type p buffers q)
    (h' : Emits S m ns obj type q buffers' r) :
    Emits S m ns obj type p (buffers ++ buffers') r := by
  induction h with
  | refl => exact h'
  | go hstep _ ih => exact .go hstep (ih h')
  | full hstep _ ih => exact .full hstep (ih h')

/-- There is one way to the end. -/
theorem Emits.unique {q' r' : Output XmlSink} (h : Emits S m ns obj type p buffers q)
    (hq : step S m (xmlOutput S m ns) obj type q = .complete q')
    (h' : Emits S m ns obj type p buffers' r)
    (hr : step S m (xmlOutput S m ns) obj type r = .complete r') :
    buffers = buffers' ∧ q' = r' := by
  induction h generalizing buffers' with
  | refl =>
    cases h' with
    | refl =>
      rw [hq] at hr
      cases hr
      exact ⟨rfl, rfl⟩
    | go hstep => simp [hq] at hstep
    | full hstep => simp [hq] at hstep
  | go hstep _ ih =>
    cases h' with
    | refl => simp [hr] at hstep
    | go hstep' hs =>
      rw [hstep] at hstep'
      cases hstep'
      exact ih hq hs
    | full hstep' => simp [hstep] at hstep'
  | full hstep _ ih =>
    cases h' with
    | refl => simp [hr] at hstep
    | go hstep' => simp [hstep] at hstep'
    | full hstep' hs =>
      rw [hstep] at hstep'
      cases hstep'
      obtain ⟨rfl, rfl⟩ := ih hq hs
      exact ⟨rfl, rfl⟩

/-- From `p` on, `pieces` are written behind `text`, and the output gets to the place of `o`. -/
def Writes (S : Schema) (m : Heap) (ns : Option CString) (obj : Addr) (type : ℕ)
    (p : Output XmlSink) (text : CString) (pieces : List CString) (o : Output Unit) (pen : Pen) :
    Prop :=
  ∃ buffers p', Emits S m ns obj type p buffers p' ∧ p'.SamePlace o ∧ p'.pen = pen ∧
    p'.out.size = p.out.size ∧ p'.out.text.length < p.out.size ∧
    ∀ rest, pack p.out.size text (pieces ++ rest) = buffers ++ pack p.out.size p'.out.text rest

/-- If the buffer is full, the pieces are in the next one. -/
theorem Writes.full {piece : CString} {pieces : List CString} {o : Output Unit} {pen : Pen}
    (hstep : step S m (xmlOutput S m ns) obj type p = .full p)
    (hleft : (xmlAttempt S m ns p).2 = p₁) (hsize : p₁.out.size = p.out.size)
    (hfull : ¬p₁.out.text.length + piece.length < p.out.size) (hpiece : piece.length < p.out.size)
    (h : Writes S m ns obj type p₁.flush [] (piece :: pieces) o pen) :
    Writes S m ns obj type p p₁.out.text (piece :: pieces) o pen := by
  obtain ⟨buffers, p', hemits, hplace, hpen, hsize', htext, hpack⟩ := h
  have hflush : p₁.flush.out.size = p.out.size := hsize
  rw [hflush] at hsize' htext hpack
  have hall : Emits S m ns obj type p ((xmlAttempt S m ns p).2.out.text :: buffers) p' :=
    .full hstep (by rw [hleft]; exact hemits)
  rw [hleft] at hall
  refine ⟨p₁.out.text :: buffers, p', hall, hplace, hpen, hsize', htext, fun rest => ?_⟩
  have hnext := hpack rest
  rw [List.cons_append, pack_fits (by rwa [List.length_nil, Nat.zero_add]),
    List.nil_append] at hnext
  rw [List.cons_append, pack_full hfull, hnext, List.cons_append]

end Emitting

/-! ## One call -/

section Call
variable {p p₁ : Output XmlSink} {o o' : Output Unit} {c : DriverCall} {s : CString}

/-- A piece for which there is room. -/
theorem writes_fitting (hp : p.SamePlace o) (hp₁ : p₁.SamePlace p)
    (hsize : p₁.out.size = p.out.size) (hcall : o.call S m = some c)
    (hstep : step S m takesAll obj type o = .go o')
    (hsame : xmlAttempt S m ns p = xmlAttempt S m ns p₁) (hw : c.Writable S)
    (hone : c.pieces S ns p₁.pen = [s]) (hfits : p₁.out.text.length + s.length < p.out.size) :
    Writes S m ns obj type p p₁.out.text [s] o' (c.after S p₁.pen) := by
  have hroom : s.length < p₁.out.room := by
    unfold XmlSink.room
    omega
  have hattempt := xmlAttempt_one ((hp₁.trans hp).call.trans hcall) (Nat.zero_lt_of_lt hroom) hw
    hone fun _ _ _ => hroom
  rw [if_pos hroom, ← hsame] at hattempt
  have htakes : p.attempt S (xmlOutput S m ns) = some ((p₁.put s).withPen (c.after S p₁.pen)) := by
    rw [attempt_xmlOutput (hp.call.trans hcall), hattempt]
    rfl
  have hplace : ((p₁.put s).withPen (c.after S p₁.pen)).SamePlace p :=
    ⟨hp₁.state, hp₁.se, hp₁.stack, hp₁.base, hp₁.flag⟩
  obtain ⟨p', hp', hplace', hout, hfirst⟩ := step_call hp hcall hstep htakes hplace
  refine ⟨[], p', .go hp' .refl, hplace', ?_, ?_, ?_, fun rest => ?_⟩
  · unfold Output.pen
    rw [hout, hfirst]
    rfl
  · rw [hout]
    exact hsize
  · rw [hout]
    show (p₁.out.text ++ s).length < _
    rwa [List.length_append]
  · rw [hout, List.singleton_append, pack_fits hfits]
    rfl

/-- A piece that is shorter than the buffer. -/
theorem writes_piece (hp : p.SamePlace o) (hp₁ : p₁.SamePlace p)
    (hsize : p₁.out.size = p.out.size) (hcall : o.call S m = some c)
    (hstep : step S m takesAll obj type o = .go o')
    (hsame : xmlAttempt S m ns p = xmlAttempt S m ns p₁) (hw : c.Writable S)
    (hone : c.pieces S ns p₁.pen = [s]) (hs : s.length < p.out.size)
    (htext : p₁.out.text.length < p.out.size)
    (hroot : ∀ j, c = .event .seComplex j → p₁.first = true → p₁.out.text = []) :
    Writes S m ns obj type p p₁.out.text [s] o' (c.after S p₁.pen) := by
  by_cases hfits : p₁.out.text.length + s.length < p.out.size
  · exact writes_fitting hp hp₁ hsize hcall hstep hsame hw hone hfits
  · have hroom : 0 < p₁.out.room := by
      unfold XmlSink.room
      omega
    have hattempt := xmlAttempt_one ((hp₁.trans hp).call.trans hcall) hroom hw hone
      fun j hj hfirst => by rw [XmlSink.room, hroot j hj hfirst, hsize]; exact hs
    rw [if_neg (by unfold XmlSink.room; omega), ← hsame] at hattempt
    have hfull : p.attempt S (xmlOutput S m ns) = none := by
      rw [attempt_xmlOutput (hp.call.trans hcall), hattempt]
      rfl
    have hnext : Writes S m ns obj type p₁.flush p₁.flush.out.text [s] o'
        (c.after S p₁.flush.pen) :=
      writes_fitting (samePlace_flush.trans (hp₁.trans hp)) ⟨rfl, rfl, rfl, rfl, rfl⟩ rfl hcall
        hstep rfl hw hone (by show 0 + s.length < p₁.out.size; omega)
    exact hnext.full (step_full hp hcall hfull) (by rw [hattempt]) hsize hfits hs

/-- A call that has to close the tag before, and has the room for that. -/
theorem writes_open {e : OutputEvent} {i : ℕ} (hp : p.SamePlace o)
    (hcall : o.call S m = some (.event e i)) (hstep : step S m takesAll obj type o = .go o')
    (he : e = .seSimple ∨ e = .seComplex) (hopen : p.out.isOpen = true) (hfirst : p.first = false)
    (hone : (DriverCall.event e i).pieces S ns { p.pen with isOpen := false } = [s])
    (hs : s.length < p.out.size) (hroom : p.out.text.length + 1 < p.out.size) :
    Writes S m ns obj type p p.out.text [[62], s] o'
      ((DriverCall.event e i).after S { p.pen with isOpen := false }) := by
  have hattempt : xmlAttempt S m ns p = xmlAttempt S m ns p.closeTag := by
    rw [xmlAttempt_open (hp.call.trans hcall) he hopen,
      if_pos (by unfold XmlSink.room; omega)]
  have htag : p.closeTag.first = false := hfirst
  have hplace : p.closeTag.SamePlace p := ⟨rfl, rfl, rfl, rfl, rfl⟩
  obtain ⟨buffers, p', hemits, hplace, hpen, hsize, htext, hpack⟩ :=
    writes_piece hp hplace rfl hcall hstep hattempt trivial hone hs
      (by show (p.out.text ++ [62]).length < p.out.size; rwa [List.length_append])
      fun j _ hroot => absurd (htag.symm.trans hroot) Bool.false_ne_true
  refine ⟨buffers, p', hemits, hplace, hpen, hsize, htext, fun rest => ?_⟩
  rw [List.cons_append, pack_fits hroom]
  exact hpack rest

/-- **A call writes its pieces**, into one buffer or into several. -/
theorem writes_call (hp : p.SamePlace o) (hcall : o.call S m = some c)
    (hstep : step S m takesAll obj type o = .go o') (hw : c.Writable S)
    (hpieces : ∀ s ∈ c.pieces S ns p.pen, s.length < p.out.size)
    (htext : p.out.text.length < p.out.size)
    (hroot : ∀ j, c = .event .seComplex j → p.first = true → p.out.text = [])
    (hclosed : p.first = true → p.out.isOpen = false) :
    Writes S m ns obj type p p.out.text (c.pieces S ns p.pen) o' (c.after S p.pen) := by
  rcases pieces_cases S ns c p.pen with ⟨s, hone⟩ | ⟨e, i, rfl, he, hopen, s, hone, htwo, hafter⟩
  · have hs := hpieces s (by rw [hone]; exact List.mem_cons_self)
    rw [hone]
    exact writes_piece hp ⟨rfl, rfl, rfl, rfl, rfl⟩ rfl hcall hstep rfl hw hone hs htext hroot
  · have hfirst : p.first = false := by
      by_contra hfirst
      have htrue := (Bool.eq_false_or_eq_true _).resolve_right hfirst
      exact Bool.false_ne_true ((hclosed htrue).symm.trans hopen)
    rw [htwo] at hpieces ⊢
    rw [← hafter]
    have hs := hpieces s (by simp)
    have hquote : 1 < p.out.size := hpieces [62] (by simp)
    by_cases hroom : p.out.text.length + 1 < p.out.size
    · exact writes_open hp hcall hstep he hopen hfirst hone hs hroom
    · have hattempt : xmlAttempt S m ns p = (false, p) := by
        rw [xmlAttempt_open (hp.call.trans hcall) he hopen,
          if_neg (by unfold XmlSink.room; omega)]
      have hfull : p.attempt S (xmlOutput S m ns) = none := by
        rw [attempt_xmlOutput (hp.call.trans hcall), hattempt]
        rfl
      have hnext : Writes S m ns obj type p.flush p.flush.out.text [[62], s] o'
          ((DriverCall.event e i).after S { p.flush.pen with isOpen := false }) :=
        writes_open (samePlace_flush.trans hp) hcall hstep he hopen hfirst hone hs
          (by show 0 + 1 < p.out.size; omega)
      exact hnext.full (step_full hp hcall hfull) (by rw [hattempt]) rfl hroom hquote

end Call

/-! ## The whole document -/

section Document
variable {p : Output XmlSink} {o : Output Unit} {cs : List DriverCall}

/-- While no element with elements was written, no tag is open, and either the first call is for
one and the buffer is empty, or there is none. -/
def AtRoot (p : Output XmlSink) (cs : List DriverCall) : Prop :=
  p.first = true → p.out.isOpen = false ∧
    ((∃ j rest, cs = .event .seComplex j :: rest) ∧ p.out.text = [] ∨
      ∀ j, .event .seComplex j ∉ cs)

theorem AtRoot.next {c : DriverCall} {p' : Output XmlSink} (h : AtRoot p (c :: cs))
    (hpen : p'.pen = c.after S p.pen) : AtRoot p' cs := by
  intro hfirst
  have hafter : (c.after S p.pen).first = true := by
    rw [← hpen]
    exact hfirst
  have hopen : p'.out.isOpen = (c.after S p.pen).isOpen := congrArg Pen.isOpen hpen
  rw [hopen]
  have hcomplex : ∀ j, c ≠ .event .seComplex j := by
    rintro j rfl
    exact Bool.false_ne_true hafter
  have hsame : (c.after S p.pen).first = p.first := by
    cases c with
    | attrValue i w => rfl
    | value i w => rfl
    | event e i =>
      cases e with
      | atEvent => rfl
      | seSimple => rfl
      | seComplex => exact absurd rfl (hcomplex i)
      | eeEvent =>
        unfold DriverCall.after
        dsimp only
        split
        · rfl
        · split <;> rfl
  obtain ⟨hclosed, hroot⟩ := h (hsame.symm.trans hafter)
  have hpenClosed : p.pen.isOpen = false := hclosed
  refine ⟨?_, Or.inr fun j hj => ?_⟩
  · cases c with
    | attrValue i w => exact hclosed
    | value i w => exact hclosed
    | event e i =>
      cases e with
      | atEvent => exact hclosed
      | seSimple => rfl
      | seComplex => exact absurd rfl (hcomplex i)
      | eeEvent =>
        unfold DriverCall.after
        dsimp only
        rw [if_neg (by rw [hpenClosed]; exact Bool.false_ne_true)]
        split <;> exact hclosed
  · rcases hroot with ⟨⟨i, rest, hcs⟩, -⟩ | hnone
    · exact hcomplex i (List.cons.inj hcs).1
    · exact hnone j (List.mem_cons_of_mem c hj)

/-- **All that remains is written**, packed into buffers. -/
theorem emits_remains (hr : Remains S m obj type o cs) (hp : p.SamePlace o)
    (hw : ∀ c ∈ cs, c.Writable S) (hpieces : ∀ s ∈ piecesOf S ns p.pen cs, s.length < p.out.size)
    (htext : p.out.text.length < p.out.size) (hroot : AtRoot p cs) :
    ∃ buffers q, Emits S m ns obj type p buffers q ∧ q.state = .outputEnd ∧ q.stack = [] ∧
      q.out.size = p.out.size ∧
      pack p.out.size p.out.text (piecesOf S ns p.pen cs) = buffers ++ [q.out.text] := by
  induction hr generalizing p with
  | done hstate hstack =>
    exact ⟨[], p, .refl, hp.state.trans hstate, hp.stack.trans hstack, rfl, rfl⟩
  | element hstate h _ ih =>
    obtain ⟨p', hp', hplace, hout, hfirst⟩ := stepElement_same hp h
    have hstep : step S m (xmlOutput S m ns) obj type p = .go p' := by
      unfold Output.step
      rw [hp.state, hstate]
      exact hp'
    have hpen : p'.pen = p.pen := by
      unfold Output.pen
      rw [hout, hfirst]
    have hrest := ih hplace hw (by rwa [hpen, hout]) (by rwa [hout])
      (by unfold AtRoot; rw [hout, hfirst]; exact hroot)
    rw [hpen, hout] at hrest
    obtain ⟨buffers, q, hemits, hq⟩ := hrest
    exact ⟨buffers, q, .go hstep hemits, hq⟩
  | @call _ _ c cs hcall h _ ih =>
    have hcomplex : ∀ j, c = .event .seComplex j → p.first = true → p.out.text = [] := by
      rintro j rfl hfirst
      rcases (hroot hfirst).2 with ⟨-, hempty⟩ | hnone
      · exact hempty
      · exact absurd List.mem_cons_self (hnone j)
    rw [piecesOf] at hpieces ⊢
    obtain ⟨buffers, p', hemits, hplace, hpen, hsize, htext', hpack⟩ :=
      writes_call hp hcall h (hw c List.mem_cons_self)
        (fun s hs => hpieces s (List.mem_append_left _ hs)) htext hcomplex
        fun hfirst => (hroot hfirst).1
    have hrest := ih hplace (fun c' hc' => hw c' (List.mem_cons_of_mem c hc'))
      (by rw [hpen, hsize]; exact fun s hs => hpieces s (List.mem_append_right _ hs))
      (by rwa [hsize]) (hroot.next hpen)
    rw [hpen, hsize] at hrest
    obtain ⟨buffers', q, hemits', hstate, hstack, hq, hall⟩ := hrest
    refine ⟨buffers ++ buffers', q, hemits.trans hemits', hstate, hstack, hq, ?_⟩
    rw [hpack, hall, List.append_assoc]

/-- The first call is for the element of the object. -/
theorem documentCalls_root (hS : S.Generated) (htype : type < S.length)
    (hconforms : ConformsTo S m obj type) :
    (∃ rest, documentCalls S m obj type = .event .seComplex type :: rest) ∨
      ∃ w, documentCalls S m obj type =
        [.event .seSimple type, .value type w, .event .eeEvent type] := by
  obtain ⟨hmin, hmax, hattribute, hunbounded⟩ := hS.root type htype
  have hone : (S.occurrences m obj (S.element type)).length = 1 := by
    have hleast := hconforms.1.least hattribute
    have hmost := hconforms.1.most hattribute hunbounded
    omega
  obtain ⟨x, hx⟩ := List.length_eq_one_iff.1 hone
  have hvisits : document S m obj type = .enter type x ::
      (insideVisits S m (contents S m maxStack) type 0 x ++ [.leave type]) := by
    rw [document, entryVisits, hattribute, if_neg Bool.false_ne_true, hx, occurrencesVisits_cons,
      occurrencesVisits]
  rw [documentCalls, hvisits, insideVisits]
  cases hsimple : (S.element type).simple with
  | true =>
    right
    simp [Visit.calls, hsimple]
  | false =>
    left
    simp only [List.cons_append, List.flatMap_cons, Visit.calls, hsimple]
    exact ⟨_, rfl⟩

theorem documentCalls_writable (hw : ∀ v ∈ document S m obj type, v.Writable S) :
    ∀ c ∈ documentCalls S m obj type, c.Writable S := by
  intro c hc
  obtain ⟨v, hv, hcall⟩ := List.mem_flatMap.1 hc
  have hwritable := hw v hv
  rcases v with ⟨i, a, w⟩ | ⟨i, a⟩ | ⟨i, a, w⟩ | i
  · rcases List.mem_cons.1 hcall with rfl | hcall
    · trivial
    · obtain rfl := List.mem_singleton.1 hcall
      exact hwritable
  · obtain rfl := List.mem_singleton.1 hcall
    trivial
  · obtain rfl := List.mem_singleton.1 hcall
    exact hwritable
  · obtain rfl := List.mem_singleton.1 hcall
    trivial

/-- The last buffer, with a line break if there is room for it. -/
def ended (size : ℕ) (text : CString) : CString :=
  if text.length + 1 < size then text ++ [10] else text

/-- The buffers of `output_doc` are the pieces, packed. -/
theorem xmlOutputs_pack {size : ℕ} (hS : S.Generated) (htype : type < S.length)
    (hconforms : ConformsTo S m obj type) (hroomy : RoomyTo S m obj type)
    (hw : ∀ v ∈ document S m obj type, v.Writable S)
    (hpieces : ∀ s ∈ documentPieces S ns m obj type, s.length < size) (hsize : 0 < size)
    (buffers : List CString) :
    XmlOutputs S m ns obj type size buffers ↔
      ∃ full last, pack size [] (documentPieces S ns m obj type) = full ++ [last] ∧
        buffers = full ++ [ended size last] := by
  have hstart : step S m (xmlOutput S m ns) obj type { out := { size := size } } =
      .go ⟨.outputElement, type, [], obj, S.length, type, 0, true, { size := size }⟩ := by
    unfold Output.step
    dsimp only
    rw [if_neg (Nat.not_le.2 htype)]
  have hroot : AtRoot ⟨.outputElement, type, [], obj, S.length, type, 0, true, { size := size }⟩
      (documentCalls S m obj type) := by
    intro _
    refine ⟨rfl, ?_⟩
    rcases documentCalls_root hS htype hconforms with ⟨rest, hcalls⟩ | ⟨w, hcalls⟩
    · exact Or.inl ⟨⟨type, rest, hcalls⟩, rfl⟩
    · refine Or.inr fun j hj => ?_
      rw [hcalls] at hj
      simp at hj
  have hplace : (⟨.outputElement, type, [], obj, S.length, type, 0, true, { size := size }⟩ :
      Output XmlSink).SamePlace
        ⟨.outputElement, type, [], obj, S.length, type, 0, true, ()⟩ := ⟨rfl, rfl, rfl, rfl, rfl⟩
  obtain ⟨full, q, hemits, hstate, hstack, hq, hpack⟩ :=
    emits_remains (output_calls hS htype hconforms hroomy S.length type 0) hplace
      (documentCalls_writable hw) hpieces hsize hroot
  have hdone : step S m (xmlOutput S m ns) obj type q = .complete
      { (xmlOutput S m ns).outputDone q with state := .outputComplete } := by
    unfold Output.step
    rw [hstate, hstack]
  have hended : (q.out.outputChar 10).2.text = ended size q.out.text := by
    have hq : q.out.size = size := hq
    rw [outputChar_eq]
    unfold ended XmlSink.room
    rw [hq]
    by_cases hroom : q.out.text.length + 1 < size
    · rw [if_pos (by omega), if_pos hroom]
      rfl
    · rw [if_neg (by omega), if_neg hroom]
  constructor
  · rintro ⟨r, r', others, hothers, hlast, rfl⟩
    obtain ⟨rfl, rfl⟩ := (Emits.go hstart hemits).unique hdone hothers hlast
    refine ⟨full, q.out.text, hpack, ?_⟩
    rw [← hended]
    rfl
  · rintro ⟨full', last, hall, rfl⟩
    have hsame : full ++ [q.out.text] = full' ++ [last] := hpack.symm.trans hall
    obtain ⟨rfl, hlast⟩ := List.append_inj' hsame rfl
    obtain rfl := (List.cons.inj hlast).1
    refine ⟨q, _, full, .go hstart hemits, hdone, ?_⟩
    rw [← hended]
    rfl

/-- The pieces are put in buffers, with room for each of them. -/
theorem pieces_packed {size : ℕ} (hS : S.Generated) (htype : type < S.length)
    (hconforms : ConformsTo S m obj type)
    (hpieces : ∀ s ∈ documentPieces S ns m obj type, s.length < size) : 0 < size ∧
    ∃ full last, pack size [] (documentPieces S ns m obj type) = full ++ [last] ∧
      (∀ buffer ∈ full ++ [last], buffer.length < size) ∧
      (full ++ [last]).flatten = documentText S ns m obj type := by
  have hfirst : ∃ s, s ∈ documentPieces S ns m obj type := by
    unfold documentPieces
    rcases documentCalls_root hS htype hconforms with ⟨rest, hcalls⟩ | ⟨w, hcalls⟩
    · rw [hcalls]
      exact ⟨_, List.mem_append_left _ (List.mem_cons_self)⟩
    · rw [hcalls]
      exact ⟨_, List.mem_append_left _ (List.mem_cons_self)⟩
  obtain ⟨s, hs⟩ := hfirst
  have hsize : 0 < size := Nat.zero_lt_of_lt (hpieces s hs)
  have hempty : ([] : CString).length < size := hsize
  have hlength := length_pack hempty hpieces
  have hflatten := flatten_pack size [] (documentPieces S ns m obj type)
  obtain ⟨full, last, hpack⟩ : ∃ full last,
      pack size [] (documentPieces S ns m obj type) = full ++ [last] :=
    ⟨_, _, (List.dropLast_append_getLast pack_ne_nil).symm⟩
  rw [hpack] at hlength hflatten
  refine ⟨hsize, full, last, hpack, hlength, ?_⟩
  rw [hflatten, List.nil_append]
  rfl

/-- **However small the buffer is**, `output_doc` writes the same document, if the buffer has room
for each of its pieces; behind it there is a line break, if there is room for that in the last
buffer. -/
theorem document_in_buffers {size : ℕ} (hS : S.Generated) (htype : type < S.length)
    (hconforms : ConformsTo S m obj type) (hroomy : RoomyTo S m obj type)
    (hw : ∀ v ∈ document S m obj type, v.Writable S)
    (hpieces : ∀ s ∈ documentPieces S ns m obj type, s.length < size) :
    ∃ full last,
      (∀ buffers, XmlOutputs S m ns obj type size buffers ↔ buffers = full ++ [ended size last]) ∧
      (∀ buffer ∈ full ++ [ended size last], buffer.length < size) ∧
      (full ++ [last]).flatten = documentText S ns m obj type ∧
      ((documentText S ns m obj type).length < size → full = []) := by
  obtain ⟨hsize, full, last, hpack, hlength, hflatten⟩ := pieces_packed hS htype hconforms hpieces
  have hiff := xmlOutputs_pack hS htype hconforms hroomy hw hpieces hsize
  have hlast : (ended size last).length < size := by
    unfold ended
    split
    · rwa [List.length_append]
    · exact hlength last (by simp)
  refine ⟨full, last, fun buffers => ?_, fun buffer hbuffer => ?_, hflatten, fun hfits => ?_⟩
  · rw [hiff buffers]
    constructor
    · rintro ⟨full', last', hpack', rfl⟩
      obtain ⟨rfl, hsame⟩ := List.append_inj' (hpack.symm.trans hpack') rfl
      rw [(List.cons.inj hsame).1]
    · rintro rfl
      exact ⟨full, last, hpack, rfl⟩
  · rcases List.mem_append.1 hbuffer with hbuffer | hbuffer
    · exact hlength buffer (List.mem_append_left _ hbuffer)
    · rw [List.mem_singleton.1 hbuffer]
      exact hlast
  · have hall : pack size [] (documentPieces S ns m obj type) = [documentText S ns m obj type] :=
      pack_one (by rw [List.length_nil, Nat.zero_add]; exact hfits)
    rw [hpack] at hall
    exact (List.append_inj' (hall.trans (List.nil_append _).symm) rfl).1

end Document

theorem resourceHeap_roomy : RoomyTo namedNotification resourceHeap ⟨0, 0⟩ 0 := by
  intro x hx _
  refine ⟨by decide, ?_⟩
  show Roomy namedNotification resourceHeap (31 + 1) 2 x
  intro j hj hlt _
  have hlt : j < 4 := hlt
  refine ⟨by decide, fun y _ hcomplex => ?_⟩
  interval_cases j
  · exact absurd hcomplex (by decide)
  · exact absurd hcomplex (by decide)

theorem resourceHeap_writable :
    ∀ v ∈ document namedNotification resourceHeap ⟨0, 0⟩ 0, v.Writable namedNotification := by
  have hdocument : document namedNotification resourceHeap ⟨0, 0⟩ 0 =
      [.enter 0 ⟨0, 0⟩, .enter 2 ⟨0, 8⟩, .text 2 ⟨0, 8⟩ (.value (.text (chars ['x']))), .leave 2,
        .enter 3 ⟨0, 4⟩, .text 3 ⟨0, 4⟩ (.value (.number 7)), .leave 3, .leave 0] := rfl
  have huri : (namedNotification.element 2).Writable (.value (.text (chars ['x']))) := by
    refine ⟨by decide, fun _ => ⟨['x'], rfl, fun c hc => ?_⟩, fun htype => absurd htype (by decide)⟩
    rw [List.mem_singleton.1 hc]
    exact ⟨Or.inr (Or.inr (Or.inr (Or.inl (by decide)))), by decide⟩
  have hstatus : (namedNotification.element 3).Writable (.value (.number 7)) :=
    ⟨by decide, fun htype => absurd htype (by decide), fun htype => absurd htype (by decide)⟩
  rw [hdocument]
  simp only [List.forall_mem_cons]
  exact ⟨trivial, trivial, huri, trivial, trivial, hstatus, trivial, trivial, by simp⟩

/-- A notification in buffers of seven bytes. -/
theorem notification_in_buffers :
    ∃ full last, (∀ buffers, XmlOutputs namedNotification resourceHeap none ⟨0, 0⟩ 0 7 buffers ↔
        buffers = full ++ [ended 7 last]) ∧
      (∀ buffer ∈ full ++ [ended 7 last], buffer.length < 7) ∧
      (full ++ [last]).flatten = documentText namedNotification none resourceHeap ⟨0, 0⟩ 0 ∧
      ((documentText namedNotification none resourceHeap ⟨0, 0⟩ 0).length < 7 → full = []) :=
  document_in_buffers namedNotification_generated (by decide) resourceHeap_conforms
    resourceHeap_roomy resourceHeap_writable (by decide)

end SeClient
