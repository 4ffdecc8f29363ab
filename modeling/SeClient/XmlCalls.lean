import SeClient.XmlPieces

/-!
# What a call of the XML driver writes

A call of the XML driver writes its piece if there is room for it, and nothing otherwise.  Where a
tag has still to be closed, that is a piece of its own.
-/

namespace SeClient
open Output
variable {S : Schema} {m : Heap} {ns : Option CString}

/-! ## The functions of the driver -/

section Driver
variable {o : Output XmlSink} {w : Stored} {a : Addr} {i : ℕ} {s : CString}

/-- The output with more text. -/
def Output.put (o : Output XmlSink) (s : CString) : Output XmlSink := { o with out := o.out.put s }

/-- `output_value` writes the text of the value, or nothing. -/
theorem xmlOutputStored_eq (hw : (S.element o.se).Writable w) (hroom : 0 < o.out.room) :
    xmlOutputStored S o w =
      if ((S.element o.se).valueText w).length < o.out.room then
        (true, o.put ((S.element o.se).valueText w))
      else (false, o) := by
  have hescaped : ∀ l, (S.element o.se).writtenString w = some (utf8 l) →
      (∀ c ∈ l, XmlChar c ∧ Read c.toNat) →
      o.out.outputEscaped ((S.element o.se).writtenString w) =
        if ((((S.element o.se).writtenString w).map escapedText).getD []).length < o.out.room then
          (true, o.out.put ((((S.element o.se).writtenString w).map escapedText).getD []))
        else (false, o.out) := by
    intro l hl hread
    rw [hl, Option.map_some, Option.getD_some, escapedText_utf8 hread]
    unfold XmlSink.outputEscaped
    dsimp only
    rw [outputEscaped_read _ hread]
    by_cases hfits : (escape l).length < o.out.room
    · rw [if_pos (Or.inr hfits), if_pos hfits]
    · have hne : ¬(l = [] ∨ (escape l).length < o.out.room) := by
        rintro (rfl | h)
        · exact hfits hroom
        · exact hfits h
      rw [if_neg hne, if_neg hfits]
  have hstring : ∀ s : CString, s ≠ [] → o.out.outputString s =
      if s.length < o.out.room then (true, o.out.put s) else (false, o.out) :=
    fun s hs => outputString_eq hs
  unfold xmlOutputStored SchemaElement.valueText
  dsimp only
  cases htype : (S.element o.se).xsType with
  | null => exact absurd htype hw.type
  | string =>
    obtain ⟨l, hl, hread⟩ := hw.string (Or.inl htype)
    dsimp only
    rw [hescaped l hl hread]
    split <;> rfl
  | anyURI =>
    obtain ⟨l, hl, hread⟩ := hw.string (Or.inr htype)
    dsimp only
    rw [hescaped l hl hread]
    split <;> rfl
  | boolean =>
    have hne : (if w = .flag then chars ['t', 'r', 'u', 'e']
        else chars ['f', 'a', 'l', 's', 'e']) ≠ [] := by
      split <;> decide
    dsimp only
    rw [hstring _ hne]
    generalize (if w = .flag then chars ['t', 'r', 'u', 'e']
      else chars ['f', 'a', 'l', 's', 'e']) = v
    split <;> rfl
  | hexBinary =>
    dsimp only
    have hlength : (hexBytes ((S.element o.se).writtenBytes w)).length =
        (significant ((S.element o.se).writtenBytes w)).length * 2 := by
      unfold hexBytes
      induction significant ((S.element o.se).writtenBytes w) with
      | nil => rfl
      | cons b bs ih =>
        rw [List.flatMap_cons, List.length_append, ih]
        simp only [List.length_cons, List.length_nil]
        omega
    unfold XmlSink.outputHex SeClient.outputHex
    rw [hlength]
    by_cases hfits : (significant ((S.element o.se).writtenBytes w)).length * 2 < o.out.room
    · rw [if_neg (Nat.not_le.2 hfits), if_pos hfits]
      rfl
    · rw [if_pos (Nat.not_lt.1 hfits), if_neg hfits]
  | _ =>
    dsimp only
    rw [hstring _ (decimalText_ne_nil _)]
    split <;> rfl

/-- `output_quoted` writes the value in quotes, or nothing. -/
theorem xmlOutputQuoted_eq (hw : (S.element o.se).Writable
      (m.load (S.element o.se).xsType a o.flag)) :
    xmlOutputQuoted S m o a =
      if (34 :: ((S.element o.se).valueText (m.load (S.element o.se).xsType a o.flag) ++
          [34])).length < o.out.room then
        (true, o.put (34 :: ((S.element o.se).valueText
          (m.load (S.element o.se).xsType a o.flag) ++ [34])))
      else (false, o) := by
  generalize hv : (S.element o.se).valueText (m.load (S.element o.se).xsType a o.flag) = v
  have hlength : (34 :: (v ++ [34])).length = v.length + 2 := by simp
  rw [hlength]
  unfold xmlOutputQuoted
  rw [outputChar_eq]
  by_cases hquote : 1 < o.out.room
  · have hvalue : xmlOutputValue S m { o with out := o.out.put [34] } a =
        if v.length < o.out.room - 1 then (true, { o with out := o.out.put (34 :: v) })
        else (false, { o with out := o.out.put [34] }) := by
      have hstored := xmlOutputStored_eq (o := { o with out := o.out.put [34] }) hw
        (by simp only [XmlSink.room_put, List.length_singleton]; omega)
      dsimp only at hstored
      rw [hv, XmlSink.room_put, Output.put, XmlSink.put_put, List.singleton_append] at hstored
      exact hstored
    rw [if_pos hquote]
    dsimp only
    rw [if_pos rfl, hvalue]
    by_cases hfits : v.length < o.out.room - 1
    · rw [if_pos hfits]
      dsimp only
      rw [if_pos rfl, outputChar_eq, XmlSink.room_put, List.length_cons]
      by_cases hall : v.length + 2 < o.out.room
      · rw [if_pos (show 1 < o.out.room - (v.length + 1) by omega), if_pos hall]
        simp [Output.put]
      · rw [if_neg (show ¬1 < o.out.room - (v.length + 1) by omega), if_neg hall]
        rfl
    · rw [if_neg hfits, if_neg (show ¬v.length + 2 < o.out.room by omega)]
      rfl
  · rw [if_neg hquote, if_neg (by omega)]
    rfl

/-- The output with another pen. -/
def Output.withPen (o : Output XmlSink) (pen : Pen) : Output XmlSink :=
  { o with first := pen.first, out := { o.out with indent := pen.indent, isOpen := pen.isOpen } }

/-- The second part of `output_event` writes one piece, or nothing. -/
theorem xmlOutputTag_eq {e : OutputEvent} (hi : o.eventEntry e = i)
    (hclosed : e = .seSimple ∨ e = .seComplex → o.out.isOpen = false)
    (hone : (DriverCall.event e i).pieces S ns o.pen = [s])
    (hroot : e = .seComplex → o.first = true → s.length < o.out.room) :
    xmlOutputTag S ns o (S.element i) e =
      if s.length < o.out.room then
        (true, (o.put s).withPen ((DriverCall.event e i).after S o.pen))
      else (false, o) := by
  unfold xmlOutputTag
  rw [hi]
  cases e with
  | eeEvent =>
    dsimp only [DriverCall.pieces, DriverCall.after, Output.pen] at hone ⊢
    by_cases hopen : o.out.isOpen = true
    · rw [if_pos hopen] at hone ⊢
      obtain rfl := List.singleton_inj.1 hone
      rw [outputString_eq (by decide), if_pos hopen]
      split <;> rfl
    · rw [if_neg hopen] at hone ⊢
      by_cases hsimple : (S.element i).simple = true
      · rw [if_pos hsimple] at hone ⊢
        obtain rfl := List.singleton_inj.1 hone
        rw [outputString_eq (by simp), if_neg hopen, if_pos hsimple]
        split <;> rfl
      · rw [if_neg hsimple] at hone ⊢
        have hbreak : { o.out with indent := o.out.indent - 2 }.outputBreak o.first
            (60 :: 47 :: (S.nameOf i ++ [62])) = if s.length < o.out.room then
              (true, { o.out.put s with indent := o.out.indent - 2 })
            else (false, { o.out with indent := o.out.indent - 2 }) := by
          rw [outputBreak_eq, List.singleton_inj.1 hone]
          rfl
        rw [hbreak, if_neg hopen, if_neg hsimple]
        split <;> rfl
  | atEvent =>
    dsimp only [DriverCall.pieces, DriverCall.after, Output.pen] at hone ⊢
    obtain rfl := List.singleton_inj.1 hone
    rw [outputString_eq (by simp)]
    split <;> rfl
  | seSimple =>
    have hopen : o.out.isOpen = false := hclosed (Or.inl rfl)
    dsimp only [DriverCall.pieces, DriverCall.after, Output.pen] at hone ⊢
    rw [hopen, if_neg Bool.false_ne_true] at hone
    obtain rfl := List.singleton_inj.1 hone
    rw [outputBreak_eq, hopen]
    split
    · simp [Output.put, Output.withPen, XmlSink.put, hopen]
    · rfl
  | seComplex =>
    have hopen : o.out.isOpen = false := hclosed (Or.inr rfl)
    have hroot := hroot rfl
    dsimp only [DriverCall.pieces, DriverCall.after, Output.pen] at hone ⊢
    rw [hopen, if_neg Bool.false_ne_true, List.nil_append] at hone
    obtain rfl := List.singleton_inj.1 hone
    rw [outputBreak_eq, hopen]
    cases hfirst : o.first with
    | false =>
      rw [if_neg Bool.false_ne_true, List.append_nil]
      by_cases hfits : (Pen.lead ⟨o.out.indent, false, false⟩ ++ 60 :: S.nameOf i).length <
          o.out.room
      · rw [if_pos hfits, if_pos hfits]
        cases ns with
        | none => simp [Output.put, Output.withPen, XmlSink.put]
        | some ns => simp [Output.put, Output.withPen, XmlSink.put]
      · rw [if_neg hfits, if_neg hfits]
        dsimp only
        rw [if_neg Bool.false_ne_true]
        exact congrArg (fun b => (false, { o with first := b })) hfirst.symm
    | true =>
      rw [hfirst] at hroot
      have hall := hroot rfl
      rw [if_pos rfl] at hall ⊢
      rw [if_pos hall]
      cases ns with
      | none =>
        simp only [Option.map_none, Option.getD_none, List.append_nil] at hall ⊢
        rw [if_pos hall]
        simp [Output.put, Output.withPen, XmlSink.put]
      | some ns =>
        simp only [Option.map_some, Option.getD_some] at hall ⊢
        have hname : (Pen.lead ⟨o.out.indent, false, true⟩ ++ 60 :: S.nameOf i).length <
            o.out.room := by
          simp only [List.length_append, List.length_cons] at hall ⊢
          omega
        have hns : (namespaceText ns).length <
            (o.out.put (Pen.lead ⟨o.out.indent, false, true⟩ ++ 60 :: S.nameOf i)).room := by
          rw [XmlSink.room_put]
          simp only [List.length_append, List.length_cons] at hall ⊢
          omega
        rw [if_pos hname]
        dsimp only
        rw [if_pos rfl, if_pos trivial, outputString_eq (by simp [namespaceText]), if_pos hns]
        simp [Output.put, Output.withPen, XmlSink.put]

/-- `output_event` writes one piece, or nothing, if no tag has to be closed before. -/
theorem xmlOutputEvent_one {e : OutputEvent} (hi : o.eventEntry e = i)
    (hone : (DriverCall.event e i).pieces S ns o.pen = [s])
    (hroot : e = .seComplex → o.first = true → s.length < o.out.room) :
    xmlOutputEvent S ns o (S.element i) e =
      if s.length < o.out.room then
        (true, (o.put s).withPen ((DriverCall.event e i).after S o.pen))
      else (false, o) := by
  have hclosed : e = .seSimple ∨ e = .seComplex → o.out.isOpen = false := by
    intro he
    by_contra hopen
    have hpen : o.pen.isOpen = true := (Bool.eq_false_or_eq_true _).resolve_right hopen
    rcases he with rfl | rfl <;> simp [DriverCall.pieces, hpen] at hone
  unfold xmlOutputEvent
  rw [if_neg (by rintro ⟨he, hopen⟩; exact Bool.false_ne_true ((hclosed he).symm.trans hopen))]
  exact xmlOutputTag_eq hi hclosed hone hroot

end Driver

/-! ## The calls -/

/-- What a call writes can be written. -/
def DriverCall.Writable (S : Schema) : DriverCall → Prop
  | .attrValue i w | .value i w => (S.element i).Writable w
  | .event _ _ => True

section Calls
variable {o : Output XmlSink} {c : DriverCall} {s : CString}

@[simp] theorem Output.pen_withPen {pen : Pen} : (o.withPen pen).pen = pen := rfl

@[simp] theorem Output.pen_put : (o.put s).pen = o.pen := rfl

/-- The next call of `output_doc`. -/
theorem attempt_xmlOutput (hcall : o.call S m = some c) :
    o.attempt S (xmlOutput S m ns) = succeeded (xmlAttempt S m ns o) := by
  unfold Output.call at hcall
  unfold Output.attempt xmlAttempt
  cases hs : o.state with
  | outputEnd =>
    cases hstack : o.stack with
    | nil => simp [hs, hstack] at hcall
    | cons t stack => simp [Output.eventEntry, hstack, xmlOutput]
  | outputComplex =>
    cases hstack : o.stack with
    | nil => simp [hs, hstack] at hcall
    | cons t stack => simp [Output.eventEntry, hstack, xmlOutput]
  | outputAttribute => rfl
  | outputAttrValue => rfl
  | outputSimple => rfl
  | outputValue => rfl
  | _ => simp [hs] at hcall

/-- A call that writes one piece. -/
theorem xmlAttempt_one (hcall : o.call S m = some c) (hroom : 0 < o.out.room)
    (hw : c.Writable S) (hone : c.pieces S ns o.pen = [s])
    (hroot : ∀ j, c = .event .seComplex j → o.first = true → s.length < o.out.room) :
    xmlAttempt S m ns o =
      if s.length < o.out.room then (true, (o.put s).withPen (c.after S o.pen))
      else (false, o) := by
  unfold Output.call at hcall
  unfold xmlAttempt
  cases hs : o.state with
  | outputAttribute =>
    rw [hs] at hcall
    obtain rfl := Option.some.inj hcall
    exact xmlOutputEvent_one rfl hone (by simp)
  | outputAttrValue =>
    rw [hs] at hcall
    obtain rfl := Option.some.inj hcall
    obtain rfl := List.singleton_inj.1 hone
    exact xmlOutputQuoted_eq hw
  | outputSimple =>
    rw [hs] at hcall
    obtain rfl := Option.some.inj hcall
    exact xmlOutputEvent_one rfl hone (by simp)
  | outputValue =>
    rw [hs] at hcall
    obtain rfl := Option.some.inj hcall
    obtain rfl := List.singleton_inj.1 hone
    exact xmlOutputStored_eq hw hroom
  | outputEnd =>
    rw [hs] at hcall
    obtain ⟨t, ht, rfl⟩ := Option.map_eq_some_iff.1 hcall
    have hi : o.eventEntry .eeEvent = t.se := by simp [Output.eventEntry, ht]
    dsimp only
    rw [hi]
    exact xmlOutputEvent_one hi hone (by simp)
  | outputComplex =>
    rw [hs] at hcall
    obtain ⟨t, ht, rfl⟩ := Option.map_eq_some_iff.1 hcall
    have hi : o.eventEntry .seComplex = t.se := by simp [Output.eventEntry, ht]
    dsimp only
    rw [hi]
    exact xmlOutputEvent_one hi hone fun _ => hroot _ rfl
  | _ =>
    rw [hs] at hcall
    simp at hcall

/-- The output after the tag before was closed. -/
def Output.closeTag (o : Output XmlSink) : Output XmlSink :=
  (o.put [62]).withPen { o.pen with isOpen := false }

/-- A call writes one piece, or closes the tag before and then writes one. -/
theorem pieces_cases (S : Schema) (ns : Option CString) (c : DriverCall) (pen : Pen) :
    (∃ s, c.pieces S ns pen = [s]) ∨
    (∃ e i, c = .event e i ∧ (e = .seSimple ∨ e = .seComplex) ∧ pen.isOpen = true ∧
      ∃ s, c.pieces S ns { pen with isOpen := false } = [s] ∧ c.pieces S ns pen = [[62], s] ∧
        c.after S { pen with isOpen := false } = c.after S pen) := by
  cases c with
  | attrValue i w => exact Or.inl ⟨_, rfl⟩
  | value i w => exact Or.inl ⟨_, rfl⟩
  | event e i =>
    cases e with
    | atEvent => exact Or.inl ⟨_, rfl⟩
    | eeEvent =>
      left
      unfold DriverCall.pieces
      dsimp only
      split
      · exact ⟨_, rfl⟩
      · split <;> exact ⟨_, rfl⟩
    | seSimple =>
      cases hopen : pen.isOpen with
      | false => exact Or.inl ⟨_, by simp only [DriverCall.pieces, hopen]; rfl⟩
      | true =>
        refine Or.inr ⟨_, i, rfl, Or.inl rfl, rfl, _, rfl, ?_, rfl⟩
        simp only [DriverCall.pieces, hopen]
        rfl
    | seComplex =>
      cases hopen : pen.isOpen with
      | false => exact Or.inl ⟨_, by simp only [DriverCall.pieces, hopen]; rfl⟩
      | true =>
        refine Or.inr ⟨_, i, rfl, Or.inr rfl, rfl, _, rfl, ?_, rfl⟩
        simp only [DriverCall.pieces, hopen]
        rfl

/-- A call that has to close the tag before. -/
theorem xmlAttempt_open {e : OutputEvent} {i : ℕ} (hcall : o.call S m = some (.event e i))
    (he : e = .seSimple ∨ e = .seComplex) (hopen : o.out.isOpen = true) :
    xmlAttempt S m ns o =
      if 1 < o.out.room then xmlAttempt S m ns o.closeTag else (false, o) := by
  have hevent : ∀ se, xmlOutputEvent S ns o se e =
      if 1 < o.out.room then xmlOutputEvent S ns o.closeTag se e else (false, o) := by
    intro se
    unfold xmlOutputEvent
    rw [if_pos ⟨he, hopen⟩, outputChar_eq]
    by_cases hroom : 1 < o.out.room
    · rw [if_pos hroom, if_pos hroom]
      have hclosed : ¬((e = .seSimple ∨ e = .seComplex) ∧ o.closeTag.out.isOpen = true) :=
        fun h => Bool.false_ne_true h.2
      rw [if_neg hclosed]
      rfl
    · rw [if_neg hroom, if_neg hroom]
      rfl
  unfold Output.call at hcall
  unfold xmlAttempt
  have hstate : o.closeTag.state = o.state := rfl
  rw [hstate]
  cases hs : o.state with
  | outputSimple =>
    rw [hs] at hcall
    cases hcall
    exact hevent _
  | outputComplex =>
    rw [hs] at hcall
    obtain ⟨t, ht, hevents⟩ := Option.map_eq_some_iff.1 hcall
    cases hevents
    exact hevent _
  | outputAttribute =>
    rw [hs] at hcall
    cases hcall
    simp at he
  | outputEnd =>
    rw [hs] at hcall
    obtain ⟨t, ht, hevents⟩ := Option.map_eq_some_iff.1 hcall
    cases hevents
    simp at he
  | _ =>
    rw [hs] at hcall
    simp at hcall

end Calls
end SeClient
