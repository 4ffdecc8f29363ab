import SeClient.HostAddresses
import SeClient.XmlOutput

/-!
# The pieces of a document

Each call of the XML driver writes one piece of the document, or two, if the tag before is still
open.  What they are depends on the calls before only by the indentation, and by whether a tag is
open and whether the first one was written.
-/

namespace SeClient

/-- What the next piece depends on. -/
structure Pen where
  indent : ℕ := 0
  isOpen : Bool := false
  first : Bool := true
deriving DecidableEq, Repr

def Output.pen (o : Output XmlSink) : Pen := ⟨o.out.indent, o.out.isOpen, o.first⟩

/-- The line break before a tag. -/
def Pen.lead (pen : Pen) : CString := if pen.first then [] else 10 :: List.replicate pen.indent 32

/-- What is written of a string. -/
def escapedText (s : CString) : CString :=
  match outputEscaped (6 * s.length + 1) s with
  | .done out => out
  | _ => []

/-- What is written of bytes. -/
def hexBytes (value : List UInt8) : CString :=
  (significant value).flatMap fun x => [hexChar (x.toNat >>> 4), hexChar (x.toNat &&& 0xf)]

/-- What is written of what is stored for an entry. -/
def SchemaElement.valueText (se : SchemaElement) (w : Stored) : CString :=
  match se.xsType with
  | .string | .anyURI => ((se.writtenString w).map escapedText).getD []
  | .boolean => if w = .flag then chars ['t', 'r', 'u', 'e'] else chars ['f', 'a', 'l', 's', 'e']
  | .hexBinary => hexBytes (se.writtenBytes w)
  | .null => []
  | _ => decimalText w.writtenNumber

section Pieces
variable (S : Schema) (ns : Option CString)

/-- The pieces of a call. -/
def DriverCall.pieces (pen : Pen) : DriverCall → List CString
  | .event .atEvent i => [32 :: (S.nameOf i ++ [61])]
  | .event .seSimple i =>
    (if pen.isOpen then [[62]] else []) ++ [pen.lead ++ 60 :: (S.nameOf i ++ [62])]
  | .event .seComplex i =>
    (if pen.isOpen then [[62]] else []) ++ [pen.lead ++ 60 :: (S.nameOf i ++
      if pen.first then (ns.map namespaceText).getD [] else [])]
  | .event .eeEvent i =>
    if pen.isOpen then [[47, 62]]
    else if (S.element i).simple then [60 :: 47 :: (S.nameOf i ++ [62])]
    else [{ pen with indent := pen.indent - 2 }.lead ++ 60 :: 47 :: (S.nameOf i ++ [62])]
  | .attrValue i w => [34 :: ((S.element i).valueText w ++ [34])]
  | .value i w => [(S.element i).valueText w]

/-- The pen after a call. -/
def DriverCall.after (pen : Pen) : DriverCall → Pen
  | .event .seSimple _ => { pen with isOpen := false }
  | .event .seComplex _ => ⟨pen.indent + 2, true, false⟩
  | .event .eeEvent i =>
    if pen.isOpen then { pen with isOpen := false, indent := pen.indent - 2 }
    else if (S.element i).simple then pen
    else { pen with indent := pen.indent - 2 }
  | _ => pen

/-- The pieces of calls. -/
def piecesOf : Pen → List DriverCall → List CString
  | _, [] => []
  | pen, c :: cs => c.pieces S ns pen ++ piecesOf (c.after S pen) cs

/-- The pieces of the document of an object. -/
def documentPieces (m : Heap) (obj : Addr) (type : ℕ) : List CString :=
  piecesOf S ns {} (documentCalls S m obj type)

/-- The text of the document of an object, up to the last line break. -/
def documentText (m : Heap) (obj : Addr) (type : ℕ) : CString :=
  (documentPieces S ns m obj type).flatten

end Pieces

/-- What is stored can be written for the entry. -/
structure SchemaElement.Writable (se : SchemaElement) (w : Stored) : Prop where
  type : se.xsType ≠ .null
  string : se.xsType = .string ∨ se.xsType = .anyURI → ∃ l, se.writtenString w = some (utf8 l) ∧
    ∀ c ∈ l, XmlChar c ∧ Read c.toNat
  bytes : se.xsType = .hexBinary → se.writtenBytes w ≠ []

/-- What a visit writes can be written. -/
def Visit.Writable (S : Schema) : Visit → Prop
  | .attribute i _ w | .text i _ w => (S.element i).Writable w
  | _ => True

/-! ## What is written -/

section Written
variable {o : XmlSink} {s : CString}

@[simp] theorem XmlSink.room_put : (o.put s).room = o.room - s.length := by
  simp only [XmlSink.room, XmlSink.put, List.length_append]
  omega

@[simp] theorem XmlSink.put_put {t : CString} : (o.put s).put t = o.put (s ++ t) := by
  simp only [XmlSink.put, List.append_assoc]

theorem outputChar_eq (c : UInt8) :
    o.outputChar c = if 1 < o.room then (true, o.put [c]) else (false, o) := by
  unfold XmlSink.outputChar XmlSink.room
  by_cases hroom : o.text.length + 1 < o.size
  · rw [if_pos hroom, if_pos (by omega)]
  · rw [if_neg hroom, if_neg (by omega)]

theorem outputString_eq (hs : s ≠ []) :
    o.outputString s = if s.length < o.room then (true, o.put s) else (false, o) := by
  unfold XmlSink.outputString
  by_cases hroom : s.length < o.room
  · rw [if_neg (Nat.not_le.2 hroom), if_pos hroom]
    simp [hs]
  · rw [if_pos (Nat.not_lt.1 hroom), if_neg hroom]

theorem outputBreak_eq (first : Bool) : o.outputBreak first s =
    if ((Pen.lead ⟨o.indent, o.isOpen, first⟩) ++ s).length < o.room then
      (true, o.put (Pen.lead ⟨o.indent, o.isOpen, first⟩ ++ s))
    else (false, o) := by
  unfold XmlSink.outputBreak Pen.lead
  cases first with
  | true =>
    by_cases hroom : s.length < o.room
    · simp [hroom, Nat.not_le.2 hroom]
    · simp [hroom, Nat.not_lt.1 hroom]
  | false =>
    simp only [Bool.false_eq_true, if_false, XmlSink.room, XmlSink.put, List.length_append,
      List.length_cons, List.length_replicate, ge_iff_le]
    by_cases hbreak : o.size ≤ o.text.length + o.indent + 1
    · rw [if_pos hbreak, if_neg (by omega)]
    · rw [if_neg hbreak]
      by_cases hroom : o.indent + 1 + s.length < o.size - o.text.length
      · rw [if_neg (by omega), if_pos hroom, List.append_assoc]
      · rw [if_pos (by omega), if_neg hroom]

theorem escapeChar_length (n : ℕ) : (escapeChar n).length ≤ 6 * (utf8Bytes n).length := by
  by_cases hspecial : Special n
  · rcases hspecial with rfl | rfl | rfl | rfl <;> decide
  · rw [escapeChar_none hspecial]
    omega

theorem escape_length (l : List Char) : (escape l).length ≤ 6 * (utf8 l).length := by
  induction l with
  | nil => exact Nat.zero_le _
  | cons c l ih =>
    have hchar := escapeChar_length c.toNat
    simp only [escape, utf8, List.flatMap_cons, List.length_append, utf8EncodeChar_eq] at ih ⊢
    omega

theorem escapedText_utf8 {l : List Char} (hl : ∀ c ∈ l, XmlChar c ∧ Read c.toNat) :
    escapedText (utf8 l) = escape l := by
  have hlength := escape_length l
  unfold escapedText
  rw [outputEscaped_read _ hl, if_pos (Or.inr (by omega))]

theorem decimalText_ne_nil (z : ℤ) : decimalText z ≠ [] := by
  unfold decimalText
  by_cases hsign : z < 0
  · simp [hsign]
  · by_cases hzero : z.natAbs = 0
    · simp [hsign, hzero]
    · simp [hsign, hzero, Nat.digits_ne_nil_iff_ne_zero]

end Written
end SeClient
