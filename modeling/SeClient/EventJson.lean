import Mathlib.Algebra.Order.Field.Rat
import SeClient.Json
import SeClient.StringTable
import SeClient.TextPipe

/-!
# Events for the gateway

`emit_event_json` and `emit_default_control_json` of `der_client.c` print an event on a line of
JSON, and `EpriClient.events` of `gateway/client.py` reads the lines of the pipe.  The description
is printed as the server sent it.
-/

namespace SeClient
open Json TextPipe

/-! ## The objects -/

/-- `SE_ActivePower_t`, `SE_ReactivePower_t` -/
structure Power where
  multiplier : Int8
  value : Int16

/-- `SE_FixedVar_t` -/
structure FixedVar where
  refType : UInt8
  value : Int16

/-- `SE_DERControlBase_t`, with the values of the modes that are printed. -/
structure ControlBase where
  flags : BitVec 32
  opModFixedVar : FixedVar
  opModFixedW : Int16
  opModMaxLimW : UInt16
  opModTargetVar : Power
  opModTargetW : Power
  rampTms : UInt16

/-- An Event: of a DERControl also its `DERControlBase`. -/
structure EventObject where
  mRID : Vector UInt8 16
  description : CString
  controlBase : Option ControlBase

/-- `SE_DefaultDERControl_t` -/
structure DefaultControl where
  mRID : Vector UInt8 16
  description : CString
  controlBase : ControlBase

/-- The `type` of an event. -/
inductive Edge
  | start
  | ended

/-- What is emitted. -/
inductive Emission
  | event (edge : Edge) (ev : EventObject)
  | defaultControl (dc : DefaultControl)

/-- The fields of a `DERControlBase` that are printed. -/
inductive Mode
  | fixedW | maxLimW | targetW | fixedVar | targetVar | rampTms | connect | energize
deriving DecidableEq

namespace Mode

def key : Mode → Json.Text
  | fixedW => text "opModFixedW"
  | maxLimW => text "opModMaxLimW"
  | targetW => text "opModTargetW"
  | fixedVar => text "opModFixedVar"
  | targetVar => text "opModTargetVar"
  | rampTms => text "rampTms"
  | connect => text "opModConnect"
  | energize => text "opModEnergize"

/-- The bit of the `_exists` flag. -/
def bit : Mode → ℕ
  | fixedW => 16
  | maxLimW => 7
  | targetW => 5
  | fixedVar => 17
  | targetVar => 6
  | rampTms => 0
  | connect => 22
  | energize => 20

end Mode

/-- The modes of a `DERControlBase` that are not printed, with the bits of their flags. -/
def unprinted : List (Json.Text × ℕ) :=
  [(text "opModWattVar", 1), (text "opModWattPF", 2), (text "opModVoltWatt", 3),
    (text "opModVoltVar", 4), (text "opModLVRTMustTrip", 8),
    (text "opModLVRTMomentaryCessation", 9), (text "opModLFRTMustTrip", 10),
    (text "opModHVRTMustTrip", 11), (text "opModHVRTMomentaryCessation", 12),
    (text "opModHFRTMustTrip", 13), (text "opModFreqWatt", 14), (text "opModFreqDroop", 15),
    (text "opModFixedPF", 18)]

namespace ControlBase
variable (b : ControlBase)

/-- `_flags & SE_..._exists` -/
def has (m : Mode) : Bool := b.flags.getLsbD m.bit

/-- What `printf` prints of a field. -/
def printed : Mode → Json.Text
  | .fixedW => signed b.opModFixedW.toInt
  | .maxLimW => digits b.opModMaxLimW.toNat
  | .targetW => signed b.opModTargetW.value.toInt
  | .fixedVar => signed b.opModFixedVar.value.toInt
  | .targetVar => signed b.opModTargetVar.value.toInt
  | .rampTms => digits b.rampTms.toNat
  | .connect => bool (b.flags.getLsbD 21)
  | .energize => bool (b.flags.getLsbD 19)

end ControlBase

/-! ## `der_client.c` -/

/-- The order in which `emit_control_base` prints. -/
def emitOrder : List Mode :=
  [.fixedW, .maxLimW, .targetW, .fixedVar, .targetVar, .rampTms, .connect, .energize]

/-- One field of `emit_control_base`, after what is printed and `first`. -/
def emitField (b : ControlBase) (st : Json.Text × Bool) (m : Mode) : Json.Text × Bool :=
  if b.has m then
    (st.1 ++ (if st.2 then [] else text ",") ++ text "\"" ++ m.key ++ text "\":" ++ b.printed m,
      false)
  else st

/-- `emit_control_base` -/
def emitControlBase (b : ControlBase) : Json.Text × Bool := emitOrder.foldl (emitField b) ([], true)

/-- `%02x` -/
def hexByte (b : UInt8) : Json.Text :=
  let hex := fun n : ℕ => if n < 10 then 48 + n else 87 + n
  [hex (b.toNat / 16), hex (b.toNat % 16)]

def Edge.name : Edge → Json.Text
  | start => text "start"
  | ended => text "end"

/-- The `control` of `emit_event_json`, of a DERControl that starts. -/
def emitControl : Edge → Option ControlBase → Json.Text
  | .start, some b => text ",\"control\":\x7b" ++ (emitControlBase b).1 ++ text "\x7d"
  | _, _ => []

/-- `emit_event_json`, of a device with this SFDI. -/
def emitEventJson (sfdi : UInt64) (ev : EventObject) (edge : Edge) : List UInt8 :=
  encode (text "EVENT_JSON:\x7b\"type\":\"" ++ edge.name ++ text "\",\"sfdi\":" ++
    digits sfdi.toNat ++ text ",\"mrid\":\"" ++ ev.mRID.toList.flatMap hexByte ++ text "\"" ++
    text ",\"description\":\"") ++
  (ev.description ++
    encode (text "\"" ++ emitControl edge ev.controlBase ++ text "\x7d\n"))

/-- `emit_default_control_json` -/
def emitDefaultControlJson (sfdi : UInt64) (dc : DefaultControl) : List UInt8 :=
  encode (text "EVENT_JSON:\x7b\"type\":\"default_control\",\"sfdi\":" ++ digits sfdi.toNat ++
    text ",\"description\":\"") ++
  (dc.description ++
    encode (text "\"" ++ text ",\"control\":\x7b" ++ (emitControlBase dc.controlBase).1 ++
      text "\x7d\x7d\n"))

def Emission.emit (sfdi : UInt64) : Emission → List UInt8
  | event edge ev => emitEventJson sfdi ev edge
  | defaultControl dc => emitDefaultControlJson sfdi dc

/-! ## `gateway/client.py` -/

/-- `EVENT_PREFIX` -/
def eventPrefix : Json.Text := text "EVENT_JSON:"

/-- What a generator yields, and whether an exception ends it. -/
structure Yields where
  events : List (List (Json.Text × Json.Value))
  raised : Bool

/-- The loop of `EpriClient.events`. -/
def eventLoop : List Json.Text → Yields
  | [] => ⟨[], false⟩
  | line :: ls =>
    if eventPrefix.isPrefixOf line then
      match loads (line.drop eventPrefix.length) with
      -- `json.JSONDecodeError`
      | none => eventLoop ls
      | some (.obj event) => ⟨event :: (eventLoop ls).events, (eventLoop ls).raised⟩
      -- `event.get` of what is no dictionary
      | some _ => ⟨[], true⟩
    else eventLoop ls

/-- `EpriClient.events`, of the output of the client. -/
def events (out : List UInt8) : Yields :=
  match decode out with
  -- `UnicodeDecodeError`
  | none => ⟨[], true⟩
  | some t => eventLoop (lines t)

/-! ## A line with raw bytes in it -/

/-- A line up to the description of an event that has these members in front of it. -/
def before (pre : List Member) : Json.Text :=
  eventPrefix ++ 123 :: (joined pre ++ 44 :: (quoted (text "description") ++ [58, 34]))

/-- The rest of the line. -/
def after (post : List Member) : Json.Text := 34 :: (behind post ++ [125, 10])

def rawLine (pre : List Member) (x : CString) (post : List Member) : List UInt8 :=
  encode (before pre) ++ (x ++ encode (after post))

/-- The description of an event. -/
def described (d : Json.Text) : Member := ⟨text "description", quoted d, .str d⟩

/-- A character of ASCII that is no control character and no backslash. -/
def Printable (c : ℕ) : Prop := 32 ≤ c ∧ c < 128 ∧ c ≠ 92

instance (c : ℕ) : Decidable (Printable c) := inferInstanceAs (Decidable (_ ∧ _))

def AllPrintable (ms : List Member) : Prop := ∀ m ∈ ms, ∀ c ∈ m.text, Printable c

section Line
variable {pre post : List Member} {x : CString} {d : Json.Text}

theorem printable_before (hpre : AllPrintable pre) : ∀ c ∈ before pre, Printable c := by
  have hcomma : Printable 44 := by decide
  have hkey : ∀ c ∈ quoted (text "description") ++ [58, 34], Printable c := by decide
  have hprefix : ∀ c ∈ eventPrefix, Printable c := by decide
  intro c hc
  rcases List.mem_append.mp hc with hc | hc
  · exact hprefix c hc
  rcases List.mem_cons.mp hc with rfl | hc
  · decide
  rcases List.mem_append.mp hc with hc | hc
  · exact joined_forall hcomma hpre c hc
  rcases List.mem_cons.mp hc with rfl | hc
  · exact hcomma
  · exact hkey c hc

theorem printable_after (hpost : AllPrintable post) :
    ∃ s, after post = 34 :: (s ++ [10]) ∧ ∀ c ∈ s, Printable c := by
  refine ⟨behind post ++ [125], by simp [after], fun c hc => ?_⟩
  rcases List.mem_append.mp hc with hc | hc
  · exact behind_forall (by decide) hpost c hc
  · rw [List.mem_singleton.mp hc]
    decide

theorem decode_rawLine (hpre : AllPrintable pre) (hpost : AllPrintable post) :
    decode (rawLine pre x post) = (decode x).map fun d => before pre ++ (d ++ after post) := by
  refine decode_between (fun c hc => (printable_before hpre c hc).2.1) (fun c hc => ?_)
    (List.cons_ne_nil _ _)
  obtain ⟨s, hs, hprintable⟩ := printable_after hpost
  rw [hs] at hc
  rcases List.mem_cons.mp hc with rfl | hc
  · decide
  rcases List.mem_append.mp hc with hc | hc
  · exact (hprintable c hc).2.1
  · rw [List.mem_singleton.mp hc]
    decide

variable (post) in
/-- The line is the object with the description in its place. -/
theorem rawLine_text (hne : pre ≠ []) :
    before pre ++ (d ++ after post) =
      eventPrefix ++ object (pre ++ described d :: post) ++ [10] := by
  rw [object, joined_append hne, behind, if_neg (List.cons_ne_nil _ _), joined_behind]
  simp [before, after, described, Member.text, quoted]

/-- **A plain description** is read back, with the members around it. -/
theorem events_rawLine (hne : pre ≠ []) (hpre : AllPrintable pre) (hpost : AllPrintable post)
    (hgood : ∀ m ∈ pre ++ post, m.Good) (hx : decode x = some d) (hd : ∀ c ∈ d, Plain c) :
    events (rawLine pre x post) = ⟨[fields (pre ++ described d :: post)], false⟩ := by
  have hmembers : ∀ m ∈ pre ++ described d :: post, m.Good := by
    intro m hm
    rcases List.mem_append.mp hm with hm | hm
    · exact hgood m (List.mem_append_left _ hm)
    rcases List.mem_cons.mp hm with rfl | hm
    · have hkey : ∀ c ∈ text "description", Plain c := by decide
      exact ⟨hkey, reads_quoted hd⟩
    · exact hgood m (List.mem_append_right _ hm)
  obtain ⟨s, hs, hprintable⟩ := printable_after hpost
  have hline : ∀ c ∈ before pre ++ (d ++ 34 :: s), c ≠ 10 ∧ c ≠ 13 := by
    intro c hc
    have hlow : 32 ≤ c := by
      rcases List.mem_append.mp hc with hc | hc
      · exact (printable_before hpre c hc).1
      rcases List.mem_append.mp hc with hc | hc
      · exact (hd c hc).1
      rcases List.mem_cons.mp hc with rfl | hc
      · decide
      · exact (hprintable c hc).1
    omega
  have hobject : before pre ++ (d ++ 34 :: s) =
      eventPrefix ++ object (pre ++ described d :: post) := by
    have htext := rawLine_text post (d := d) hne
    rw [hs] at htext
    refine @List.append_cancel_right _ _ [10] _ (Eq.trans ?_ htext)
    simp
  have hlines : lines (before pre ++ (d ++ after post)) =
      [eventPrefix ++ object (pre ++ described d :: post)] := by
    rw [← hobject, ← lines_line hline, hs]
    simp
  rw [events, decode_rawLine hpre hpost, hx]
  change eventLoop (lines _) = _
  rw [hlines, eventLoop, if_pos (List.isPrefixOf_iff_prefix.mpr (List.prefix_append _ _)),
    List.drop_left, loads_object hmembers]
  rfl

/-- An event is read from a line. -/
theorem mem_eventLoop {ev : List (Json.Text × Json.Value)} {ls : List Json.Text}
    (h : ev ∈ (eventLoop ls).events) :
    ∃ line ∈ ls, loads (line.drop eventPrefix.length) = some (.obj ev) := by
  induction ls with
  | nil => exact absurd h List.not_mem_nil
  | cons l ls ih =>
    have hrest : ev ∈ (eventLoop ls).events →
        ∃ line ∈ l :: ls, loads (line.drop eventPrefix.length) = some (.obj ev) := fun h =>
      (ih h).imp fun _ ⟨hmem, hloads⟩ => ⟨List.mem_cons_of_mem _ hmem, hloads⟩
    rw [eventLoop] at h
    split at h
    · split at h
      · exact hrest h
      · rename_i event hloads
        rcases List.mem_cons.mp h with rfl | h
        · exact ⟨l, List.mem_cons_self, hloads⟩
        · exact hrest h
      · exact absurd h List.not_mem_nil
    · exact hrest h

/-- **What is read back** as the description is plain. -/
theorem plain_of_events (hpre : AllPrintable pre) (hpost : AllPrintable post)
    {ev : List (Json.Text × Json.Value)} (hev : ev ∈ (events (rawLine pre x post)).events)
    (hx : decode x = some d) (hget : get ev (text "description") = some (.str d)) :
    ∀ c ∈ d, Plain c := by
  rw [events, decode_rawLine hpre hpost, hx] at hev
  obtain ⟨line, hmem, hloads⟩ := mem_eventLoop hev
  have hpart : line.drop eventPrefix.length <:+: before pre ++ (d ++ after post) :=
    List.IsInfix.trans (List.IsSuffix.isInfix (List.drop_suffix _ _)) (lines_contained hmem)
  obtain ⟨s, hs, hprintable⟩ := printable_after hpost
  have hquoted := (quoted_of_loads hloads hget).mono hpart
  obtain ⟨p, hp⟩ : ∃ p, before pre = p ++ [34] :=
    ⟨eventPrefix ++ 123 :: (joined pre ++ 44 :: (quoted (text "description") ++ [58])),
      by simp [before]⟩
  have hbefore : 92 ∉ p := fun h =>
    (printable_before hpre 92 (by rw [hp]; exact List.mem_append_left _ h)).2.2 rfl
  have hafter : 92 ∉ s ++ [10] := by
    intro h
    rcases List.mem_append.mp h with h | h
    · exact (hprintable 92 h).2.2 rfl
    · exact absurd (List.mem_singleton.mp h) (by decide)
  refine plain_of_quoted hbefore hafter ?_
  rwa [hs, hp, List.append_assoc, List.singleton_append] at hquoted

end Line

/-! ## The members of an event -/

/-- A member whose value is a string. -/
def strMember (key : String) (s : Json.Text) : Member := ⟨text key, quoted s, .str s⟩

namespace ControlBase
variable (b : ControlBase)

/-- The value that is printed of a field. -/
def value : Mode → Json.Value
  | .fixedW => .int b.opModFixedW.toInt
  | .maxLimW => .int b.opModMaxLimW.toNat
  | .targetW => .int b.opModTargetW.value.toInt
  | .fixedVar => .int b.opModFixedVar.value.toInt
  | .targetVar => .int b.opModTargetVar.value.toInt
  | .rampTms => .int b.rampTms.toNat
  | .connect => .bool (b.flags.getLsbD 21)
  | .energize => .bool (b.flags.getLsbD 19)

def member (m : Mode) : Member := ⟨m.key, b.printed m, b.value m⟩

def members : List Member := (emitOrder.filter b.has).map b.member

end ControlBase

namespace Emission

def description : Emission → CString
  | event _ ev => ev.description
  | defaultControl dc => dc.description

/-- The control that is printed. -/
def control : Emission → Option ControlBase
  | event .start ev => ev.controlBase
  | event .ended _ => none
  | defaultControl dc => some dc.controlBase

def type : Emission → Json.Text
  | event edge _ => edge.name
  | defaultControl _ => text "default_control"

/-- The mRID that is printed, in hexadecimal: none of a default control. -/
def mrid : Emission → Option Json.Text
  | event _ ev => some (ev.mRID.toList.flatMap hexByte)
  | defaultControl _ => none

/-- The members in front of the description. -/
def pre (e : Emission) (sfdi : UInt64) : List Member :=
  strMember "type" e.type :: ⟨text "sfdi", digits sfdi.toNat, .int sfdi.toNat⟩ ::
    (e.mrid.map (strMember "mrid")).toList

/-- The members behind the description. -/
def post (e : Emission) : List Member :=
  (e.control.map fun b =>
    (⟨text "control", object b.members, .obj (fields b.members)⟩ : Member)).toList

end Emission

section Members
variable (b : ControlBase) (e : Emission) (sfdi : UInt64)

theorem emitField_joined (m : Mode) (ms : List Member) :
    emitField b (joined ms, decide (ms = [])) m =
      (joined (ms ++ ([m].filter b.has).map b.member),
        decide (ms ++ ([m].filter b.has).map b.member = [])) := by
  have hquote : text "\"" = [34] := rfl
  have hcolon : text "\":" = [34, 58] := rfl
  have hcomma : text "," = [44] := rfl
  unfold emitField
  split
  · rename_i hhas
    rw [List.filter_cons_of_pos hhas, List.filter_nil, List.map_singleton, hquote, hcolon, hcomma]
    by_cases hms : ms = []
    · rw [hms]
      simp [joined, ControlBase.member, Member.text, quoted]
    · rw [joined_append hms, behind, if_neg (List.cons_ne_nil _ _)]
      simp [joined, ControlBase.member, Member.text, quoted, hms]
  · rename_i hhas
    rw [List.filter_cons_of_neg hhas, List.filter_nil, List.map_nil, List.append_nil]

/-- **`emit_control_base`** prints the fields that exist with commas between them. -/
theorem emitControlBase_joined : (emitControlBase b).1 = joined b.members := by
  have hloop : ∀ (l : List Mode) (ms : List Member),
      (l.foldl (emitField b) (joined ms, decide (ms = []))).1 =
        joined (ms ++ (l.filter b.has).map b.member) := by
    intro l
    induction l with
    | nil =>
      intro ms
      rw [List.filter_nil, List.map_nil, List.append_nil]
      rfl
    | cons m l ih =>
      intro ms
      rw [List.foldl_cons, emitField_joined, ih, List.append_assoc, ← List.map_append,
        ← List.filter_append]
      rfl
  exact hloop emitOrder []

/-- What is emitted is a line with the description in it. -/
theorem emit_eq : e.emit sfdi = rawLine (e.pre sfdi) e.description e.post := by
  have htype : text "EVENT_JSON:\x7b\"type\":\"" =
      eventPrefix ++ 123 :: (quoted (text "type") ++ [58, 34]) := rfl
  have hsfdi : text "\",\"sfdi\":" = 34 :: 44 :: (quoted (text "sfdi") ++ [58]) := rfl
  have hmrid : text ",\"mrid\":\"" = 44 :: (quoted (text "mrid") ++ [58, 34]) := rfl
  have hdescription : text ",\"description\":\"" =
      44 :: (quoted (text "description") ++ [58, 34]) := rfl
  have hcontrol : text ",\"control\":\x7b" = 44 :: (quoted (text "control") ++ [58, 123]) := rfl
  have hdefault : text "EVENT_JSON:\x7b\"type\":\"default_control\",\"sfdi\":" =
      eventPrefix ++ 123 :: (quoted (text "type") ++ [58, 34]) ++ text "default_control" ++
        34 :: 44 :: (quoted (text "sfdi") ++ [58]) := rfl
  have hquote : text "\"" = [34] := rfl
  have hclose : text "\x7d" = [125] := rfl
  have hend : text "\x7d\n" = [125, 10] := rfl
  have hends : text "\x7d\x7d\n" = [125, 125, 10] := rfl
  cases e with
  | event edge ev =>
    have hcontrols : emitControl edge ev.controlBase ++ text "\x7d\n" =
        behind (Emission.event edge ev).post ++ [125, 10] := by
      rw [hend]
      cases edge with
      | ended => rfl
      | start =>
        cases hb : ev.controlBase with
        | none => simp [emitControl, Emission.post, Emission.control, hb, behind]
        | some b =>
          simp [emitControl, Emission.post, Emission.control, hb, behind, hcontrol, hclose,
            emitControlBase_joined, joined, Member.text, object]
    rw [Emission.emit, emitEventJson, List.append_assoc (text "\""), hcontrols, htype, hsfdi, hmrid,
      hdescription, hquote]
    simp [rawLine, before, after, Emission.pre, Emission.type, Emission.mrid, joined, strMember,
      Member.text, quoted, Emission.description]
  | defaultControl dc =>
    rw [Emission.emit, emitDefaultControlJson, hdefault, hdescription, hquote, hcontrol, hends]
    simp [rawLine, before, after, Emission.pre, Emission.type, Emission.mrid, joined, strMember,
      Member.text, quoted, Emission.description, Emission.post, Emission.control, behind, object,
      emitControlBase_joined]

end Members

section Fields
variable {b : ControlBase} {sfdi : UInt64}

theorem digit_printable {c : ℕ} (h : Json.digit c = true) : Printable c := by
  simp only [Json.digit, decide_eq_true_eq] at h
  exact ⟨by omega, by omega, by omega⟩

theorem digits_printable (n : ℕ) : ∀ c ∈ digits n, Printable c := fun _ hc =>
  digit_printable (digit_of_mem hc)

theorem signed_printable (z : ℤ) : ∀ c ∈ signed z, Printable c := by
  unfold signed
  split
  · exact List.forall_mem_cons.mpr ⟨by decide, digits_printable _⟩
  · exact digits_printable _

theorem member_text_printable {m : Member} (hkey : ∀ c ∈ quoted m.key, Printable c)
    (hsource : ∀ c ∈ m.source, Printable c) : ∀ c ∈ m.text, Printable c := by
  intro c hc
  rcases List.mem_append.mp hc with hc | hc
  · exact hkey c hc
  rcases List.mem_cons.mp hc with rfl | hc
  · decide
  · exact hsource c hc

theorem Mode.key_plain (m : Mode) : ∀ c ∈ m.key, Plain c ∧ Printable c := by
  cases m <;> decide

theorem ControlBase.reads_printed (m : Mode) : Reads (b.printed m) (b.value m) := by
  cases m
  case maxLimW => exact reads_digits _
  case rampTms => exact reads_digits _
  case connect => exact reads_bool _
  case energize => exact reads_bool _
  all_goals exact reads_signed _

theorem ControlBase.printed_printable (m : Mode) : ∀ c ∈ b.printed m, Printable c := by
  have hbool : ∀ v, ∀ c ∈ bool v, Printable c := by decide
  cases m
  case maxLimW => exact digits_printable _
  case rampTms => exact digits_printable _
  case connect => exact hbool _
  case energize => exact hbool _
  all_goals exact signed_printable _

theorem ControlBase.members_good : ∀ m ∈ b.members, m.Good := by
  intro m hm
  obtain ⟨mode, -, rfl⟩ := List.mem_map.mp hm
  exact ⟨fun c hc => (mode.key_plain c hc).1, b.reads_printed mode⟩

theorem quoted_printable {s : Json.Text} (hs : ∀ c ∈ s, Printable c) :
    ∀ c ∈ quoted s, Printable c := by
  have hquote : Printable 34 := by decide
  intro c hc
  rcases List.mem_cons.mp hc with rfl | hc
  · exact hquote
  rcases List.mem_append.mp hc with hc | hc
  · exact hs c hc
  · rw [List.mem_singleton.mp hc]
    exact hquote

theorem ControlBase.members_printable : AllPrintable b.members := by
  intro m hm
  obtain ⟨mode, -, rfl⟩ := List.mem_map.mp hm
  exact member_text_printable (quoted_printable fun c hc => (mode.key_plain c hc).2)
    (b.printed_printable mode)

theorem hex_plain {x : List UInt8} : ∀ c ∈ x.flatMap hexByte, Plain c ∧ Printable c := by
  intro c hc
  obtain ⟨y, -, hc⟩ := List.mem_flatMap.mp hc
  have hy := y.toNat_lt
  have hdigit : ∀ n < 16, Plain (if n < 10 then 48 + n else 87 + n) ∧
      Printable (if n < 10 then 48 + n else 87 + n) := by decide
  simp only [hexByte, List.mem_cons, List.not_mem_nil, or_false] at hc
  rcases hc with rfl | rfl
  · exact hdigit _ (by omega)
  · exact hdigit _ (by omega)

theorem Emission.type_plain (e : Emission) : ∀ c ∈ e.type, Plain c ∧ Printable c := by
  have hstart : ∀ c ∈ Edge.start.name, Plain c ∧ Printable c := by decide
  have hended : ∀ c ∈ Edge.ended.name, Plain c ∧ Printable c := by decide
  have hdefault : ∀ c ∈ text "default_control", Plain c ∧ Printable c := by decide
  rcases e with ⟨⟨⟩, ev⟩ | dc
  · exact hstart
  · exact hended
  · exact hdefault

theorem strMember_good {key : String} {s : Json.Text} (hkey : ∀ c ∈ text key, Plain c ∧ Printable c)
    (hs : ∀ c ∈ s, Plain c ∧ Printable c) :
    (strMember key s).Good ∧ ∀ c ∈ (strMember key s).text, Printable c :=
  ⟨⟨fun c hc => (hkey c hc).1, reads_quoted fun c hc => (hs c hc).1⟩,
    member_text_printable (quoted_printable fun c hc => (hkey c hc).2)
      (quoted_printable fun c hc => (hs c hc).2)⟩

theorem Emission.pre_good (e : Emission) :
    ∀ m ∈ e.pre sfdi, m.Good ∧ ∀ c ∈ m.text, Printable c := by
  have htype : ∀ c ∈ text "type", Plain c ∧ Printable c := by decide
  have hsfdi : ∀ c ∈ text "sfdi", Plain c ∧ Printable c := by decide
  have hmrid : ∀ c ∈ text "mrid", Plain c ∧ Printable c := by decide
  refine List.forall_mem_cons.mpr ⟨strMember_good htype e.type_plain, ?_⟩
  refine List.forall_mem_cons.mpr ⟨⟨⟨fun c hc => (hsfdi c hc).1, reads_digits _⟩, ?_⟩, ?_⟩
  · exact member_text_printable (quoted_printable fun c hc => (hsfdi c hc).2) (digits_printable _)
  · cases e with
    | event edge ev =>
      exact List.forall_mem_singleton.mpr (strMember_good hmrid hex_plain)
    | defaultControl dc => exact fun _ hm => absurd hm List.not_mem_nil

theorem Emission.post_good (e : Emission) :
    ∀ m ∈ e.post, m.Good ∧ ∀ c ∈ m.text, Printable c := by
  have hcontrol : ∀ c ∈ text "control", Plain c ∧ Printable c := by decide
  intro m hm
  obtain ⟨b, -, rfl⟩ := Option.mem_map.mp (Option.mem_toList.mp hm)
  refine ⟨⟨fun c hc => (hcontrol c hc).1, reads_object b.members_good⟩, ?_⟩
  refine member_text_printable (quoted_printable fun c hc => (hcontrol c hc).2) fun c hc => ?_
  rcases List.mem_cons.mp hc with rfl | hc
  · decide
  rcases List.mem_append.mp hc with hc | hc
  · exact joined_forall (by decide) b.members_printable c hc
  · rw [List.mem_singleton.mp hc]
    decide

end Fields

/-! ## The round trip -/

/-- What a field of a control is, in its own unit. -/
inductive Quantity
  | number (q : ℚ)
  | flag (b : Bool)
  | percent (refType : UInt8) (q : ℚ)

/-- A power in W or VAR. -/
def Power.amount (p : Power) : ℚ := p.value.toInt * 10 ^ p.multiplier.toInt

namespace ControlBase
variable (b : ControlBase)

/-- What the fields of a control mean. -/
def quantity : Mode → Quantity
  | .fixedW => .number b.opModFixedW.toInt
  | .maxLimW => .number b.opModMaxLimW.toNat
  | .targetW => .number b.opModTargetW.amount
  | .fixedVar => .percent b.opModFixedVar.refType b.opModFixedVar.value.toInt
  | .targetVar => .number b.opModTargetVar.amount
  | .rampTms => .number b.rampTms.toNat
  | .connect => .flag (b.flags.getLsbD 21)
  | .energize => .flag (b.flags.getLsbD 19)

/-- A field, if it exists. -/
def field (m : Mode) : Option Quantity := if b.has m then some (b.quantity m) else none

end ControlBase

/-- What the gateway makes of a value of a control.  A bare number for `opModFixedVar` is a percent
of rated, and `rated` is the `refType` of that. -/
def told (rated : UInt8) : Mode → Json.Value → Option Quantity
  | .fixedVar, .int n => some (.percent rated n)
  | _, .int n => some (.number n)
  | _, .bool b => some (.flag b)
  | _, _ => none

/-- The fields of a control as the gateway has them. -/
structure ShowsControl (rated : UInt8) (cs : List (Json.Text × Json.Value)) (b : ControlBase) :
    Prop where
  fields : ∀ m : Mode, (get cs m.key).map (told rated m) = (b.field m).map some
  others : ∀ f ∈ unprinted, (get cs f.1).isSome = b.flags.getLsbD f.2

/-- `event.get ("control", {})` -/
def controlOf (ev : List (Json.Text × Json.Value)) : List (Json.Text × Json.Value) :=
  match get ev (text "control") with
  | some (.obj cs) => cs
  | _ => []

namespace Emission

/-- The mRID of the object. -/
def mRID : Emission → Vector UInt8 16
  | event _ ev => ev.mRID
  | defaultControl dc => dc.mRID

/-- The control of the object. -/
def controlBase : Emission → Option ControlBase
  | event _ ev => ev.controlBase
  | defaultControl dc => some dc.controlBase

end Emission

/-- An event with the fields of the object it was emitted for. -/
structure Shows (rated : UInt8) (ev : List (Json.Text × Json.Value)) (sfdi : UInt64)
    (e : Emission) : Prop where
  type : get ev (text "type") = some (.str e.type)
  sfdi : get ev (text "sfdi") = some (.int sfdi.toNat)
  mrid : get ev (text "mrid") = some (.str (e.mRID.toList.flatMap hexByte))
  description : ∃ d, decode e.description = some d ∧ get ev (text "description") = some (.str d)
  control : ∀ b, e.controlBase = some b → ShowsControl rated (controlOf ev) b

/-- The gateway reads exactly the event that is emitted. -/
def RoundTrip (rated : UInt8) (sfdi : UInt64) (e : Emission) : Prop :=
  ∃ ev, events (e.emit sfdi) = ⟨[ev], false⟩ ∧ Shows rated ev sfdi e

/-- A string of UTF-8 without quotation marks, backslashes and control characters. -/
def PlainString (s : CString) : Prop := ∃ d, decode s = some d ∧ ∀ c ∈ d, Plain c

/-- A power that is its `value`. -/
def Power.Unscaled (p : Power) : Prop := p.multiplier = 0 ∨ p.value = 0

namespace ControlBase
variable (b : ControlBase)

/-- No mode exists that is not printed. -/
def AllPrinted : Prop := ∀ f ∈ unprinted, b.flags.getLsbD f.2 = false

/-- The fields that exist are what a bare number says: in W and VAR, and percents of rated. -/
structure Bare (rated : UInt8) : Prop where
  targetW : b.has .targetW → b.opModTargetW.Unscaled
  targetVar : b.has .targetVar → b.opModTargetVar.Unscaled
  fixedVar : b.has .fixedVar → b.opModFixedVar.refType = rated
  allPrinted : b.AllPrinted

/-- No mode exists. -/
def Empty : Prop := (∀ m, b.has m = false) ∧ b.AllPrinted

end ControlBase

/-- The line has a place for all that the object has: a control at a start, none at an end.  A
default control has an mRID, and its line has none. -/
def Emission.HasPlace (rated : UInt8) : Emission → Prop
  | event .start ev => ∀ b, ev.controlBase = some b → b.Bare rated
  | event .ended ev => ∀ b, ev.controlBase = some b → b.Empty
  | defaultControl _ => False

theorem Mode.key_injective : Function.Injective Mode.key := by
  intro m m' h
  revert h
  cases m <;> cases m' <;> decide

section Get
variable {b : ControlBase}

theorem get_members (m : Mode) :
    get (fields b.members) m.key = if b.has m then some (b.value m) else none := by
  have hmem : ∀ x ∈ (fields b.members).reverse, ∃ m', b.has m' = true ∧
      x = (m'.key, b.value m') := by
    intro x hx
    obtain ⟨y, hy, rfl⟩ := List.mem_map.mp (List.mem_reverse.mp hx)
    obtain ⟨m', hm', rfl⟩ := List.mem_map.mp hy
    exact ⟨m', (List.mem_filter.mp hm').2, rfl⟩
  unfold Json.get
  cases hfind : (fields b.members).reverse.find? fun x => x.1 = m.key with
  | none =>
    split
    · rename_i hhas
      have horder : m ∈ emitOrder := by cases m <;> decide
      have hin : (m.key, b.value m) ∈ (fields b.members).reverse := by
        refine List.mem_reverse.mpr (List.mem_map.mpr ⟨b.member m, ?_, rfl⟩)
        exact List.mem_map.mpr ⟨m, List.mem_filter.mpr ⟨horder, hhas⟩, rfl⟩
      exact absurd (decide_eq_true rfl) (List.find?_eq_none.mp hfind _ hin)
    · rfl
  | some x =>
    obtain ⟨m', hhas, rfl⟩ := hmem x (List.mem_of_find?_eq_some hfind)
    have hfound := List.find?_some hfind
    have hkey : m' = m := Mode.key_injective (of_decide_eq_true hfound)
    rw [← hkey, if_pos hhas]
    rfl

theorem Power.amount_eq_iff (p : Power) : (p.value.toInt : ℚ) = p.amount ↔ p.Unscaled := by
  have hvalue : (p.value.toInt : ℚ) = 0 ↔ p.value = 0 := by
    rw [Int.cast_eq_zero]
    exact ⟨fun h => Int16.toInt_inj.mp (h.trans rfl), fun h => by rw [h]; rfl⟩
  have hmultiplier : (10 : ℚ) ^ p.multiplier.toInt = 1 ↔ p.multiplier = 0 := by
    rw [zpow_eq_one_iff_right₀ (by norm_num) (by norm_num)]
    exact ⟨fun h => Int8.toInt_inj.mp (h.trans rfl), fun h => by rw [h]; rfl⟩
  rw [Power.amount, Power.Unscaled, ← hvalue, ← hmultiplier, eq_comm]
  exact mul_right_eq_self₀

/-- A mode that is not printed is no field of what is printed. -/
theorem get_unprinted {f : Json.Text × ℕ} (hf : f ∈ unprinted) :
    get (fields b.members) f.1 = none := by
  have hkeys : ∀ f ∈ unprinted, ∀ m ∈ emitOrder, m.key ≠ f.1 := by decide
  rw [Json.get, List.find?_eq_none.mpr, Option.map_none]
  intro x hx hkey
  obtain ⟨y, hy, rfl⟩ := List.mem_map.mp (List.mem_reverse.mp hx)
  obtain ⟨m, hm, rfl⟩ := List.mem_map.mp hy
  exact hkeys f hf m (List.mem_of_mem_filter hm) (of_decide_eq_true hkey)

/-- **A control is shown** as it is if its fields are what bare numbers say. -/
theorem showsControl_iff {rated : UInt8} :
    ShowsControl rated (fields b.members) b ↔ b.Bare rated := by
  have hmode : ∀ m, (get (fields b.members) m.key).map (told rated m) = (b.field m).map some ↔
      (b.has m → told rated m (b.value m) = some (b.quantity m)) := by
    intro m
    rw [get_members, ControlBase.field]
    by_cases hhas : b.has m = true
    · simp [hhas]
    · simp [hhas]
  have hamount : ∀ p : Power, some (Quantity.number p.value.toInt) = some (.number p.amount) ↔
      p.Unscaled := by
    intro p
    rw [← Power.amount_eq_iff]
    simp
  have hpercent : ∀ q : ℚ, some (Quantity.percent rated q) =
      some (.percent b.opModFixedVar.refType q) ↔ b.opModFixedVar.refType = rated := by
    intro q
    simp [eq_comm]
  have hothers : (∀ f ∈ unprinted,
      (get (fields b.members) f.1).isSome = b.flags.getLsbD f.2) ↔ b.AllPrinted := by
    refine forall₂_congr fun f hf => ?_
    rw [get_unprinted hf]
    exact eq_comm
  constructor
  · intro h
    exact ⟨fun hhas => (hamount _).mp ((hmode .targetW).mp (h.fields .targetW) hhas),
      fun hhas => (hamount _).mp ((hmode .targetVar).mp (h.fields .targetVar) hhas),
      fun hhas => (hpercent _).mp ((hmode .fixedVar).mp (h.fields .fixedVar) hhas),
      hothers.mp h.others⟩
  · intro h
    refine ⟨fun m => (hmode m).mpr fun hhas => ?_, hothers.mpr h.allPrinted⟩
    cases m
    case targetW => exact (hamount _).mpr (h.targetW hhas)
    case targetVar => exact (hamount _).mpr (h.targetVar hhas)
    case fixedVar => exact (hpercent _).mpr (h.fixedVar hhas)
    all_goals rfl

/-- No field is shown of an empty control. -/
theorem showsControl_nil {rated : UInt8} : ShowsControl rated [] b ↔ b.Empty := by
  have hfield : ∀ m, (get [] m.key).map (told rated m) = (b.field m).map some ↔
      b.has m = false := by
    intro m
    rw [ControlBase.field]
    by_cases hhas : b.has m = true
    · simp [hhas, Json.get]
    · simp [hhas, Json.get]
  constructor
  · intro h
    exact ⟨fun m => (hfield m).mp (h.fields m), fun f hf => (h.others f hf).symm⟩
  · rintro ⟨hnone, hothers⟩
    exact ⟨fun m => (hfield m).mpr (hnone m), fun f hf => (hothers f hf).symm⟩

end Get

section RoundTrip
variable {sfdi : UInt64} {e : Emission}

/-- The members of an event as they are read. -/
def Emission.fields (e : Emission) (sfdi : UInt64) (d : Json.Text) :
    List (Json.Text × Json.Value) :=
  Json.fields (e.pre sfdi ++ described d :: e.post)

/-- A plain description makes one event of what is emitted. -/
theorem events_emit {d : Json.Text} (hdecode : decode e.description = some d)
    (hd : ∀ c ∈ d, Plain c) :
    events (e.emit sfdi) = ⟨[e.fields sfdi d], false⟩ := by
  rw [emit_eq]
  refine events_rawLine (List.cons_ne_nil _ _) (fun m hm => (e.pre_good m hm).2)
    (fun m hm => (e.post_good m hm).2) (fun m hm => ?_) hdecode hd
  exact (List.mem_append.mp hm).elim (fun hm => (e.pre_good m hm).1) fun hm => (e.post_good m hm).1

/-- The control of the event that is read. -/
theorem controlOf_fields (d : Json.Text) :
    controlOf (e.fields sfdi d) =
      (e.control.map fun b => Json.fields b.members).getD [] := by
  rcases e with ⟨⟨⟩, _, _, ⟨⟩ | b⟩ | dc <;> rfl

/-- **What is read** of a plain description has all that the object has if there is a place for
it. -/
theorem shows_fields {rated : UInt8} {d : Json.Text} (hdecode : decode e.description = some d) :
    Shows rated (e.fields sfdi d) sfdi e ↔ e.HasPlace rated := by
  constructor
  · intro h
    have hmrid := h.mrid
    have hcontrol := h.control
    rw [controlOf_fields] at hcontrol
    rcases e with ⟨⟨⟩, ev⟩ | dc
    · intro b hb
      have hshown := hcontrol b hb
      simp only [Emission.control, hb, Option.map_some, Option.getD_some] at hshown
      exact showsControl_iff.mp hshown
    · exact fun b hb => showsControl_nil.mp (hcontrol b hb)
    · have hnone : get ((Emission.defaultControl dc).fields sfdi d) (text "mrid") = none := rfl
      rw [hnone] at hmrid
      exact absurd hmrid (by simp)
  · intro h
    refine ⟨?_, ?_, ?_, ⟨d, hdecode, ?_⟩, fun b hb => ?_⟩
    · rcases e with ⟨⟨⟩, _, _, ⟨⟩ | b⟩ | dc <;> rfl
    · rcases e with ⟨⟨⟩, _, _, ⟨⟩ | b⟩ | dc <;> rfl
    · rcases e with ⟨⟨⟩, _, _, ⟨⟩ | b⟩ | dc
      · rfl
      · rfl
      · rfl
      · rfl
      · exact h.elim
    · rcases e with ⟨⟨⟩, _, _, ⟨⟩ | b⟩ | dc <;> rfl
    · rw [controlOf_fields]
      rcases e with ⟨⟨⟩, ev⟩ | dc
      · have hb : ev.controlBase = some b := hb
        simp only [Emission.control, hb, Option.map_some, Option.getD_some]
        exact showsControl_iff.mpr (h b hb)
      · exact showsControl_nil.mpr (h b hb)
      · exact h.elim

/-- **A default control** is read with its type, description and control. -/
theorem events_default {rated : UInt8} {dc : DefaultControl} {d : Json.Text}
    (hdecode : decode dc.description = some d) (hd : ∀ c ∈ d, Plain c)
    (hbare : dc.controlBase.Bare rated) :
    ∃ ev, events ((Emission.defaultControl dc).emit sfdi) = ⟨[ev], false⟩ ∧
      get ev (text "type") = some (.str (text "default_control")) ∧
      get ev (text "sfdi") = some (.int sfdi.toNat) ∧
      get ev (text "description") = some (.str d) ∧
      ShowsControl rated (controlOf ev) dc.controlBase := by
  refine ⟨_, events_emit hdecode hd, rfl, rfl, rfl, ?_⟩
  rw [controlOf_fields]
  exact showsControl_iff.mpr hbare

/-- An event that is read back comes from a plain description. -/
theorem RoundTrip.plain {rated : UInt8} (h : RoundTrip rated sfdi e) :
    ∃ d, decode e.description = some d ∧ (∀ c ∈ d, Plain c) ∧
      Shows rated (e.fields sfdi d) sfdi e := by
  obtain ⟨ev, hevents, hshows⟩ := h
  obtain ⟨d, hdecode, hget⟩ := hshows.description
  have hplain : ∀ c ∈ d, Plain c := by
    have hev : ev ∈ (events (e.emit sfdi)).events := by
      rw [hevents]
      exact List.mem_singleton_self ev
    rw [emit_eq] at hev
    exact plain_of_events (fun m hm => (e.pre_good m hm).2) (fun m hm => (e.post_good m hm).2) hev
      hdecode hget
  have hfields : e.fields sfdi d = ev := by
    rw [events_emit hdecode hplain] at hevents
    exact (List.cons.inj (congrArg Yields.events hevents)).1
  exact ⟨d, hdecode, hplain, hfields ▸ hshows⟩

/-- **An event reaches the gateway** as it was emitted if and only if its description is a plain
string and its line has a place for all that it has. -/
theorem event_round_trip (rated : UInt8) (sfdi : UInt64) (e : Emission) :
    RoundTrip rated sfdi e ↔ PlainString e.description ∧ e.HasPlace rated := by
  constructor
  · intro h
    obtain ⟨d, hdecode, hplain, hshows⟩ := h.plain
    exact ⟨⟨d, hdecode, hplain⟩, (shows_fields hdecode).mp hshows⟩
  · rintro ⟨⟨d, hdecode, hplain⟩, hplace⟩
    exact ⟨e.fields sfdi d, events_emit hdecode hplain, (shows_fields hdecode).mpr hplace⟩

/-- The start of an event without a control, with another event in its description. -/
def forgedEnd : Emission :=
  .event .start ⟨Vector.replicate 16 0, encode (text "\nEVENT_JSON:\x7b\"type\":\"end\"\x7d\n"),
    some ⟨0, ⟨0, 0⟩, 0, 0, ⟨0, 0⟩, ⟨0, 0⟩, 0⟩⟩

/-- The start is dropped, and the end of an event is read. -/
theorem forged_event :
    (events (forgedEnd.emit 0)).events.map (fun ev => ev.map Prod.fst) = [[text "type"]] ∧
      ∀ rated, ¬RoundTrip rated 0 forgedEnd := by
  have hkeys : (events (forgedEnd.emit 0)).events.map (fun ev => ev.map Prod.fst) =
      [[text "type"]] := by decide +kernel
  refine ⟨hkeys, fun rated => ?_⟩
  rintro ⟨ev, hevents, hshows⟩
  rw [hevents] at hkeys
  have hev : ev.map Prod.fst = [text "type"] := (List.cons.inj hkeys).1
  obtain ⟨m, hfind, -⟩ := Option.map_eq_some_iff.mp hshows.sfdi
  have hmem : m.1 ∈ ev.map Prod.fst :=
    List.mem_map_of_mem (List.mem_reverse.mp (List.mem_of_find?_eq_some hfind))
  have hkey := List.find?_some hfind
  have hsfdi : m.1 = text "sfdi" := of_decide_eq_true hkey
  rw [hev, hsfdi] at hmem
  exact absurd hmem (by decide)

end RoundTrip

end SeClient
