import SeClient.DnsNames

/-!
# Names in a query

`dnssd_question` adds a name to a query.  `encode_name` keeps the places of the labels it stores in
a table, and once a label of a name agrees with one of the table, a pointer to that place ends the
name: what stands behind the label of the table is not compared with the rest of the name.  The
table has fourteen places.
-/

namespace SeClient

/-! ## `encode_name` and `dnssd_question` -/

/-- `PACK16` -/
def pack16 (d : ℕ) : List UInt8 := [UInt8.ofNat (d >>> 8), UInt8.ofNat d]

/-- `strncmp (s, t, n) == 0` -/
def strncmpEq : ℕ → List UInt8 → List UInt8 → Bool
  | 0, _, _ => true
  | n + 1, a :: s, b :: t => a = b && (a = 0 || strncmpEq n s t)
  | _ + 1, _, _ => false

/-- A query: the number of questions in its header, what stands behind the header, and the table
`names`, of distances from `start`. -/
structure DnsQuery where
  count : ℕ := 0
  body : List UInt8 := []
  names : List ℕ := []

namespace DnsQuery

/-- The packet, from `start` to `dest`. -/
def packet (q : DnsQuery) : List UInt8 :=
  [0, 0, 0, 0] ++ pack16 q.count ++ [0, 0, 0, 0, 0, 0] ++ q.body

/-- What is stored at `dest`; `none` when the packet has no room for it. -/
def write (room : ℕ) (q : DnsQuery) (bytes : List UInt8) : Option DnsQuery :=
  if q.packet.length + bytes.length ≤ room then some { q with body := q.body ++ bytes } else none

/-- The loop of `encode_name`; `none` also where it goes on to the entry `names[14]`. -/
def encodeLoop (room : ℕ) : ℕ → DnsQuery → List UInt8 → Option DnsQuery
  | 0, _, _ => none
  | _ + 1, _, [] => none
  | fuel + 1, q, c :: name =>
    if c = 0 then q.write room [0]
    else
      let n := c.toNat + 1
      match q.names.find? fun sub => strncmpEq n (c :: name) (q.packet.drop sub) with
      | some sub => q.write room (pack16 (0xc000 ||| sub))
      | none =>
        if q.names.length = 14 then none
        else
          let q' := { q with names := q.names ++ [q.packet.length] }
          (q'.write room ((c :: name).take n)).bind fun q =>
            encodeLoop room fuel q ((c :: name).drop n)

/-- `encode_name` -/
def encodeName (room : ℕ) (q : DnsQuery) (name : List UInt8) : Option DnsQuery :=
  encodeLoop room name.length q name

/-- `dnssd_question`, with a name -/
def dnssdQuestion (room : ℕ) (q : DnsQuery) (name : List UInt8) (type : ℕ) (unicast : Bool) :
    Option DnsQuery :=
  (encodeName room { q with count := q.count + 1 } name).bind fun q =>
    q.write room (pack16 type ++ pack16 (unicast.toNat <<< 15 ||| 1))

/-- `dnssd_query` -/
def dnssdQuery (room : ℕ) : Option DnsQuery := if 12 ≤ room then some {} else none

end DnsQuery

/-! ## Names -/

/-- A label of a name. -/
structure DnsLabel where
  bytes : List UInt8
  nonempty : bytes ≠ []
  short : bytes.length ≤ 63
deriving DecidableEq

/-- A label in counted form. -/
def DnsLabel.counted (a : DnsLabel) : List UInt8 := UInt8.ofNat a.bytes.length :: a.bytes

/-- Labels in counted form. -/
def counted (l : List DnsLabel) : List UInt8 := l.flatMap DnsLabel.counted

/-- A name of at most 255 bytes in counted form. -/
structure DnsName where
  labels : List DnsLabel
  fits : (counted labels ++ [0]).length ≤ 255

/-- The bytes of a name. -/
def DnsName.bytes (n : DnsName) : List UInt8 := counted n.labels ++ [0]

/-- What `dnssd_question` is called with. -/
structure DnsQuestion where
  name : DnsName
  type : ℕ
  unicast : Bool

/-- The questions are added to a query. -/
def DnsQuery.ask (room : ℕ) (q : DnsQuery) (questions : List DnsQuestion) : Option DnsQuery :=
  questions.foldlM (fun q x => q.dnssdQuestion room x.name.bytes x.type x.unicast) q

/-- **The names come back**: the questions are added to a packet of `room` bytes, with fourteen
entries in the table at most, and where a name was added `dns_name` finds that name. -/
def NamesComeBack (room : ℕ) (questions : List DnsQuestion) : Prop :=
  ∃ q₀ q, DnsQuery.dnssdQuery room = some q₀ ∧ q₀.ask room questions = some q ∧
    q.names.length ≤ 14 ∧ ∀ before x after, questions = before ++ x :: after →
      ∃ q₁ next, q₀.ask room before = some q₁ ∧
        dnsName q.packet q₁.packet.length = some (.found x.name.bytes next)

/-! ## What is referred to -/

/-- Labels agree, to `strncmp`: the rest of a label behind a NUL is not compared. -/
def DnsLabel.agrees (a b : DnsLabel) : Bool :=
  a.bytes.length = b.bytes.length && strncmpEq a.bytes.length a.bytes b.bytes

/-- A name goes through the table of the names that end with a stored label and what follows it:
the table behind it, and the bytes that the name takes.  There is no result if the first entry whose
first label agrees with a label is not that label and all that follows it. -/
def compress (table : List (List DnsLabel)) : List DnsLabel → Option (List (List DnsLabel) × ℕ)
  | [] => some (table, 1)
  | a :: l =>
    match table.find? fun t => t.head?.any a.agrees with
    | some t => if t = a :: l then some (table, 2) else none
    | none => (compress (table ++ [a :: l]) l).map fun r => (r.1, r.2 + a.counted.length)

/-- All names of a query go through the table, with two bytes each for the type and the class. -/
def compressAll : List (List DnsLabel) → ℕ → List DnsQuestion → Option (List (List DnsLabel) × ℕ)
  | table, size, [] => some (table, size)
  | table, size, x :: questions =>
    (compress table x.name.labels).bind fun r => compressAll r.1 (size + r.2 + 4) questions

/-- Each reference is to the whole rest of its name, the table has fourteen entries at most, and the
packet has room. -/
def Compressible (room : ℕ) (questions : List DnsQuestion) : Prop :=
  ∃ table size, compressAll [] 12 questions = some (table, size) ∧ table.length ≤ 14 ∧ size ≤ room

/-! ## Bytes of a packet -/

section
variable {q q' : DnsQuery} {room fuel pos e : ℕ} {a b : DnsLabel} {l s t u : List DnsLabel}
  {body bytes more : List UInt8}

theorem DnsQuery.length_packet (q : DnsQuery) : q.packet.length = 12 + q.body.length := by
  unfold DnsQuery.packet pack16
  simp only [List.length_append, List.length_cons, List.length_nil]

theorem DnsQuery.drop_packet (q : DnsQuery) (h : 12 ≤ pos) :
    q.packet.drop pos = q.body.drop (pos - 12) := by
  have hheader : ([0, 0, 0, 0] ++ pack16 q.count ++ [0, 0, 0, 0, 0, 0]).length = 12 := rfl
  unfold DnsQuery.packet
  rw [List.drop_append, hheader, List.drop_eq_nil_of_le (by rw [hheader]; exact h), List.nil_append]

/-- Bytes stand at a place of the packet, behind the header. -/
structure Lies (body : List UInt8) (pos : ℕ) (bytes : List UInt8) : Prop where
  behind : 12 ≤ pos
  prefixed : bytes <+: body.drop (pos - 12)
  inside : pos + bytes.length ≤ 12 + body.length

theorem Lies.packet (h : Lies q.body pos bytes) : bytes <+: q.packet.drop pos := by
  rw [q.drop_packet h.behind]
  exact h.prefixed

theorem Lies.mono (h : Lies body pos bytes) (more : List UInt8) :
    Lies (body ++ more) pos bytes where
  behind := h.behind
  prefixed := by
    have hinside := h.inside
    have hbehind := h.behind
    rw [List.drop_append_of_le_length (by omega)]
    exact h.prefixed.trans (List.prefix_append _ _)
  inside := by
    rw [List.length_append]
    exact Nat.le_trans h.inside (by omega)

/-- What is stored at the end. -/
theorem lies_end (body bytes : List UInt8) : Lies (body ++ bytes) (12 + body.length) bytes where
  behind := Nat.le_add_right _ _
  prefixed := by
    refine ⟨[], ?_⟩
    rw [List.append_nil, Nat.add_sub_cancel_left, List.drop_left]
  inside := by
    rw [List.length_append]
    omega

theorem Lies.append {bytes' : List UInt8} (h : Lies body pos bytes)
    (h' : Lies body (pos + bytes.length) bytes') : Lies body pos (bytes ++ bytes') where
  behind := h.behind
  prefixed := by
    obtain ⟨r, hr⟩ := h.prefixed
    obtain ⟨r', hr'⟩ := h'.prefixed
    have hbehind := h.behind
    have hdrop : body.drop (pos + bytes.length - 12) = r := by
      rw [show pos + bytes.length - 12 = pos - 12 + bytes.length by omega, ← List.drop_drop, ← hr,
        List.drop_left]
    refine ⟨r', ?_⟩
    rw [List.append_assoc, hr', hdrop, hr]
  inside := by
    rw [List.length_append]
    have := h'.inside
    omega

/-! ## Reading -/

variable {pkt name : List UInt8} {p : NameParser} {r : NameResult} {next : ℕ}

theorem DnsLabel.count_toNat (a : DnsLabel) :
    (UInt8.ofNat a.bytes.length).toNat = a.bytes.length := by
  refine UInt8.toNat_ofNat_of_lt' ?_
  have := a.short
  show _ < 256
  omega

theorem DnsLabel.length_counted (a : DnsLabel) : a.counted.length = a.bytes.length + 1 := rfl

theorem DnsLabel.length_pos (a : DnsLabel) : 0 < a.bytes.length :=
  List.length_pos_iff.mpr a.nonempty

theorem label_bits : ∀ c : UInt8, 0 < c.toNat → c.toNat ≤ 63 → c ≠ 0 ∧ c &&& 0xc0 = 0 := by
  apply forall_byte
  decide +kernel

theorem pointer_bits : ∀ c : UInt8, 192 ≤ c.toNat →
    c ≠ 0 ∧ ¬c &&& 0xc0 = 0 ∧ c &&& 0xc0 = 0xc0 := by
  apply forall_byte
  decide +kernel

/-- The first byte at a place. -/
theorem getElem?_of_prefix {c : UInt8} {s : List UInt8} (h : c :: s <+: pkt.drop pos) :
    pkt[pos]? = some c ∧ pos + (s.length + 1) ≤ pkt.length := by
  obtain ⟨r, hr⟩ := h
  have hlength := congrArg List.length hr
  rw [List.length_append, List.length_cons, List.length_drop] at hlength
  constructor
  · have hhead := congrArg (fun l : List UInt8 => l[0]?) hr
    rw [List.getElem?_drop] at hhead
    exact hhead.symm
  · omega

/-- A label is read, unless the name gets too long. -/
theorem nameLoop_label (hl : a.counted <+: pkt.drop p.data) (h : nameLoop pkt fuel p = some r) :
    (∃ k, fuel = k + 1 ∧ nameLoop pkt k { p with
      name := p.name ++ a.counted, data := p.data + a.counted.length } = some r) ∨
    r = .null p.name ∧ 254 < p.name.length + a.counted.length := by
  cases fuel with
  | zero => cases h
  | succ k =>
    obtain ⟨hget, hend⟩ := getElem?_of_prefix hl
    obtain ⟨hzero, hlabel⟩ := label_bits (UInt8.ofNat a.bytes.length)
      (by rw [a.count_toNat]; exact a.length_pos) (by rw [a.count_toNat]; exact a.short)
    have hstart : ¬pkt.length < p.data + 1 := by omega
    have hinside : ¬pkt.length < p.data + (a.bytes.length + 1) := by omega
    have hcopy : copyFrom pkt p.data (a.bytes.length + 1) = some a.counted := by
      obtain ⟨rest, hrest⟩ := hl
      rw [copyFrom_some hend, ← hrest, ← a.length_counted, List.take_left]
    unfold nameLoop nameStep at h
    rw [if_neg hstart, hget] at h
    dsimp only at h
    rw [if_neg hzero, if_pos hlabel, a.count_toNat] at h
    by_cases hlong : 254 < p.name.length + (a.bytes.length + 1)
    · rw [if_pos hlong] at h
      exact Or.inr ⟨(Option.some.inj h).symm, hlong⟩
    · rw [if_neg hlong, if_neg hinside, hcopy] at h
      exact Or.inl ⟨k, rfl, h⟩

/-- A pointer is followed, unless nothing was read behind the last one. -/
theorem nameLoop_pointer (hl : pack16 (0xc000 ||| e) <+: pkt.drop p.data) (he : e < 0x4000)
    (hin : e ≤ pkt.length) (h : nameLoop pkt fuel p = some r) :
    (∃ k, fuel = k + 1 ∧ nameLoop pkt k { p with
      ptr := some (p.ptr.getD p.data), data := e, prevLength := p.name.length } = some r) ∨
    r = .null p.name ∧ p.prevLength = p.name.length := by
  cases fuel with
  | zero => cases h
  | succ k =>
    have hvalue : 0xc000 ||| e = 0xc000 + e :=
      (Nat.two_pow_add_eq_or_of_lt (i := 14) he 3).symm
    have hhigh : (UInt8.ofNat ((0xc000 ||| e) >>> 8)).toNat = 192 + e / 256 := by
      rw [hvalue, Nat.shiftRight_eq_div_pow]
      refine (UInt8.toNat_ofNat_of_lt' ?_).trans ?_
      · show _ < 256
        omega
      · omega
    have hlow : (UInt8.ofNat (0xc000 ||| e)).toNat = e % 256 := by
      rw [hvalue]
      show (0xc000 + e) % 256 = e % 256
      omega
    have htarget : ((UInt8.ofNat ((0xc000 ||| e) >>> 8)).toNat <<< 8 |||
        (UInt8.ofNat (0xc000 ||| e)).toNat) &&& 0x3fff = e := by
      rw [hhigh, hlow, ← Nat.shiftLeft_add_eq_or_of_lt (Nat.mod_lt e (by decide) : e % 256 < 2 ^ 8),
        Nat.shiftLeft_eq, Nat.and_two_pow_sub_one_eq_mod _ 14]
      omega
    obtain ⟨hzero, hlabel, hpointer⟩ := pointer_bits (UInt8.ofNat ((0xc000 ||| e) >>> 8))
      (by rw [hhigh]; exact Nat.le_add_right _ _)
    obtain ⟨hget, hend⟩ := getElem?_of_prefix hl
    rw [List.length_singleton] at hend
    have hget' : pkt[p.data + 1]? = some (UInt8.ofNat (0xc000 ||| e)) := by
      obtain ⟨rest, hrest⟩ := hl
      have hsecond := congrArg (fun l : List UInt8 => l[1]?) hrest
      rw [List.getElem?_drop] at hsecond
      exact hsecond.symm
    have hstart : ¬pkt.length < p.data + 1 := by omega
    have hinside : ¬pkt.length < p.data + 2 := by omega
    unfold nameLoop nameStep at h
    rw [if_neg hstart, hget] at h
    dsimp only at h
    rw [if_neg hzero, if_neg hlabel, if_pos hpointer, if_neg hinside, hget'] at h
    dsimp only at h
    rw [htarget, if_neg (Nat.not_lt.mpr hin)] at h
    by_cases hloop : p.prevLength = p.name.length
    · rw [if_pos hloop] at h
      exact Or.inr ⟨(Option.some.inj h).symm, hloop⟩
    · rw [if_neg hloop] at h
      exact Or.inl ⟨k, rfl, h⟩

/-- The end of a name is reached. -/
theorem nameLoop_end (hl : [0] <+: pkt.drop p.data) (h : nameLoop pkt fuel p = some r) :
    ∃ next, r = .found (p.name ++ [0]) next := by
  cases fuel with
  | zero => cases h
  | succ k =>
    obtain ⟨hget, hend⟩ := getElem?_of_prefix hl
    have hstart : ¬pkt.length < p.data + 1 := by
      rw [List.length_nil] at hend
      omega
    unfold nameLoop nameStep at h
    rw [if_neg hstart, hget] at h
    dsimp only at h
    rw [if_pos rfl] at h
    exact ⟨_, (Option.some.inj h).symm⟩

/-! ## What is spelled at a place -/

/-- The labels at a place, with pointers to places of labels. -/
inductive Spelled (body : List UInt8) : ℕ → List DnsLabel → Prop
  | nil {pos : ℕ} (h : Lies body pos [0]) : Spelled body pos []
  | label {pos : ℕ} {a : DnsLabel} {l : List DnsLabel} (h : Lies body pos a.counted)
    (hl : Spelled body (pos + a.counted.length) l) : Spelled body pos (a :: l)
  | pointer {pos e : ℕ} {a : DnsLabel} {l : List DnsLabel}
    (h : Lies body pos (pack16 (0xc000 ||| e))) (he : e < 0x4000) (ha : Lies body e a.counted)
    (hl : Spelled body (e + a.counted.length) l) : Spelled body pos (a :: l)

theorem Spelled.mono (h : Spelled body pos l) (more : List UInt8) :
    Spelled (body ++ more) pos l := by
  induction h with
  | nil h => exact .nil (h.mono more)
  | label h _ ih => exact .label (h.mono more) ih
  | pointer h he ha _ ih => exact .pointer (h.mono more) he (ha.mono more) ih

theorem Lies.lt (h : Lies q.body e bytes) : e ≤ q.packet.length := by
  rw [q.length_packet]
  exact Nat.le_trans (Nat.le_add_right _ _) h.inside

theorem countedLabels_cons (a : DnsLabel) (l : List DnsLabel) :
    counted (a :: l) = a.counted ++ counted l :=
  List.flatMap_cons

theorem countedLabels_snoc (l : List DnsLabel) (a : DnsLabel) :
    counted (l ++ [a]) = counted l ++ a.counted := by
  rw [counted, List.flatMap_append]
  exact congrArg (_ ++ ·) (List.append_nil _)

/-- **What is spelled is found**, as far as a name can be that long. -/
theorem Spelled.read (h : Spelled q.body pos l) (hpos : p.data = pos)
    (hprev : p.prevLength < p.name.length) (hloop : nameLoop q.packet fuel p = some r) :
    (∃ next, r = .found (p.name ++ counted l ++ [0]) next) ∨
      (∃ name, r = .null name) ∧ 254 < p.name.length + (counted l).length := by
  induction h generalizing p fuel with
  | nil h =>
    subst hpos
    obtain ⟨next, hr⟩ := nameLoop_end h.packet hloop
    refine Or.inl ⟨next, ?_⟩
    rw [hr, counted, List.flatMap_nil, List.append_nil]
  | @label pos a l h _ ih =>
    subst hpos
    rw [countedLabels_cons, List.length_append]
    rcases nameLoop_label h.packet hloop with ⟨k, rfl, hrest⟩ | ⟨hr, hlong⟩
    · have hgrown : p.prevLength < ((p.name ++ a.counted).length : ℕ) := by
        rw [List.length_append]
        omega
      have hrest := ih rfl hgrown hrest
      dsimp only at hrest
      rw [List.length_append, List.append_assoc p.name] at hrest
      rwa [← Nat.add_assoc]
    · exact Or.inr ⟨⟨_, hr⟩, by omega⟩
  | @pointer pos e a l h he ha _ ih =>
    subst hpos
    rw [countedLabels_cons, List.length_append]
    rcases nameLoop_pointer h.packet he ha.lt hloop with ⟨j, rfl, hstep⟩ | ⟨-, hsame⟩
    · rcases nameLoop_label ha.packet hstep with ⟨k, rfl, hrest⟩ | ⟨hr, hlong⟩
      · have hgrown : (p.name.length : ℤ) < ((p.name ++ a.counted).length : ℕ) := by
          rw [List.length_append, a.length_counted]
          omega
        have hrest := ih (p := { data := e + a.counted.length, name := p.name ++ a.counted
                                 ptr := some (p.ptr.getD p.data), prevLength := p.name.length })
          rfl hgrown hrest
        dsimp only at hrest
        rw [List.length_append, List.append_assoc p.name] at hrest
        rwa [← Nat.add_assoc]
      · dsimp only at hr hlong
        exact Or.inr ⟨⟨_, hr⟩, by omega⟩
    · omega

theorem Lies.split {bytes' : List UInt8} (h : Lies body pos (bytes ++ bytes')) :
    Lies body pos bytes ∧ Lies body (pos + bytes.length) bytes' := by
  obtain ⟨hbehind, ⟨r, hr⟩, hinside⟩ := h
  rw [List.length_append] at hinside
  rw [List.append_assoc] at hr
  refine ⟨⟨hbehind, ⟨_, hr⟩, by omega⟩, ⟨by omega, ⟨r, ?_⟩, by omega⟩⟩
  rw [show pos + bytes.length - 12 = pos - 12 + bytes.length by omega, ← List.drop_drop, ← hr,
    List.drop_left]

/-- Labels that stand at a place are read one by one. -/
theorem nameLoop_labels (hl : Lies q.body p.data (counted u ++ bytes))
    (h : nameLoop q.packet fuel p = some (.found name next)) :
    ∃ k, fuel = k + u.length ∧ nameLoop q.packet k { p with
      name := p.name ++ counted u, data := p.data + (counted u).length } =
        some (.found name next) := by
  induction u generalizing p fuel with
  | nil =>
    refine ⟨fuel, rfl, ?_⟩
    rw [counted, List.flatMap_nil, List.append_nil]
    exact h
  | cons a u ih =>
    rw [countedLabels_cons, List.append_assoc] at hl
    obtain ⟨ha, hu⟩ := hl.split
    rcases nameLoop_label ha.packet h with ⟨k, rfl, hstep⟩ | ⟨hr, -⟩
    · obtain ⟨j, rfl, hrest⟩ := ih hu hstep
      refine ⟨j, rfl, ?_⟩
      rw [countedLabels_cons, List.length_append, ← List.append_assoc, ← Nat.add_assoc]
      exact hrest
    · cases hr

/-- A name that leads back to one of its own labels is not found. -/
theorem nameLoop_circle (hne : u ≠ []) (he : e < 0x4000)
    (hl : Lies q.body e (counted u ++ pack16 (0xc000 ||| e))) (hp : p.data = e) :
    nameLoop q.packet fuel p ≠ some (.found name next) := by
  induction fuel using Nat.strong_induction_on generalizing p with
  | h fuel ih =>
    subst hp
    intro h
    obtain ⟨k, rfl, hrest⟩ := nameLoop_labels hl h
    have hpos := List.length_pos_iff.mpr hne
    rcases nameLoop_pointer hl.split.2.packet he (Nat.le_trans hl.lt (Nat.le_refl _)) hrest with
      ⟨j, rfl, hback⟩ | ⟨hr, -⟩
    · refine ih j (by omega) ?_ hback
      rfl
    · cases hr

/-- A label of a name, with what follows it, at a place of the table. -/
structure Entered (body : List UInt8) (e : ℕ) (a : DnsLabel) (l : List DnsLabel) : Prop where
  label : Lies body e a.counted
  rest : Spelled body (e + a.counted.length) l

theorem Entered.mono (h : Entered body e a l) (more : List UInt8) : Entered (body ++ more) e a l :=
  ⟨h.label.mono more, h.rest.mono more⟩

/-- A pointer in the name to a place where something else is spelled, or back into the name. -/
def Misspelled (body : List UInt8) (pos : ℕ) (l : List DnsLabel) : Prop :=
  ∃ u s e, l = u ++ s ∧ e < 0x4000 ∧ Lies body pos (counted u ++ pack16 (0xc000 ||| e)) ∧
    ((∃ a t, Entered body e a t ∧ a :: t ≠ s) ∨
      ∃ v, v ≠ [] ∧ Lies body e (counted v ++ pack16 (0xc000 ||| e)))

theorem Misspelled.mono (h : Misspelled body pos l) (more : List UInt8) :
    Misspelled (body ++ more) pos l := by
  obtain ⟨u, s, e, hl, he, hlies, hcase⟩ := h
  refine ⟨u, s, e, hl, he, hlies.mono more, ?_⟩
  rcases hcase with ⟨a, t, ht, hne⟩ | ⟨v, hv, hback⟩
  · exact Or.inl ⟨a, t, ht.mono more, hne⟩
  · exact Or.inr ⟨v, hv, hback.mono more⟩

/-- The counted form tells the labels. -/
theorem countedLabels_injective (h : counted l ++ [0] = counted s ++ [0]) : l = s := by
  induction l generalizing s with
  | nil =>
    cases s with
    | nil => rfl
    | cons b s =>
      have hhead := (List.cons.inj h).1
      exact absurd (congrArg UInt8.toNat hhead.symm) (by
        rw [b.count_toNat]
        exact Nat.ne_of_gt b.length_pos)
  | cons a l ih =>
    cases s with
    | nil =>
      have hhead := (List.cons.inj h).1
      exact absurd (congrArg UInt8.toNat hhead) (by
        rw [a.count_toNat]
        exact Nat.ne_of_gt a.length_pos)
    | cons b s =>
      rw [countedLabels_cons, countedLabels_cons, List.append_assoc, List.append_assoc] at h
      obtain ⟨hhead, hrest⟩ := List.cons.inj h
      have hlength := congrArg UInt8.toNat hhead
      rw [a.count_toNat, b.count_toNat] at hlength
      obtain ⟨hbytes, htail⟩ := List.append_inj hrest hlength
      have hab : a = b := by
        cases a
        cases b
        exact DnsLabel.mk.injEq .. |>.mpr hbytes
      rw [hab, ih htail]

/-- **What is misspelled is not found.** -/
theorem Misspelled.not_read (h : Misspelled q.body pos l) (hp : p.data = pos)
    (hname : p.name = []) :
    nameLoop q.packet fuel p ≠ some (.found (counted l ++ [0]) next) := by
  obtain ⟨u, s, e, rfl, he, hl, hcase⟩ := h
  subst hp
  intro hread
  obtain ⟨k, rfl, hrest⟩ := nameLoop_labels hl hread
  have hin : e ≤ q.packet.length := by
    rcases hcase with ⟨a, t, ht, -⟩ | ⟨v, -, hv⟩
    · exact ht.label.lt
    · exact hv.lt
  rcases nameLoop_pointer hl.split.2.packet he hin hrest with ⟨j, rfl, hstep⟩ | ⟨hr, -⟩
  · rcases hcase with ⟨a, t, ht, hne⟩ | ⟨v, hv, hback⟩
    · rcases nameLoop_label ht.label.packet hstep with ⟨i, rfl, hlabel⟩ | ⟨hr, -⟩
      · have hgrown : ((p.name ++ counted u).length : ℤ) <
            ((p.name ++ counted u ++ a.counted).length : ℕ) := by
          have hlength := a.length_counted
          simp only [List.length_append]
          omega
        rcases ht.rest.read (p := {
          data := e + a.counted.length, name := p.name ++ counted u ++ a.counted
          ptr := some (p.ptr.getD (p.data + (counted u).length))
          prevLength := (p.name ++ counted u).length }) rfl hgrown hlabel with
          ⟨next', heq⟩ | ⟨⟨name, hr⟩, -⟩
        · have hbytes := (NameResult.found.inj heq).1
          have hsplit : counted (u ++ s) = counted u ++ counted s := List.flatMap_append
          dsimp only at hbytes
          rw [hname, List.nil_append, hsplit, List.append_assoc, List.append_assoc,
            List.append_assoc, ← List.append_assoc a.counted, ← countedLabels_cons] at hbytes
          exact hne (countedLabels_injective (List.append_cancel_left hbytes)).symm
        · cases hr
      · cases hr
    · exact nameLoop_circle hv he hback rfl hstep
  · cases hr

/-! ## Comparing -/

theorem strncmpEq_append {n : ℕ} {x y : List UInt8} (hs : name.length = n) (ht : bytes.length = n) :
    strncmpEq n (name ++ x) (bytes ++ y) = strncmpEq n name bytes := by
  induction n generalizing name bytes with
  | zero => rfl
  | succ n ih =>
    cases name with
    | nil => cases hs
    | cons c name =>
      cases bytes with
      | nil => cases ht
      | cons d bytes =>
        rw [List.cons_append, List.cons_append, strncmpEq, strncmpEq,
          ih (Nat.succ.inj hs) (Nat.succ.inj ht)]

/-- `strncmp` on labels. -/
theorem strncmpEq_counted (a b : DnsLabel) (x y : List UInt8) :
    strncmpEq (a.bytes.length + 1) (a.counted ++ x) (b.counted ++ y) = a.agrees b := by
  have hcount : UInt8.ofNat a.bytes.length = UInt8.ofNat b.bytes.length ↔
      a.bytes.length = b.bytes.length := by
    rw [← UInt8.toNat_inj, a.count_toNat, b.count_toNat]
  have hzero : UInt8.ofNat a.bytes.length ≠ 0 := by
    intro h
    have hlength := congrArg UInt8.toNat h
    rw [a.count_toNat] at hlength
    exact Nat.ne_of_gt a.length_pos hlength
  unfold DnsLabel.agrees DnsLabel.counted
  rw [List.cons_append, List.cons_append, strncmpEq]
  by_cases hlength : a.bytes.length = b.bytes.length
  · rw [strncmpEq_append rfl hlength.symm, decide_eq_true (hcount.mpr hlength),
      decide_eq_true hlength, decide_eq_false hzero, Bool.false_or]
  · rw [decide_eq_false (mt hcount.mp hlength), decide_eq_false hlength, Bool.false_and,
      Bool.false_and]

/-- The places of the table and what was entered there, in the same order. -/
inductive Names (R : ℕ → DnsLabel → List DnsLabel → Prop) : List ℕ → List (List DnsLabel) → Prop
  | nil : Names R [] []
  | cons {e : ℕ} {a : DnsLabel} {l : List DnsLabel} {names : List ℕ}
    {table : List (List DnsLabel)} (h : R e a l) (hrest : Names R names table) :
    Names R (e :: names) ((a :: l) :: table)

section
variable {R R' : ℕ → DnsLabel → List DnsLabel → Prop} {names : List ℕ}
  {table : List (List DnsLabel)}

theorem Names.imp (h : Names R names table) (himp : ∀ e a l, R e a l → R' e a l) :
    Names R' names table := by
  induction h with
  | nil => exact .nil
  | cons h _ ih => exact .cons (himp _ _ _ h) ih

theorem Names.snoc (h : Names R names table) (he : R e a l) :
    Names R (names ++ [e]) (table ++ [a :: l]) := by
  induction h with
  | nil => exact .cons he .nil
  | cons h _ ih => exact .cons h ih

theorem Names.length (h : Names R names table) : names.length = table.length := by
  induction h with
  | nil => rfl
  | cons h _ ih => exact congrArg (· + 1) ih

/-- The table is searched for the first label of a name. -/
theorem Names.find (h : Names R names table) (hlies : ∀ e b t, R e b t → Lies q.body e b.counted)
    (x : List UInt8) :
    names.find? (fun sub => strncmpEq (a.bytes.length + 1) (a.counted ++ x) (q.packet.drop sub)) =
        none ∧ table.find? (fun t => t.head?.any a.agrees) = none ∨
      ∃ e b t, names.find? (fun sub =>
          strncmpEq (a.bytes.length + 1) (a.counted ++ x) (q.packet.drop sub)) = some e ∧
        table.find? (fun t => t.head?.any a.agrees) = some (b :: t) ∧ R e b t := by
  induction h with
  | nil => exact Or.inl ⟨rfl, rfl⟩
  | @cons e b t names table h _ ih =>
    obtain ⟨rest, hrest⟩ := (hlies e b t h).packet
    have hagrees : strncmpEq (a.bytes.length + 1) (a.counted ++ x) (q.packet.drop e) =
        a.agrees b := by
      rw [← hrest, strncmpEq_counted]
    have hhead : ((b :: t).head?.any a.agrees) = a.agrees b := rfl
    by_cases hab : a.agrees b
    · refine Or.inr ⟨e, b, t, ?_, ?_, h⟩
      · exact List.find?_cons_of_pos (by rw [hagrees]; exact hab)
      · exact List.find?_cons_of_pos (by rw [hhead]; exact hab)
    · rw [List.find?_cons_of_neg (by rw [hagrees]; exact hab),
        List.find?_cons_of_neg (by rw [hhead]; exact hab)]
      exact ih

end

/-! ## Writing -/

theorem DnsQuery.write_cases (room : ℕ) (q : DnsQuery) (bytes : List UInt8) :
    q.write room bytes = none ∧ room < q.packet.length + bytes.length ∨
      q.write room bytes = some { q with body := q.body ++ bytes } ∧
        q.packet.length + bytes.length ≤ room := by
  unfold DnsQuery.write
  by_cases h : q.packet.length + bytes.length ≤ room
  · exact Or.inr ⟨if_pos h, h⟩
  · exact Or.inl ⟨if_neg h, Nat.not_le.mp h⟩

theorem DnsQuery.length_written (h : q'.body = q.body ++ bytes) :
    q'.packet.length = q.packet.length + bytes.length := by
  rw [q'.length_packet, q.length_packet, h, List.length_append, Nat.add_assoc]

theorem compress_length {table table' : List (List DnsLabel)} {size : ℕ}
    (h : compress table l = some (table', size)) : table.length ≤ table'.length := by
  induction l generalizing table size with
  | nil =>
    obtain ⟨rfl, -⟩ := Prod.mk.inj (Option.some.inj h)
    exact Nat.le_refl _
  | cons a l ih =>
    unfold compress at h
    split at h
    · split_ifs at h
      obtain ⟨rfl, -⟩ := Prod.mk.inj (Option.some.inj h)
      exact Nat.le_refl _
    · obtain ⟨⟨table₁, size₁⟩, hrest, heq⟩ := Option.map_eq_some_iff.mp h
      obtain ⟨rfl, -⟩ := Prod.mk.inj heq
      have hle := ih hrest
      rw [List.length_append] at hle
      exact Nat.le_of_succ_le hle

/-- While `l` is still to be encoded: a place of the table is that of an earlier name, or of this
one, in front of `l`. -/
def Open (q : DnsQuery) (l : List DnsLabel) (e : ℕ) (a : DnsLabel) (t : List DnsLabel) : Prop :=
  Entered q.body e a t ∨ ∃ v, a :: t = v ++ l ∧ v ≠ [] ∧ Lies q.body e (counted v) ∧
    e + (counted v).length = q.packet.length

theorem Open.lies (h : Open q l e a t) : Lies q.body e a.counted := by
  rcases h with h | ⟨v, hv, hne, hlies, -⟩
  · exact h.label
  · obtain ⟨b, v, rfl⟩ := List.exists_cons_of_ne_nil hne
    rw [List.cons_append] at hv
    rw [countedLabels_cons, ← (List.cons.inj hv).1] at hlies
    exact hlies.split.1

theorem Spelled.labels {v : List DnsLabel} (hv : Lies body e (counted v))
    (hl : Spelled body (e + (counted v).length) l) : Spelled body e (v ++ l) := by
  induction v generalizing e with
  | nil => exact hl
  | cons a v ih =>
    rw [countedLabels_cons] at hv hl
    rw [List.length_append, ← Nat.add_assoc] at hl
    exact .label hv.split.1 (ih hv.split.2 hl)

/-- Once `l` is spelled, so is what stands in front of it. -/
theorem Open.close (h : Open q l e a t) (hbody : q'.body = q.body ++ more)
    (hl : Spelled q'.body q.packet.length l) : Entered q'.body e a t := by
  rcases h with h | ⟨v, hv, hne, hlies, hend⟩
  · rw [hbody]
    exact h.mono more
  · obtain ⟨b, v, rfl⟩ := List.exists_cons_of_ne_nil hne
    obtain ⟨rfl, rfl⟩ := List.cons.inj hv
    have hmore := hlies.mono more
    rw [← hbody, countedLabels_cons] at hmore
    rw [countedLabels_cons, List.length_append, ← Nat.add_assoc] at hend
    refine ⟨hmore.split.1, Spelled.labels hmore.split.2 ?_⟩
    rwa [hend]

/-- One more label is stored. -/
theorem Open.grow (h : Open q (a :: l) e b t) (hbody : q'.body = q.body ++ a.counted) :
    Open q' l e b t := by
  rcases h with h | ⟨v, hv, hne, hlies, hend⟩
  · left
    rw [hbody]
    exact h.mono _
  · refine Or.inr ⟨v ++ [a], ?_, ?_, ?_, ?_⟩
    · rw [hv, List.append_assoc]
      rfl
    · exact List.append_ne_nil_of_right_ne_nil _ (List.cons_ne_nil _ _)
    · rw [countedLabels_snoc, hbody]
      refine (hlies.mono _).append ?_
      rw [hend, q.length_packet]
      exact lies_end q.body a.counted
    · rw [countedLabels_snoc, List.length_append, ← Nat.add_assoc, hend,
        DnsQuery.length_written hbody]

/-- What the loop of `encode_name` has made of `l`. -/
def EncodedAs (q q' : DnsQuery) (table : List (List DnsLabel)) (l : List DnsLabel) : Prop :=
  (∃ table' size, compress table l = some (table', size) ∧
    q'.packet.length = q.packet.length + size ∧ Spelled q'.body q.packet.length l ∧
    Names (Entered q'.body) q'.names table') ∨
  compress table l = none ∧ Misspelled q'.body q.packet.length l

/-- The loop goes on behind a label. -/
theorem EncodedAs.cons {q₁ : DnsQuery} {table : List (List DnsLabel)}
    (hfind : table.find? (fun t => t.head?.any a.agrees) = none)
    (hbody : q₁.body = q.body ++ a.counted) (hmore : q'.body = q₁.body ++ more)
    (h : EncodedAs q₁ q' (table ++ [a :: l]) l) : EncodedAs q q' table (a :: l) := by
  have hlength := DnsQuery.length_written hbody
  have hlies : Lies q'.body q.packet.length a.counted := by
    rw [hmore, hbody, q.length_packet]
    exact (lies_end q.body a.counted).mono more
  have hcompress : compress table (a :: l) =
      (compress (table ++ [a :: l]) l).map fun r => (r.1, r.2 + a.counted.length) := by
    rw [compress, hfind]
  rcases h with ⟨table', size, heq, hend, hspelled, hnames⟩ | ⟨heq, u, s, e, rfl, he, hl, hcase⟩
  · left
    refine ⟨table', size + a.counted.length, ?_, ?_, ?_, hnames⟩
    · rw [hcompress, heq]
      rfl
    · rw [hend, hlength, Nat.add_assoc, Nat.add_comm size]
    · exact .label hlies (hlength ▸ hspelled)
  · right
    refine ⟨?_, a :: u, s, e, rfl, he, ?_, hcase⟩
    · rw [hcompress, heq]
      rfl
    · rw [countedLabels_cons, List.append_assoc]
      exact hlies.append (hlength ▸ hl)

/-- A label that the table has not got is stored. -/
theorem encodeLoop_miss (hfind : q.names.find? (fun sub =>
      strncmpEq (a.bytes.length + 1) (a.counted ++ name) (q.packet.drop sub)) = none) :
    q.encodeLoop room (fuel + 1) (a.counted ++ name) =
      if q.names.length = 14 then none
      else ({ q with names := q.names ++ [q.packet.length] }.write room a.counted).bind fun q =>
        q.encodeLoop room fuel name := by
  obtain ⟨hzero, -⟩ := label_bits (UInt8.ofNat a.bytes.length)
    (by rw [a.count_toNat]; exact a.length_pos) (by rw [a.count_toNat]; exact a.short)
  have htake : (a.counted ++ name).take (a.bytes.length + 1) = a.counted :=
    List.take_left' a.length_counted
  have hdrop : (a.counted ++ name).drop (a.bytes.length + 1) = name :=
    List.drop_left' a.length_counted
  have hname : a.counted ++ name = UInt8.ofNat a.bytes.length :: (a.bytes ++ name) := rfl
  rw [hname] at hfind htake hdrop ⊢
  rw [DnsQuery.encodeLoop, if_neg hzero]
  dsimp only
  rw [a.count_toNat, hfind, htake, hdrop]

/-- A pointer ends the name at a label that agrees with one of the table. -/
theorem encodeLoop_hit (hfind : q.names.find? (fun sub =>
      strncmpEq (a.bytes.length + 1) (a.counted ++ name) (q.packet.drop sub)) = some e) :
    q.encodeLoop room (fuel + 1) (a.counted ++ name) = q.write room (pack16 (0xc000 ||| e)) := by
  obtain ⟨hzero, -⟩ := label_bits (UInt8.ofNat a.bytes.length)
    (by rw [a.count_toNat]; exact a.length_pos) (by rw [a.count_toNat]; exact a.short)
  have hname : a.counted ++ name = UInt8.ofNat a.bytes.length :: (a.bytes ++ name) := rfl
  rw [hname] at hfind ⊢
  rw [DnsQuery.encodeLoop, if_neg hzero]
  dsimp only
  rw [a.count_toNat, hfind]

/-- **The loop of `encode_name`** ends without a result only where the table or the packet is too
small; and a name is encoded as it goes through the table. -/
theorem encodeLoop_spec {table : List (List DnsLabel)} (hroom : room ≤ 0x4000)
    (htable : Names (Open q l) q.names table) (hnames : q.names.length ≤ 14)
    (hfit : q.packet.length ≤ room) (hfuel : (counted l).length < fuel) :
    (q.encodeLoop room fuel (counted l ++ [0]) = none ∧ ∀ table' size,
      compress table l = some (table', size) →
        14 < table'.length ∨ room < q.packet.length + size) ∨
    ∃ q' more, q.encodeLoop room fuel (counted l ++ [0]) = some q' ∧ q'.body = q.body ++ more ∧
      q'.packet.length ≤ room ∧ q'.names.length ≤ 14 ∧ EncodedAs q q' table l := by
  induction l generalizing q table fuel with
  | nil =>
    obtain ⟨k, rfl⟩ : ∃ k, fuel = k + 1 := ⟨fuel - 1, by omega⟩
    have hloop : q.encodeLoop room (k + 1) (counted [] ++ [0]) = q.write room [0] := rfl
    rw [hloop]
    rcases q.write_cases room [0] with ⟨hwrite, hlong⟩ | ⟨hwrite, hshort⟩
    · refine Or.inl ⟨hwrite, fun table' size heq => Or.inr ?_⟩
      obtain ⟨-, rfl⟩ := Prod.mk.inj (Option.some.inj heq)
      exact hlong
    · right
      have hspelled : Spelled (q.body ++ [0]) q.packet.length [] := by
        rw [q.length_packet]
        exact .nil (lies_end q.body [0])
      have hlength : ({ q with body := q.body ++ [0] } : DnsQuery).packet.length =
          q.packet.length + [(0 : UInt8)].length := DnsQuery.length_written rfl
      refine ⟨_, [0], hwrite, rfl, ?_, hnames, Or.inl ⟨table, 1, rfl, hlength, hspelled, ?_⟩⟩
      · rw [hlength]
        exact hshort
      · exact htable.imp fun e a t h => h.close rfl hspelled
  | cons a l ih =>
    obtain ⟨k, rfl⟩ : ∃ k, fuel = k + 1 := ⟨fuel - 1, by omega⟩
    have hname : counted (a :: l) ++ [0] = a.counted ++ (counted l ++ [0]) := by
      rw [countedLabels_cons, List.append_assoc]
    rw [countedLabels_cons, List.length_append, a.length_counted] at hfuel
    rw [hname]
    rcases htable.find (a := a) (fun e b t h => h.lies) (counted l ++ [0]) with
      ⟨hfind, hfind'⟩ | ⟨e, b, t, hfind, hfind', hopen⟩
    · rw [encodeLoop_miss hfind]
      have hcompress : compress table (a :: l) =
          (compress (table ++ [a :: l]) l).map fun r => (r.1, r.2 + a.counted.length) := by
        rw [compress, hfind']
      by_cases hfull : q.names.length = 14
      · rw [if_pos hfull]
        refine Or.inl ⟨rfl, fun table' size heq => Or.inl ?_⟩
        rw [hcompress] at heq
        obtain ⟨⟨table₁, size₁⟩, hrest, hpair⟩ := Option.map_eq_some_iff.mp heq
        obtain ⟨rfl, -⟩ := Prod.mk.inj hpair
        have hgrown := compress_length hrest
        rw [List.length_append, ← htable.length, hfull] at hgrown
        exact hgrown
      · rw [if_neg hfull]
        rcases { q with names := q.names ++ [q.packet.length] }.write_cases room a.counted with
          ⟨hwrite, hlong⟩ | ⟨hwrite, hshort⟩
        · rw [hwrite]
          refine Or.inl ⟨rfl, fun table' size heq => Or.inr ?_⟩
          rw [hcompress] at heq
          obtain ⟨⟨table₁, size₁⟩, -, hpair⟩ := Option.map_eq_some_iff.mp heq
          obtain ⟨-, rfl⟩ := Prod.mk.inj hpair
          exact Nat.lt_of_lt_of_le hlong (Nat.add_le_add_left (Nat.le_add_left _ _) _)
        · rw [hwrite, Option.bind_some]
          generalize hq₁ : ({ q with
            names := q.names ++ [q.packet.length], body := q.body ++ a.counted } : DnsQuery) = q₁
          have hbody : q₁.body = q.body ++ a.counted := by rw [← hq₁]
          have hnames₁ : q₁.names = q.names ++ [q.packet.length] := by rw [← hq₁]
          have hlength := DnsQuery.length_written hbody
          have hgrown : Names (Open q₁ l) (q.names ++ [q.packet.length]) (table ++ [a :: l]) := by
            refine (htable.imp fun e b t h => h.grow hbody).snoc (Or.inr ⟨[a], rfl, ?_, ?_, ?_⟩)
            · exact List.cons_ne_nil _ _
            · rw [countedLabels_cons, hbody, q.length_packet]
              exact (List.append_nil a.counted).symm ▸ lies_end q.body a.counted
            · rw [hlength, countedLabels_cons]
              exact congrArg (q.packet.length + ·) (congrArg List.length (List.append_nil _))
          have hentries₁ : q₁.names.length ≤ 14 := by
            rw [hnames₁, List.length_append, List.length_singleton]
            omega
          have hfit₁ : q₁.packet.length ≤ room := by
            rw [hlength]
            exact hshort
          have hfuel₁ : (counted l).length < k := by omega
          rcases ih (hnames₁ ▸ hgrown) hentries₁ hfit₁ hfuel₁ with
            ⟨hnone, hlimits⟩ | ⟨q', more, hsome, hmore, hend, hentries, hencoded⟩
          · refine Or.inl ⟨hnone, fun table' size heq => ?_⟩
            rw [hcompress] at heq
            obtain ⟨⟨table₁, size₁⟩, hrest, hpair⟩ := Option.map_eq_some_iff.mp heq
            obtain ⟨rfl, rfl⟩ := Prod.mk.inj hpair
            refine (hlimits table₁ size₁ hrest).imp id fun hlong => ?_
            dsimp only
            omega
          · refine Or.inr ⟨q', a.counted ++ more, hsome, ?_, hend, hentries,
              hencoded.cons hfind' hbody hmore⟩
            rw [hmore, hbody, List.append_assoc]
    · rw [encodeLoop_hit hfind]
      have hcompress : compress table (a :: l) =
          if b :: t = a :: l then some (table, 2) else none := by
        rw [compress, hfind']
      have he : e < 0x4000 := by
        have hinside := hopen.lies.inside
        rw [← q.length_packet, b.length_counted] at hinside
        omega
      rcases q.write_cases room (pack16 (0xc000 ||| e)) with ⟨hwrite, hlong⟩ | ⟨hwrite, hshort⟩
      · refine Or.inl ⟨hwrite, fun table' size heq => Or.inr ?_⟩
        rw [hcompress] at heq
        split_ifs at heq
        obtain ⟨-, rfl⟩ := Prod.mk.inj (Option.some.inj heq)
        exact hlong
      · generalize hq' :
            ({ q with body := q.body ++ pack16 (0xc000 ||| e) } : DnsQuery) = q' at hwrite
        have hbody : q'.body = q.body ++ pack16 (0xc000 ||| e) := by rw [← hq']
        have hnames' : q'.names = q.names := by rw [← hq']
        have hlength := DnsQuery.length_written hbody
        have hpointer : Lies q'.body q.packet.length (pack16 (0xc000 ||| e)) := by
          rw [hbody, q.length_packet]
          exact lies_end q.body _
        have hfit' : q'.packet.length ≤ room := by
          rw [hlength]
          exact hshort
        refine Or.inr ⟨q', _, hwrite, hbody, hfit', hnames' ▸ hnames, ?_⟩
        by_cases hsame : b :: t = a :: l
        · left
          -- what is still to be encoded cannot be its own rest
          have hentered : Entered q'.body e a l := by
            rcases hopen with h | ⟨v, hv, hne, -⟩
            · obtain ⟨rfl, rfl⟩ := List.cons.inj hsame
              rw [hbody]
              exact h.mono _
            · rw [hsame] at hv
              exact absurd (List.self_eq_append_left.mp hv) hne
          have hspelled : Spelled q'.body q.packet.length (a :: l) :=
            .pointer hpointer he hentered.label hentered.rest
          refine ⟨table, 2, by rw [hcompress, if_pos hsame], hlength, hspelled, ?_⟩
          rw [hnames']
          exact htable.imp fun e a t h => h.close hbody hspelled
        · right
          refine ⟨by rw [hcompress, if_neg hsame], [], a :: l, e, rfl, he, hpointer, ?_⟩
          rcases hopen with h | ⟨v, -, hne, hlies, hend⟩
          · exact Or.inl ⟨b, t, hbody ▸ h.mono _, hsame⟩
          · refine Or.inr ⟨v, hne, (hbody ▸ hlies.mono _).append ?_⟩
            rw [hend]
            exact hpointer

/-! ## Questions -/

section
variable {table table' : List (List DnsLabel)} {size : ℕ} {x : DnsQuestion}
  {questions : List DnsQuestion}

/-- **One question**: `encodeLoop_spec` with the four bytes behind the name. -/
theorem dnssdQuestion_spec (hroom : room ≤ 0x4000) (htable : Names (Entered q.body) q.names table)
    (hnames : q.names.length ≤ 14) (hfit : q.packet.length ≤ room) :
    (q.dnssdQuestion room x.name.bytes x.type x.unicast = none ∧ ∀ table' size,
      compress table x.name.labels = some (table', size) →
        14 < table'.length ∨ room < q.packet.length + size + 4) ∨
    ∃ q' more, q.dnssdQuestion room x.name.bytes x.type x.unicast = some q' ∧
      q'.body = q.body ++ more ∧ q'.packet.length ≤ room ∧ q'.names.length ≤ 14 ∧
      ((∃ table' size, compress table x.name.labels = some (table', size) ∧
          q'.packet.length = q.packet.length + size + 4 ∧
          Spelled q'.body q.packet.length x.name.labels ∧
          Names (Entered q'.body) q'.names table') ∨
        compress table x.name.labels = none ∧
          Misspelled q'.body q.packet.length x.name.labels) := by
  have hcount : ({ q with count := q.count + 1 } : DnsQuery).packet.length = q.packet.length := rfl
  have hopen : Names (Open { q with count := q.count + 1 } x.name.labels) q.names table :=
    htable.imp fun e a t h => Or.inl h
  have hfuel : (counted x.name.labels).length < x.name.bytes.length := by
    unfold DnsName.bytes
    rw [List.length_append, List.length_singleton]
    exact Nat.lt_succ_self _
  unfold DnsQuery.dnssdQuestion DnsQuery.encodeName
  rcases encodeLoop_spec (q := { q with count := q.count + 1 }) hroom hopen hnames hfit hfuel with
    ⟨hnone, hlimits⟩ | ⟨q₁, more, hsome, hmore, hend, hentries, hencoded⟩
  · have hname : DnsQuery.encodeLoop room x.name.bytes.length
        { q with count := q.count + 1 } x.name.bytes = none := hnone
    rw [hname]
    refine Or.inl ⟨rfl, fun table' size heq => ?_⟩
    exact (hlimits table' size heq).imp id fun hlong => by omega
  · have hname : DnsQuery.encodeLoop room x.name.bytes.length
        { q with count := q.count + 1 } x.name.bytes = some q₁ := hsome
    rw [hname, Option.bind_some]
    rcases q₁.write_cases room (pack16 x.type ++ pack16 (x.unicast.toNat <<< 15 ||| 1)) with
      ⟨hwrite, hlong⟩ | ⟨hwrite, hshort⟩
    · refine Or.inl ⟨hwrite, fun table' size heq => Or.inr ?_⟩
      rcases hencoded with ⟨table₁, size₁, heq₁, hlength, -⟩ | ⟨heq₁, -⟩
      · rw [heq] at heq₁
        obtain ⟨-, rfl⟩ := Prod.mk.inj (Option.some.inj heq₁)
        rwa [hlength] at hlong
      · rw [heq] at heq₁
        cases heq₁
    · right
      refine ⟨_, _, hwrite, congrArg (· ++ _) hmore |>.trans (List.append_assoc _ _ _), ?_,
        hentries, ?_⟩
      · rw [DnsQuery.length_written rfl]
        exact hshort
      · rcases hencoded with ⟨table₁, size₁, heq₁, hlength, hspelled, htable₁⟩ | ⟨heq₁, hmis⟩
        · refine Or.inl ⟨table₁, size₁, heq₁, ?_, hspelled.mono _,
            htable₁.imp fun e a t h => h.mono _⟩
          rw [DnsQuery.length_written rfl, hlength]
          rfl
        · exact Or.inr ⟨heq₁, hmis.mono _⟩

theorem DnsQuery.ask_cons (room : ℕ) (q : DnsQuery) (x : DnsQuestion)
    (questions : List DnsQuestion) :
    q.ask room (x :: questions) =
      (q.dnssdQuestion room x.name.bytes x.type x.unicast).bind fun q => q.ask room questions := rfl

theorem compressAll_grows {start : ℕ}
    (h : compressAll table start questions = some (table', size)) :
    table.length ≤ table'.length ∧ start ≤ size := by
  induction questions generalizing table start with
  | nil =>
    obtain ⟨rfl, rfl⟩ := Prod.mk.inj (Option.some.inj h)
    exact ⟨Nat.le_refl _, Nat.le_refl _⟩
  | cons x questions ih =>
    obtain ⟨⟨table₁, size₁⟩, hx, hrest⟩ := Option.bind_eq_some_iff.mp h
    obtain ⟨hentries, hlength⟩ := ih hrest
    exact ⟨Nat.le_trans (compress_length hx) hentries, by omega⟩

/-- Nothing is taken back. -/
theorem encodeLoop_grows (h : q.encodeLoop room fuel name = some q') :
    ∃ more, q'.body = q.body ++ more := by
  induction fuel generalizing q name with
  | zero => cases h
  | succ fuel ih =>
    have hwritten : ∀ {q q' : DnsQuery} {bytes : List UInt8}, q.write room bytes = some q' →
        q'.body = q.body ++ bytes := by
      intro q q' bytes h
      rcases q.write_cases room bytes with ⟨hnone, -⟩ | ⟨hsome, -⟩
      · rw [hnone] at h
        cases h
      · rw [hsome] at h
        exact congrArg DnsQuery.body (Option.some.inj h).symm
    cases name with
    | nil => cases h
    | cons c name =>
      unfold DnsQuery.encodeLoop at h
      by_cases hzero : c = 0
      · rw [if_pos hzero] at h
        exact ⟨_, hwritten h⟩
      · rw [if_neg hzero] at h
        dsimp only at h
        split at h
        · exact ⟨_, hwritten h⟩
        · by_cases hfull : q.names.length = 14
          · rw [if_pos hfull] at h
            cases h
          · rw [if_neg hfull] at h
            obtain ⟨q₁, hwrite, hrest⟩ := Option.bind_eq_some_iff.mp h
            obtain ⟨more, hmore⟩ := ih hrest
            exact ⟨_, by rw [hmore, hwritten hwrite, List.append_assoc]⟩

theorem ask_grows (h : q.ask room questions = some q') : ∃ more, q'.body = q.body ++ more := by
  induction questions generalizing q with
  | nil =>
    obtain rfl := Option.some.inj h
    exact ⟨[], (List.append_nil _).symm⟩
  | cons x questions ih =>
    rw [q.ask_cons] at h
    obtain ⟨q₂, hx, hrest⟩ := Option.bind_eq_some_iff.mp h
    obtain ⟨q₁, hname, hwrite⟩ := Option.bind_eq_some_iff.mp hx
    obtain ⟨more, hmore⟩ := encodeLoop_grows hname
    obtain ⟨more', hmore'⟩ := ih hrest
    rcases q₁.write_cases room (pack16 x.type ++ pack16 (x.unicast.toNat <<< 15 ||| 1)) with
      ⟨hnone, -⟩ | ⟨hsome, -⟩
    · rw [hnone] at hwrite
      cases hwrite
    · rw [hsome] at hwrite
      obtain rfl := Option.some.inj hwrite
      exact ⟨_, by rw [hmore', hmore, List.append_assoc, List.append_assoc]⟩

/-- **Questions whose names go through the table** are added if the table and the packet are large
enough, and the names are spelled where they were added. -/
theorem ask_compressed (hroom : room ≤ 0x4000) (htable : Names (Entered q.body) q.names table)
    (hnames : q.names.length ≤ 14) (hfit : q.packet.length ≤ room)
    (h : compressAll table q.packet.length questions = some (table', size)) :
    (q.ask room questions = none ∧ (14 < table'.length ∨ room < size)) ∨
    ∃ q' more, q.ask room questions = some q' ∧ q'.body = q.body ++ more ∧
      table'.length ≤ 14 ∧ q'.names.length ≤ 14 ∧ size ≤ room ∧
      ∀ before x after, questions = before ++ x :: after →
        ∃ q₁, q.ask room before = some q₁ ∧ Spelled q'.body q₁.packet.length x.name.labels := by
  induction questions generalizing q table with
  | nil =>
    obtain ⟨rfl, rfl⟩ := Prod.mk.inj (Option.some.inj h)
    refine Or.inr ⟨q, [], rfl, (List.append_nil _).symm, htable.length ▸ hnames, hnames, hfit, ?_⟩
    intro before x after hsplit
    exact absurd hsplit (List.append_ne_nil_of_right_ne_nil _ (List.cons_ne_nil _ _)).symm
  | cons x questions ih =>
    obtain ⟨⟨table₁, size₁⟩, hx, hrest⟩ := Option.bind_eq_some_iff.mp h
    obtain ⟨hentries, hlength⟩ := compressAll_grows hrest
    rw [q.ask_cons]
    rcases dnssdQuestion_spec (x := x) hroom htable hnames hfit with
      ⟨hnone, hlimits⟩ | ⟨q₁, more, hsome, hmore, hend, hnames₁, hcase⟩
    · rw [hnone]
      exact Or.inl ⟨rfl, (hlimits table₁ size₁ hx).imp
        (fun hlong => Nat.lt_of_lt_of_le hlong hentries)
        fun hlong => Nat.lt_of_lt_of_le hlong hlength⟩
    · rw [hsome, Option.bind_some]
      rcases hcase with ⟨table₂, size₂, heq, hsize, hspelled, htable₁⟩ | ⟨heq, -⟩
      · rw [hx] at heq
        obtain ⟨rfl, rfl⟩ := Prod.mk.inj (Option.some.inj heq)
        rw [← hsize] at hrest
        rcases ih htable₁ hnames₁ hend hrest with
          hnone | ⟨q', more', hsome', hmore', hentries', hnames', hsize', hspelled'⟩
        · exact Or.inl hnone
        · refine Or.inr ⟨q', more ++ more', hsome', ?_, hentries', hnames', hsize', ?_⟩
          · rw [hmore', hmore, List.append_assoc]
          · intro before y after hsplit
            cases before with
            | nil =>
              obtain ⟨rfl, rfl⟩ := List.cons.inj hsplit
              exact ⟨q, rfl, hmore' ▸ hspelled.mono more'⟩
            | cons b before =>
              obtain ⟨rfl, rfl⟩ := List.cons.inj hsplit
              obtain ⟨q₂, hbefore, hy⟩ := hspelled' before y after rfl
              refine ⟨q₂, ?_, hy⟩
              rw [q.ask_cons, hsome, Option.bind_some]
              exact hbefore
      · rw [hx] at heq
        cases heq

/-- **Otherwise** one of the names is misspelled where it was added. -/
theorem ask_misspelled (hroom : room ≤ 0x4000) (htable : Names (Entered q.body) q.names table)
    (hnames : q.names.length ≤ 14) (hfit : q.packet.length ≤ room)
    (h : compressAll table q.packet.length questions = none)
    (hsome : q.ask room questions = some q') :
    ∃ before x after q₁, questions = before ++ x :: after ∧ q.ask room before = some q₁ ∧
      Misspelled q'.body q₁.packet.length x.name.labels := by
  induction questions generalizing q table with
  | nil => cases h
  | cons x questions ih =>
    rw [q.ask_cons] at hsome
    obtain ⟨q₁, hx, hrest⟩ := Option.bind_eq_some_iff.mp hsome
    rcases dnssdQuestion_spec (x := x) hroom htable hnames hfit with
      ⟨hnone, -⟩ | ⟨q₂, more, hx', hmore, hend, hnames₁, hcase⟩
    · rw [hx] at hnone
      cases hnone
    · rw [hx] at hx'
      obtain rfl := Option.some.inj hx'
      rcases hcase with ⟨table₁, size₁, heq, hsize, -, htable₁⟩ | ⟨-, hmis⟩
      · have hnone : compressAll table₁ q₁.packet.length questions = none := by
          rw [compressAll, heq, Option.bind_some] at h
          rw [hsize]
          exact h
        obtain ⟨before, y, after, q₂, rfl, hbefore, hmis⟩ := ih htable₁ hnames₁ hend hnone hrest
        refine ⟨x :: before, y, after, q₂, rfl, ?_, hmis⟩
        rw [q.ask_cons, hx, Option.bind_some]
        exact hbefore
      · obtain ⟨more', hmore'⟩ := ask_grows hrest
        exact ⟨[], x, questions, q, rfl, rfl, hmore' ▸ hmis.mono more'⟩

end
end

/-- **The names come back** exactly when each reference is to the whole rest of a name, with
fourteen entries at most and as far as there is room. -/
theorem namesComeBack_iff (room : Fin 0x4001) (questions : List DnsQuestion) :
    NamesComeBack room questions ↔ Compressible room questions := by
  have hroom : (room : ℕ) ≤ 0x4000 := Nat.le_of_lt_succ room.isLt
  have hempty : Names (Entered ({} : DnsQuery).body) ({} : DnsQuery).names [] := .nil
  constructor
  · rintro ⟨q₀, q, hq₀, hask, hnames, hback⟩
    unfold DnsQuery.dnssdQuery at hq₀
    split_ifs at hq₀ with hheader
    obtain rfl := Option.some.inj hq₀
    cases hall : compressAll [] 12 questions with
    | none =>
      obtain ⟨before, x, after, q₁, hsplit, hbefore, hmis⟩ :=
        ask_misspelled hroom hempty (Nat.zero_le _) hheader hall hask
      obtain ⟨q₂, next, hbefore', hfound⟩ := hback before x after hsplit
      rw [hbefore] at hbefore'
      obtain rfl := Option.some.inj hbefore'
      exact absurd hfound (hmis.not_read rfl rfl)
    | some r =>
      obtain ⟨table, size⟩ := r
      rcases ask_compressed hroom hempty (Nat.zero_le _) hheader hall with
        ⟨hnone, -⟩ | ⟨q', more, -, -, hentries, -, hsize, -⟩
      · rw [hask] at hnone
        cases hnone
      · exact ⟨table, size, hall, hentries, hsize⟩
  · rintro ⟨table, size, hall, hentries, hsize⟩
    have hheader : 12 ≤ (room : ℕ) := Nat.le_trans (compressAll_grows hall).2 hsize
    rcases ask_compressed hroom hempty (Nat.zero_le _) hheader hall with
      ⟨-, hlong⟩ | ⟨q, more, hask, -, -, hnames, -, hspelled⟩
    · omega
    · refine ⟨{}, q, if_pos hheader, hask, hnames, fun before x after hsplit => ?_⟩
      obtain ⟨q₁, hbefore, hx⟩ := hspelled before x after hsplit
      obtain ⟨r, hr, -⟩ := dns_name_safe q.packet q₁.packet.length
      have hshort := x.name.fits
      rw [List.length_append, List.length_singleton] at hshort
      rcases hx.read (p := { data := q₁.packet.length }) rfl (show (-1 : ℤ) < 0 by decide) hr with
        ⟨next, rfl⟩ | ⟨-, hlong⟩
      · exact ⟨q₁, next, hbefore, hr⟩
      · rw [List.length_nil] at hlong
        omega

/-- The service `x._tcp.local` and its host `x.local`. -/
def serviceAndHost : List DnsQuestion :=
  [{ name := {
      labels := [⟨[120], by decide, by decide⟩, ⟨[95, 116, 99, 112], by decide, by decide⟩,
        ⟨[108, 111, 99, 97, 108], by decide, by decide⟩]
      fits := by decide }
     type := 255
     unicast := false },
   { name := {
      labels := [⟨[120], by decide, by decide⟩, ⟨[108, 111, 99, 97, 108], by decide, by decide⟩]
      fits := by decide }
     type := 255
     unicast := false }]

/-- The label `x` of the host refers to the name of the service, which is found in its place. -/
theorem not_namesComeBack : ¬NamesComeBack 1500 serviceAndHost := by
  rintro ⟨q₀, q, hq₀, hask, -, hback⟩
  obtain rfl := Option.some.inj hq₀
  obtain ⟨q₁, next, hbefore, hfound⟩ := hback [serviceAndHost[0]] serviceAndHost[1] [] rfl
  have hq : q.packet = [0, 0, 0, 0, 0, 2, 0, 0, 0, 0, 0, 0, 1, 120, 4, 95, 116, 99, 112, 5, 108,
      111, 99, 97, 108, 0, 0, 255, 0, 1, 192, 12, 0, 255, 0, 1] := by
    obtain rfl := Option.some.inj hask
    rfl
  have hq₁ : q₁.packet.length = 30 := by
    obtain rfl := Option.some.inj hbefore
    rfl
  have hread : dnsName q.packet q₁.packet.length =
      some (.found serviceAndHost[0].name.bytes 32) := by
    rw [hq, hq₁]
    decide +kernel
  rw [hread] at hfound
  exact absurd (NameResult.found.inj (Option.some.inj hfound)).1 (by decide)

end SeClient
