import Mathlib.Data.Nat.Digits.Lemmas
import SeClient.Uri

/-!
# Request targets

A Stub is named by the path that `get_resource` decodes from an href.  `get_seq` and `http_get`
send the name as it is, and `request_target` decodes what was sent when the response arrives.
-/

namespace SeClient

/-! ## Requests -/

/-- The `%d` of a number. -/
def decimalText (z : ℤ) : CString :=
  let digits := if z.natAbs = 0 then [48]
    else (Nat.digits 10 z.natAbs).reverse.map fun d => UInt8.ofNat (48 + d)
  if z < 0 then 45 :: digits else digits

/-- What `get_seq` appends to the name of a Stub. -/
def seqQuery (offset count : ℤ) : CString :=
  if count = 0 then []
  else
    let count := min count 255
    if offset ≠ 0 then
      chars ['?', 's', '='] ++ decimalText offset ++ chars ['&', 'l', '='] ++ decimalText count
    else chars ['?', 'l', '='] ++ decimalText count

/-- The URI `get_seq` writes, `none` when it does not fit `uri`. -/
def seqUri (name : CString) (offset count : ℤ) : Option CString :=
  let uri := name ++ seqQuery offset count
  if count = 0 ∨ uri.length < 64 then some uri else none

/-- What a request says besides its target: what `http_date` and `write_address_port` write, and
the fields `version` and `accept` of the connection. -/
structure RequestTexts where
  version : CString
  date : CString
  host : CString
  accept : CString

/-- The line of a request. -/
def requestLineText (method uri version : CString) : CString :=
  method ++ 32 :: (uri ++ 32 :: (version ++ [13, 10]))

/-- `http_request` -/
def httpRequest (r : RequestTexts) (uri method : CString) : CString :=
  requestLineText method uri r.version ++ r.date ++ chars ['H', 'o', 's', 't', ':', ' '] ++
    r.host ++ [13, 10] ++ chars ['A', 'c', 'c', 'e', 'p', 't', ':', ' '] ++ r.accept ++ [13, 10]

/-- `http_get`: what is written, `none` when it does not fit `buffer`. -/
def httpGet (r : RequestTexts) (uri : CString) : Option CString :=
  let text := httpRequest r uri (chars ['G', 'E', 'T']) ++ [13, 10]
  if text.length < 256 then some text else none

/-! ## Agreement -/

/-- The characters of a request target (RFC 7230 and RFC 3986): unreserved characters,
sub-delimiters, and `:`, `@`, `/`, `?` and `%`. -/
def TargetChar (c : UInt8) : Prop :=
  alpha c ∨ digit c ∨ c ∈ chars ['-', '.', '_', '~'] ∨
    c ∈ chars ['!', '$', '&', '\'', '(', ')', '*', '+', ',', ';', '='] ∨
    c ∈ chars [':', '@', '/', '?', '%']

instance : DecidablePred TargetChar := fun _ => inferInstanceAs (Decidable (_ ∨ _))

/-- `find_target`, with `find_stub` on the connection of the response. -/
def findTarget {α : Type} (findStub : CString → Option α) (uri : Uri) (target : CString) :
    Option α :=
  match requestTargetUri uri target with
  | some (some uri) => findStub uri.path
  | _ => none

/-- **Agreement** for the Stub of a name: the request for `count` items from `offset` on has a
legal target, from which the response finds the Stub of that name.  `last` is the `Uri` of the
message before the response. -/
def TargetAgrees (r : RequestTexts) (last : Uri) (name : CString) (offset count : ℤ) : Prop :=
  ∃ target rest, seqUri name offset count = some target ∧
    httpGet r target = some (requestLineText (chars ['G', 'E', 'T']) target r.version ++ rest) ∧
    (∀ c ∈ target, TargetChar c) ∧
    (∃ uri, requestTargetUri last target = some (some uri) ∧ uri.path = name) ∧
    ∀ (α : Type) (findStub : CString → Option α), findTarget findStub last target = findStub name

/-! ## When they agree -/

/-- The characters of a path: those of a target but for `?` and `%`. -/
def PathChar (c : UInt8) : Prop := TargetChar c ∧ c ≠ 63 ∧ c ≠ 37

instance : DecidablePred PathChar := fun _ => inferInstanceAs (Decidable (_ ∧ _))

/-- A path ends, to a parser or to a C string. -/
def PathEnds (s : CString) : Prop :=
  (∀ c ∈ s.head?, c = 63 ∨ c = 0 ∨ ws c = true) ∨ [37, 48, 48] <+: s

/-- A text is a path of `n` characters in front of something else.  Every escape in it stands for
a character of a path. -/
inductive PlainPath : CString → ℕ → Prop
  | ends {s : CString} (h : PathEnds s) : PlainPath s 0
  | char {c : UInt8} {s : CString} {n : ℕ} (hc : PathChar c) (h : PlainPath s n) :
    PlainPath (c :: s) (n + 1)
  | escape {x y : UInt8} {a b : ℕ} {s : CString} {n : ℕ} (hx : hex4 x = some a)
    (hy : hex4 y = some b) (hc : PathChar (UInt8.ofNat (16 * a + b))) (h : PlainPath s n) :
    PlainPath (37 :: x :: y :: s) (n + 1)

/-- A path begins with `/`. -/
def Rooted (text : CString) : Prop :=
  [47] <+: text ∨ [37, 50, 70] <+: text ∨ [37, 50, 102] <+: text

/-- The text of the path of an href. -/
def pathText (secure : Bool) (href : CString) : Option CString :=
  ((uriFront (connUri secure) href).bind id).map Prod.snd

/-- The request for a path of `n` characters fits its buffers. -/
def RequestFits (r : RequestTexts) (n : ℕ) (offset count : ℤ) : Prop :=
  (count ≠ 0 → n + (seqQuery offset count).length < 64) ∧
    n + (seqQuery offset count).length + r.version.length + r.date.length + r.host.length +
      r.accept.length + 27 < 256

/-- The path of an href is sent as it was written, in a request that fits its buffers. -/
def SentAsWritten (secure : Bool) (href : CString) (r : RequestTexts) (offset count : ℤ) : Prop :=
  ∃ text n, pathText secure href = some text ∧ Rooted text ∧ PlainPath text n ∧
    RequestFits r n offset count

/-! ## Characters -/

theorem copied_iff : ∀ c : UInt8, copied c = true ↔ PathChar c := by
  apply forall_byte
  decide +kernel

theorem PathChar.not_end : ∀ {c : UInt8}, PathChar c →
    ¬(c = 63 ∨ c = 0 ∨ ws c = true) ∧ c ≠ 37 := by
  intro c
  refine forall_byte (p := fun c => PathChar c → ¬(c = 63 ∨ c = 0 ∨ ws c = true) ∧ c ≠ 37) ?_ c
  decide +kernel

theorem hex4_lt {c : UInt8} {a : ℕ} (h : hex4 c = some a) : a < 16 := by
  revert h
  unfold hex4
  have htoNat := c.toNat_lt
  split
  · rename_i hc
    simp only [UInt8.le_iff_toNat_le] at hc
    intro h
    have h9 := hc.2
    rw [← Option.some.inj h]
    change c.toNat ≤ 57 at h9
    omega
  split
  · rename_i hc
    have hf := UInt8.le_iff_toNat_le.mp hc.2
    change c.toNat ≤ 102 at hf
    intro h
    rw [← Option.some.inj h]
    omega
  split
  · rename_i hc
    have hf := UInt8.le_iff_toNat_le.mp hc.2
    change c.toNat ≤ 70 at hf
    intro h
    rw [← Option.some.inj h]
    omega
  · intro h
    exact absurd h.symm (Option.some_ne_none _)

/-- What an escape stands for. -/
theorem shift_digit {a b : ℕ} (ha : a < 16) (hb : b < 16) : a <<< 4 ||| b = 16 * a + b := by
  have hdigits : ∀ a < 16, ∀ b < 16, a <<< 4 ||| b = 16 * a + b := by decide +kernel
  exact hdigits a ha b hb

/-! ## Decoding a path -/

section Decoding
variable {c b : UInt8} {data rest d r s q text : CString} {fuel n : ℕ}

theorem pchar_cases (h : pchar (c :: data) = some (b, rest)) :
    PathChar c ∧ b = c ∧ rest = data ∨
      c = 37 ∧ ∃ x y v w, data = x :: y :: rest ∧ hex4 x = some v ∧ hex4 y = some w ∧
        b = UInt8.ofNat (16 * v + w) := by
  unfold pchar at h
  dsimp only at h
  split at h
  · rename_i hcopied
    obtain ⟨rfl, rfl⟩ := Prod.mk.inj (Option.some.inj h)
    exact .inl ⟨(copied_iff _).mp hcopied, rfl, rfl⟩
  split at h
  · rename_i hc
    right
    refine ⟨hc, ?_⟩
    split at h
    · rename_i x y data'
      obtain ⟨v, hv, h⟩ := Option.bind_eq_some_iff.mp h
      obtain ⟨w, hw, h⟩ := Option.map_eq_some_iff.mp h
      obtain ⟨rfl, rfl⟩ := Prod.mk.inj h
      rw [shift_digit (hex4_lt hv) (hex4_lt hw)]
      exact ⟨x, y, v, w, rfl, hv, hw, rfl⟩
    · exact absurd h.symm (Option.some_ne_none _)
  · exact absurd h.symm (Option.some_ne_none _)

/-- A step of state 6. -/
theorem component_cases (h : componentLoop false fuel text = some (d, r)) :
    d = [] ∧ r = text ∧ (∀ c ∈ text.head?, c = 63 ∨ c = 0 ∨ ws c = true) ∨
      ∃ c data b rest d' k, text = c :: data ∧ ¬(c = 63 ∨ c = 0 ∨ ws c = true) ∧
        pchar (c :: data) = some (b, rest) ∧ fuel = k + 1 ∧
        componentLoop false k rest = some (d', r) ∧ d = b :: d' := by
  cases fuel with
  | zero => exact absurd h.symm (Option.some_ne_none _)
  | succ k =>
    cases text with
    | nil =>
      obtain ⟨rfl, rfl⟩ := Prod.mk.inj (Option.some.inj h)
      exact .inl ⟨rfl, rfl, by simp⟩
    | cons c data =>
      unfold componentLoop at h
      simp only [Bool.false_eq_true, if_false] at h
      by_cases hquery : c = 63
      · rw [if_pos hquery] at h
        obtain ⟨rfl, rfl⟩ := Prod.mk.inj (Option.some.inj h)
        exact .inl ⟨rfl, rfl, by simp [hquery]⟩
      rw [if_neg hquery] at h
      by_cases hend : c = 0 ∨ ws c = true
      · rw [if_pos hend] at h
        obtain ⟨rfl, rfl⟩ := Prod.mk.inj (Option.some.inj h)
        exact .inl ⟨rfl, rfl, by simp [hend]⟩
      rw [if_neg hend] at h
      obtain ⟨⟨b, rest⟩, hchar, h⟩ := Option.bind_eq_some_iff.mp h
      obtain ⟨⟨d', r'⟩, hloop, h⟩ := Option.map_eq_some_iff.mp h
      obtain ⟨rfl, rfl⟩ := Prod.mk.inj h
      exact .inr ⟨c, data, b, rest, d', k, rfl, fun h => h.elim hquery hend, hchar, rfl, hloop, rfl⟩

/-- An end is not the first character of a path. -/
theorem pathEnds_cons (hc : PathChar c) : ¬PathEnds (c :: s) := by
  rintro (h | h)
  · exact hc.not_end.1 (h c rfl)
  · exact hc.not_end.2 (List.cons_prefix_cons.mp h).1.symm

theorem plainPath_char (hc : PathChar c) :
    PlainPath (c :: s) n ↔ ∃ m, n = m + 1 ∧ PlainPath s m := by
  constructor
  · intro h
    cases h with
    | ends h => exact absurd h (pathEnds_cons hc)
    | char _ h => exact ⟨_, rfl, h⟩
    | escape => exact absurd rfl hc.not_end.2
  · rintro ⟨m, rfl, h⟩
    exact .char hc h

theorem plainPath_escape {x y : UInt8} {v w : ℕ} (hx : hex4 x = some v) (hy : hex4 y = some w) :
    PlainPath (37 :: x :: y :: s) n ↔
      if UInt8.ofNat (16 * v + w) = 0 then n = 0
      else PathChar (UInt8.ofNat (16 * v + w)) ∧ ∃ m, n = m + 1 ∧ PlainPath s m := by
  have hzero : ∀ v < 16, ∀ w < 16, UInt8.ofNat (16 * v + w) = 0 → v = 0 ∧ w = 0 := by
    decide +kernel
  have hdigit : ∀ c : UInt8, hex4 c = some 0 ↔ c = 48 := by
    apply forall_byte
    decide +kernel
  have hends : PathEnds (37 :: x :: y :: s) ↔ UInt8.ofNat (16 * v + w) = 0 := by
    constructor
    · rintro (h | h)
      · exact absurd (h 37 rfl) (by decide)
      · obtain ⟨-, htail⟩ := List.cons_prefix_cons.mp h
        obtain ⟨rfl, hlast⟩ := List.cons_prefix_cons.mp htail
        obtain ⟨rfl, -⟩ := List.cons_prefix_cons.mp hlast
        obtain rfl := Option.some.inj (hx.symm.trans ((hdigit 48).mpr rfl))
        obtain rfl := Option.some.inj (hy.symm.trans ((hdigit 48).mpr rfl))
        rfl
    · intro h
      obtain ⟨rfl, rfl⟩ := hzero v (hex4_lt hx) w (hex4_lt hy) h
      rw [(hdigit x).mp hx, (hdigit y).mp hy]
      exact .inr ⟨s, rfl⟩
  constructor
  · intro h
    cases h with
    | ends h => rw [if_pos (hends.mp h)]
    | char hc => exact absurd rfl hc.not_end.2
    | @escape _ _ a b _ m hx' hy' hc h =>
      obtain rfl := Option.some.inj (hx'.symm.trans hx)
      obtain rfl := Option.some.inj (hy'.symm.trans hy)
      rw [if_neg fun h => hc.not_end.1 (.inr (.inl h))]
      exact ⟨hc, m, rfl, h⟩
  · intro h
    split at h
    · rename_i hnul
      rw [h]
      exact .ends (hends.mpr hnul)
    · obtain ⟨hc, m, rfl, h⟩ := h
      exact .escape hx hy hc h

theorem upToNul_cons (hb : b ≠ 0) : upToNul (b :: d) = b :: upToNul d := by
  simp [upToNul, hb]

/-- **The first parse**: a path is plain if the name it is decoded to has only characters of
paths. -/
theorem plainPath_iff (h : componentLoop false fuel text = some (d, r)) :
    PlainPath text n ↔ (∀ b ∈ upToNul d, PathChar b) ∧ (upToNul d).length = n := by
  induction fuel generalizing text d n with
  | zero => exact absurd h.symm (Option.some_ne_none _)
  | succ k ih =>
    obtain ⟨rfl, -, hend⟩ | ⟨c, data, b, rest, d', k', rfl, hend, hchar, hk, hloop, rfl⟩ :=
      component_cases h
    · have hends : PathEnds text := .inl hend
      simp only [upToNul, List.takeWhile_nil, List.not_mem_nil, false_implies, implies_true,
        List.length_nil, true_and]
      constructor
      · intro hplain
        cases hplain with
        | ends => rfl
        | char hc => exact absurd hends (pathEnds_cons hc)
        | escape => exact absurd (hend 37 rfl) (by decide)
      · rintro rfl
        exact .ends hends
    · obtain rfl := Nat.succ.inj hk
      have hrest := fun m => ih (n := m) hloop
      obtain ⟨hc, rfl, rfl⟩ | ⟨rfl, x, y, v, w, rfl, hx, hy, rfl⟩ := pchar_cases hchar
      · have hb : b ≠ 0 := fun h => hc.not_end.1 (.inr (.inl h))
        simp only [plainPath_char hc, hrest, upToNul_cons hb, List.forall_mem_cons,
          List.length_cons]
        constructor
        · rintro ⟨m, rfl, hall, rfl⟩
          exact ⟨⟨hc, hall⟩, rfl⟩
        · rintro ⟨⟨-, hall⟩, rfl⟩
          exact ⟨_, rfl, hall, rfl⟩
      · rw [plainPath_escape hx hy]
        split
        · rename_i hnul
          rw [hnul]
          simp [upToNul, eq_comm]
        · rename_i hnul
          simp only [hrest, upToNul_cons hnul, List.forall_mem_cons, List.length_cons]
          constructor
          · rintro ⟨hc, m, rfl, hall, rfl⟩
            exact ⟨⟨hc, hall⟩, rfl⟩
          · rintro ⟨⟨hc, hall⟩, rfl⟩
            exact ⟨hc, _, rfl, hall, rfl⟩

/-- The name begins with `/` if the path does. -/
theorem rooted_iff (h : componentLoop false fuel text = some (d, r)) :
    (upToNul d).head? = some 47 ↔ Rooted text := by
  have hslash : ∀ v < 16, ∀ w < 16, UInt8.ofNat (16 * v + w) = 47 ↔ v = 2 ∧ w = 15 := by
    decide +kernel
  have hdigits : ∀ c : UInt8,
      (hex4 c = some 2 ↔ c = 50) ∧ (hex4 c = some 15 ↔ c = 70 ∨ c = 102) := by
    apply forall_byte
    decide +kernel
  obtain ⟨rfl, -, hend⟩ | ⟨c, data, b, rest, d', k, rfl, hend, hchar, -, hloop, rfl⟩ :=
    component_cases h
  · have hroot : ¬Rooted text := by
      rintro (⟨s, rfl⟩ | ⟨s, rfl⟩ | ⟨s, rfl⟩)
      · exact absurd (hend 47 rfl) (by decide)
      · exact absurd (hend 37 rfl) (by decide)
      · exact absurd (hend 37 rfl) (by decide)
    exact ⟨fun h => absurd h (by simp [upToNul]), fun h => absurd h hroot⟩
  have hhead : (upToNul (b :: d')).head? = some 47 ↔ b = 47 := by
    by_cases hb : b = 0
    · rw [hb]
      simp [upToNul]
    · rw [upToNul_cons hb, List.head?_cons, Option.some.injEq]
  rw [hhead]
  simp only [Rooted, List.cons_prefix_cons, List.nil_prefix, and_true]
  obtain ⟨hc, rfl, rfl⟩ | ⟨rfl, x, y, v, w, rfl, hx, hy, rfl⟩ := pchar_cases hchar
  · have hescape : ¬(37 : UInt8) = b := fun h => hc.not_end.2 h.symm
    simp [hescape, eq_comm]
  · rw [hslash v (hex4_lt hx) w (hex4_lt hy)]
    have htwo := (hdigits x).1
    have hfifteen := (hdigits y).2
    rw [hx, Option.some.injEq] at htwo
    rw [hy, Option.some.injEq] at hfifteen
    simp only [htwo, hfifteen, List.cons_prefix_cons, List.nil_prefix, and_true,
      show ¬(47 : UInt8) = 37 by decide, false_or, true_and, and_or_left, eq_comm]

/-- Characters of paths are read as they are. -/
theorem component_plain {query : Bool} (hs : ∀ c ∈ s, PathChar c)
    (hq : ∀ c ∈ q.head?, c = 63 ∧ query = false) (hfuel : s.length < fuel) :
    componentLoop query fuel (s ++ q) = some (s, q) := by
  induction s generalizing fuel with
  | nil =>
    obtain ⟨k, rfl⟩ : ∃ k, fuel = k + 1 := ⟨fuel - 1, (Nat.sub_add_cancel hfuel).symm⟩
    cases q with
    | nil => rfl
    | cons c q =>
      obtain ⟨rfl, rfl⟩ := hq c rfl
      rfl
  | cons c s ih =>
    obtain ⟨k, rfl⟩ : ∃ k, fuel = k + 1 := ⟨fuel - 1, (Nat.sub_add_cancel (by omega)).symm⟩
    obtain ⟨hc, hs⟩ := List.forall_mem_cons.mp hs
    have hchar : pchar (c :: (s ++ q)) = some (c, s ++ q) := if_pos ((copied_iff c).mpr hc)
    rw [List.length_cons] at hfuel
    rw [List.cons_append, componentLoop, if_neg fun h => hc.not_end.1 (.inl h),
      if_neg fun h => hc.not_end.1 (.inr h), hchar, Option.bind_some]
    dsimp only
    rw [ih hs (by omega)]
    rfl

/-- Both digits of an escape belong to the text, since what follows it begins with `?`. -/
theorem digits_inside {x y : UInt8} {v w : ℕ} (h : s ++ q = x :: y :: rest)
    (hq : ∀ c ∈ q.head?, c = 63) (hx : hex4 x = some v) (hy : hex4 y = some w) :
    ∃ s', s = x :: y :: s' ∧ rest = s' ++ q := by
  have hquestion : hex4 63 = none := by decide
  cases s with
  | nil =>
    rw [List.nil_append] at h
    rw [h] at hq
    rw [hq x rfl, hquestion] at hx
    exact absurd hx.symm (Option.some_ne_none _)
  | cons z s =>
    obtain ⟨rfl, htail⟩ := List.cons.inj h
    cases s with
    | nil =>
      change q = y :: rest at htail
      rw [htail] at hq
      rw [hq y rfl, hquestion] at hy
      exact absurd hy.symm (Option.some_ne_none _)
    | cons z s =>
      obtain ⟨rfl, hrest⟩ := List.cons.inj htail
      exact ⟨s, rfl, hrest.symm⟩

/-- A text is decoded to no more characters than it has, and to fewer where it has an escape or
ends early. -/
theorem component_length (h : componentLoop false fuel (s ++ q) = some (d, r))
    (hq : ∀ c ∈ q.head?, c = 63) :
    d.length ≤ s.length ∧ (d.length = s.length → ∀ c ∈ s, PathChar c) := by
  induction fuel generalizing s d with
  | zero => exact absurd h.symm (Option.some_ne_none _)
  | succ k ih =>
    obtain ⟨rfl, -, hend⟩ | ⟨c, data, b, rest, d', k', htext, hend, hchar, hk, hloop, rfl⟩ :=
      component_cases h
    · refine ⟨Nat.zero_le _, fun hlen => ?_⟩
      rw [List.length_eq_zero_iff.mp hlen.symm]
      exact fun c hc => absurd hc List.not_mem_nil
    · obtain rfl := Nat.succ.inj hk
      cases s with
      | nil =>
        rw [List.nil_append] at htext
        rw [htext] at hq
        exact absurd (.inl (hq c rfl)) hend
      | cons x s =>
        rw [List.cons_append] at htext
        obtain ⟨rfl, rfl⟩ := List.cons.inj htext
        obtain ⟨hc, rfl, rfl⟩ | ⟨rfl, x, y, v, w, hdata, hx, hy, rfl⟩ := pchar_cases hchar
        · obtain ⟨hle, heq⟩ := ih hloop
          refine ⟨Nat.succ_le_succ hle, fun hlen => List.forall_mem_cons.mpr ⟨hc, ?_⟩⟩
          exact heq (Nat.succ.inj hlen)
        · obtain ⟨s, rfl, rfl⟩ := digits_inside hdata hq hx hy
          have hle := (ih hloop).1
          simp only [List.length_cons]
          exact ⟨by omega, fun hlen => by omega⟩

end Decoding

/-! ## What a URI skips -/

/-- A text is read up to a rest of it, and no `?` is passed. -/
def Skips (data rest : CString) : Prop := ∃ used, data = used ++ rest ∧ (63 : UInt8) ∉ used

namespace Skips
variable {data rest rest' : CString} {c : UInt8}

theorem refl (data : CString) : Skips data data := ⟨[], rfl, List.not_mem_nil⟩

theorem trans (h : Skips data rest) (h' : Skips rest rest') : Skips data rest' := by
  obtain ⟨used, rfl, hused⟩ := h
  obtain ⟨used', rfl, hused'⟩ := h'
  refine ⟨used ++ used', (List.append_assoc ..).symm, ?_⟩
  rw [List.mem_append]
  exact fun h => h.elim hused hused'

theorem cons (hc : c ≠ 63) (h : Skips data rest) : Skips (c :: data) rest := by
  obtain ⟨used, rfl, hused⟩ := h
  exact ⟨c :: used, rfl, List.not_mem_cons_of_ne_of_not_mem hc.symm hused⟩

theorem dropWhile {p : UInt8 → Bool} (hp : p 63 = false) : Skips data (data.dropWhile p) := by
  refine ⟨data.takeWhile p, List.takeWhile_append_dropWhile.symm, fun h => ?_⟩
  rw [List.mem_takeWhile_imp h] at hp
  exact Bool.noConfusion hp

end Skips

section Skipping
variable {data rest : CString}

theorem hex4_skips {c : UInt8} {v : ℕ} (h : hex4 c = some v) : c ≠ 63 := by
  rintro rfl
  have hquestion : hex4 63 = none := by decide
  rw [hquestion] at h
  exact absurd h.symm (Option.some_ne_none _)

theorem hex16Loop_skips {left n x y : ℕ} (h : hex16Loop left n x data = some (y, rest)) :
    Skips data rest := by
  induction left generalizing n x data with
  | zero =>
    obtain ⟨-, rfl⟩ := Prod.mk.inj (Option.some.inj h)
    exact .refl _
  | succ left ih =>
    unfold hex16Loop at h
    split at h
    · rename_i v hdigit
      cases data with
      | nil => exact absurd hdigit.symm (Option.some_ne_none _)
      | cons c data => exact .cons (hex4_skips hdigit) (ih h)
    · split at h
      · obtain ⟨-, rfl⟩ := Prod.mk.inj (Option.some.inj h)
        exact .refl _
      · exact absurd h.symm (Option.some_ne_none _)

theorem number_skips {z : ℤ} (h : number data = some (z, rest)) : Skips data rest := by
  unfold number at h
  split at h
  · exact absurd h.symm (Option.some_ne_none _)
  · obtain ⟨-, rfl⟩ := Prod.mk.inj (Option.some.inj h)
    exact .dropWhile (by decide)

/-- What `parse_ipv6` makes of a `?` is a group or an error. -/
theorem ipv6State_question (n : ℕ) : ipv6State.getD (n * 3 + ipv6Input 63) 7 = 3 ∨
    ipv6State.getD (n * 3 + ipv6Input 63) 7 = 5 ∨ ipv6State.getD (n * 3 + ipv6Input 63) 7 = 7 := by
  by_cases hn : n < 7
  · have hstates : ∀ n < 7, ipv6State.getD (n * 3 + ipv6Input 63) 7 = 3 ∨
        ipv6State.getD (n * 3 + ipv6Input 63) 7 = 5 ∨
          ipv6State.getD (n * 3 + ipv6Input 63) 7 = 7 := by
      decide
    exact hstates n hn
  · have hlength : ipv6State.length ≤ n * 3 + ipv6Input 63 := by
      change 21 ≤ n * 3 + 2
      omega
    rw [List.getD_eq_getElem?_getD, List.getElem?_eq_none hlength]
    exact .inr (.inr rfl)

theorem group_skips {p p' : Ipv6Parser} (h : p.group data = some (some (p', rest))) :
    Skips data rest := by
  unfold Ipv6Parser.group at h
  split at h
  · exact absurd (Option.some.inj h).symm (Option.some_ne_none _)
  · rename_i x last hhex
    split at h
    · obtain ⟨-, rfl⟩ := Prod.mk.inj (Option.some.inj (Option.some.inj h))
      exact hex16Loop_skips hhex
    · exact absurd h.symm (Option.some_ne_none _)

theorem ipv6Loop_skips {fuel : ℕ} {p : Ipv6Parser} {addr : List UInt8}
    (h : ipv6Loop fuel p data = some (some (addr, rest))) : Skips data rest := by
  induction fuel generalizing p data with
  | zero => exact absurd (Option.some.inj h).symm (Option.some_ne_none _)
  | succ fuel ih =>
    cases data with
    | nil => exact absurd (Option.some.inj h).symm (Option.some_ne_none _)
    | cons c data =>
      have hquestion := ipv6State_question p.state
      unfold ipv6Loop at h
      dsimp only at h
      generalize hstate : ipv6State.getD (p.state * 3 + ipv6Input c) 7 = state at h
      have hc : state ≠ 3 → state ≠ 5 → state ≠ 7 → c ≠ 63 := by
        rintro h₃ h₅ h₇ rfl
        rw [hstate] at hquestion
        exact hquestion.elim h₃ fun h => h.elim h₅ h₇
      split at h
      · exact .cons (hc (by decide) (by decide) (by decide)) (ih h)
      · split at h
        · exact absurd h.symm (Option.some_ne_none _)
        · exact absurd (Option.some.inj h).symm (Option.some_ne_none _)
        · rename_i hstored
          exact (group_skips hstored).trans (ih h)
      · split at h
        · exact absurd h.symm (Option.some_ne_none _)
        · exact absurd (Option.some.inj h).symm (Option.some_ne_none _)
        · rename_i hstored
          exact (group_skips hstored).trans (ih h)
      · exact absurd (Option.some.inj h).symm (Option.some_ne_none _)
      · obtain ⟨-, rfl⟩ := Prod.mk.inj (Option.some.inj (Option.some.inj h))
        exact .cons (hc (by decide) (by decide) (by decide)) (.refl _)
      · split at h
        · obtain ⟨-, rfl⟩ := Prod.mk.inj (Option.some.inj (Option.some.inj h))
          exact .cons (hc (by decide) (by decide) (by decide)) (.refl _)
        · exact absurd (Option.some.inj h).symm (Option.some_ne_none _)
      · split at h
        · exact absurd (Option.some.inj h).symm (Option.some_ne_none _)
        · exact .cons (hc (by decide) (by decide) (by decide)) (ih h)
      · split at h
        · exact absurd (Option.some.inj h).symm (Option.some_ne_none _)
        · exact .cons (hc (by decide) (by decide) (by decide)) (ih h)
      · rename_i h₃ h₅ h₇ _ _ _ _
        exact .cons (hc h₃ h₅ h₇) (ih h)

theorem ipv4Loop_skips {left : ℕ} {x : ℤ} {ip : UInt32}
    (h : ipv4Loop left x data = some (ip, rest)) : Skips data rest := by
  induction left generalizing x data with
  | zero =>
    unfold ipv4Loop at h
    split at h
    · exact absurd h.symm (Option.some_ne_none _)
    · rename_i hnumber
      split at h
      · obtain ⟨-, rfl⟩ := Prod.mk.inj (Option.some.inj h)
        exact number_skips hnumber
      · exact absurd h.symm (Option.some_ne_none _)
  | succ left ih =>
    unfold ipv4Loop at h
    split at h
    · exact absurd h.symm (Option.some_ne_none _)
    · rename_i hnumber
      split at h
      · dsimp only at h
        split at h
        · rename_i heq
          exact absurd heq (Nat.succ_ne_zero _)
        · rename_i heq
          obtain rfl := Nat.succ.inj heq
          exact (number_skips hnumber).trans (.cons (by decide) (ih h))
        · exact absurd h.symm (Option.some_ne_none _)
      · exact absurd h.symm (Option.some_ne_none _)

theorem parseAddress_skips {port : ℤ} {address : Address}
    (h : parseAddress port data = some (some (address, rest))) : Skips data rest := by
  unfold parseAddress at h
  split at h
  · obtain ⟨r, hr, hmap⟩ := Option.map_eq_some_iff.mp h
    obtain ⟨⟨ip, last⟩, rfl, hlast⟩ := Option.map_eq_some_iff.mp hmap
    obtain ⟨-, rfl⟩ := Prod.mk.inj hlast
    exact .cons (by decide) (ipv6Loop_skips hr)
  · obtain ⟨⟨ip, last⟩, hr, h⟩ := Option.map_eq_some_iff.mp (Option.some.inj h)
    obtain ⟨-, rfl⟩ := Prod.mk.inj h
    exact ipv4Loop_skips hr

theorem pchar_skips {c b : UInt8} (h : pchar (c :: data) = some (b, rest)) :
    Skips (c :: data) rest := by
  obtain ⟨hc, -, rfl⟩ | ⟨rfl, x, y, v, w, rfl, hx, hy, -⟩ := pchar_cases h
  · exact .cons (fun h => hc.not_end.1 (.inl h)) (.refl _)
  · exact .cons (by decide) (.cons (hex4_skips hx) (.cons (hex4_skips hy) (.refl _)))

theorem hostLoop_skips (fuel : ℕ) (data : CString) : Skips data (hostLoop fuel data).2 := by
  induction fuel generalizing data with
  | zero => exact .refl _
  | succ fuel ih =>
    unfold hostLoop
    split
    · exact .refl _
    · split
      · exact .refl _
      · rename_i b last hchar
        cases data with
        | nil => exact absurd hchar.symm (Option.some_ne_none _)
        | cons c data => exact (pchar_skips hchar).trans (ih last)

theorem hostName_skips {uri uri' : Uri} (h : hostName uri data = some (uri', rest)) :
    Skips data rest := by
  obtain ⟨r, hr, hmap⟩ := Option.map_eq_some_iff.mp h
  split at hmap
  · obtain ⟨-, rfl⟩ := Prod.mk.inj hmap
    exact parseAddress_skips hr
  · obtain ⟨-, rfl⟩ := Prod.mk.inj hmap
    exact hostLoop_skips _ _

theorem hostPort_skips (uri : Uri) (data : CString) : Skips data (hostPort uri data).2 := by
  unfold hostPort
  split
  · rename_i after
    refine .cons (by decide) ?_
    cases hnumber : number after with
    | none => exact .refl _
    | some r => exact number_skips hnumber
  · exact .refl _

theorem parseHost_skips {uri uri' : Uri} (h : parseHost uri data = some (uri', rest)) :
    Skips data rest := by
  obtain ⟨⟨uri₁, last⟩, hname, hport⟩ := Option.map_eq_some_iff.mp h
  have hskips := hostPort_skips uri₁ last
  dsimp only at hport
  rw [hport] at hskips
  exact (hostName_skips hname).trans hskips

theorem schemeLoop_skips {scheme : CString} (h : schemeLoop data = some (scheme, rest)) :
    Skips data rest ∧ rest.length < data.length := by
  induction data generalizing scheme with
  | nil => exact absurd h.symm (Option.some_ne_none _)
  | cons c data ih =>
    unfold schemeLoop at h
    split at h
    · rename_i hc
      obtain ⟨-, rfl⟩ := Prod.mk.inj (Option.some.inj h)
      exact ⟨.cons (by rw [hc]; decide) (.refl _), Nat.lt_succ_self _⟩
    split at h
    · rename_i hc
      obtain ⟨⟨s, last⟩, hloop, hmap⟩ := Option.map_eq_some_iff.mp h
      obtain ⟨-, rfl⟩ := Prod.mk.inj hmap
      obtain ⟨hskips, hlt⟩ := ih hloop
      refine ⟨.cons ?_ hskips, Nat.lt_succ_of_lt hlt⟩
      rintro rfl
      exact absurd hc (by decide)
    · exact absurd h.symm (Option.some_ne_none _)

theorem hierPart_skips {uri uri' : Uri} (h : hierPart uri data = some (uri', rest)) :
    Skips data rest := by
  unfold hierPart at h
  split at h
  · exact .cons (by decide) (.cons (by decide) (parseHost_skips h))
  · obtain ⟨-, rfl⟩ := Prod.mk.inj (Option.some.inj h)
    exact .refl _

/-- What stands before the text of the path has no `?`, and there is some in a URI with a
scheme. -/
theorem uriFront_skips {uri uri' : Uri} (h : uriFront uri data = some (some (uri', rest))) :
    Skips data rest ∧ (data.head? ≠ some 47 → rest.length < data.length) := by
  have hlength : ∀ {a b : CString}, Skips a b → b.length ≤ a.length := by
    rintro a b ⟨used, rfl, -⟩
    rw [List.length_append]
    omega
  unfold uriFront at h
  split at h
  · exact absurd (Option.some.inj h).symm (Option.some_ne_none _)
  rename_i c data
  split at h
  · rename_i hc
    split at h
    · exact absurd (Option.some.inj h).symm (Option.some_ne_none _)
    · obtain ⟨r, hr, hmap⟩ := Option.map_eq_some_iff.mp h
      obtain rfl := Option.some.inj hmap
      exact ⟨hierPart_skips hr, fun hne => absurd (congrArg some hc) hne⟩
  split at h
  · split at h
    · exact absurd (Option.some.inj h).symm (Option.some_ne_none _)
    · rename_i scheme last hscheme
      obtain ⟨r, hr, hmap⟩ := Option.map_eq_some_iff.mp h
      obtain rfl := Option.some.inj hmap
      obtain ⟨hskips, hlt⟩ := schemeLoop_skips hscheme
      have hhier := hierPart_skips hr
      exact ⟨hskips.trans hhier, fun _ => (hlength hhier).trans_lt hlt⟩
  · exact absurd (Option.some.inj h).symm (Option.some_ne_none _)

end Skipping

/-! ## The second parse -/

section Second
variable {name query text : CString} {uri uri' : Uri} {offset count : ℤ}

theorem decimalText_plain (z : ℤ) : ∀ c ∈ decimalText z, PathChar c := by
  have hdigit : ∀ d < 10, PathChar (UInt8.ofNat (48 + d)) := by decide +kernel
  have hdigits : ∀ c ∈ (if z.natAbs = 0 then [48]
      else (Nat.digits 10 z.natAbs).reverse.map fun d => UInt8.ofNat (48 + d)), PathChar c := by
    split
    · decide
    · intro c hc
      obtain ⟨d, hd, rfl⟩ := List.mem_map.mp hc
      exact hdigit d (Nat.digits_lt_base (by decide) (List.mem_reverse.mp hd))
  intro c hc
  unfold decimalText at hc
  dsimp only at hc
  split at hc
  · obtain rfl | hc := List.mem_cons.mp hc
    · decide
    · exact hdigits c hc
  · exact hdigits c hc

/-- What `get_seq` appends is a query of characters of paths. -/
theorem seqQuery_cases (offset count : ℤ) : seqQuery offset count = [] ∨
    ∃ body, seqQuery offset count = 63 :: body ∧ ∀ c ∈ body, PathChar c := by
  have hlimit := decimalText_plain (min count 255)
  unfold seqQuery
  dsimp only
  split
  · exact .inl rfl
  split
  · refine .inr ⟨chars ['s', '='] ++ decimalText offset ++ chars ['&', 'l', '='] ++
      decimalText (min count 255), rfl, fun c hc => ?_⟩
    simp only [List.mem_append] at hc
    obtain ((hc | hc) | hc) | hc := hc
    · exact (show ∀ c ∈ chars ['s', '='], PathChar c by decide) c hc
    · exact decimalText_plain offset c hc
    · exact (show ∀ c ∈ chars ['&', 'l', '='], PathChar c by decide) c hc
    · exact hlimit c hc
  · refine .inr ⟨chars ['l', '='] ++ decimalText (min count 255), rfl, fun c hc => ?_⟩
    obtain hc | hc := List.mem_append.mp hc
    · exact (show ∀ c ∈ chars ['l', '='], PathChar c by decide) c hc
    · exact hlimit c hc

theorem upToNul_plain (h : ∀ c ∈ name, PathChar c) : upToNul name = name :=
  List.takeWhile_eq_self_iff.mpr fun c hc =>
    decide_eq_true fun hnul => (h c hc).not_end.1 (.inr (.inl hnul))

theorem parsePath_path (h : parsePath uri text = some uri') :
    ∃ d r, componentLoop false (text.length + 1) text = some (d, r) ∧ uri'.path = upToNul d := by
  obtain ⟨⟨d, r⟩, hloop, h⟩ := Option.bind_eq_some_iff.mp h
  refine ⟨d, r, hloop, ?_⟩
  dsimp only at h
  split at h
  · obtain ⟨_, -, h⟩ := Option.bind_eq_some_iff.mp h
    rw [← Option.some.inj h]
  · rw [← Option.some.inj h]

/-- A plain name comes back. -/
theorem parsePath_plain (uri : Uri) (hname : ∀ c ∈ name, PathChar c) (offset count : ℤ) :
    ∃ uri', parsePath uri (name ++ seqQuery offset count) = some uri' ∧ uri'.path = name := by
  have hend : ∀ c ∈ (seqQuery offset count).head?, c = 63 ∧ false = false := by
    obtain hq | ⟨body, hq, -⟩ := seqQuery_cases offset count
    · simp [hq]
    · simp [hq]
  have hloop := component_plain hname hend (show name.length <
    (name ++ seqQuery offset count).length + 1 by rw [List.length_append]; omega)
  unfold parsePath
  rw [hloop]
  obtain hq | ⟨body, hq, hbody⟩ := seqQuery_cases offset count
  · rw [hq]
    exact ⟨_, rfl, upToNul_plain hname⟩
  · have hquery : componentLoop true (body.length + 1) (body ++ []) = some (body, []) :=
      component_plain hbody (by simp) (Nat.lt_succ_self _)
    rw [List.append_nil] at hquery
    rw [hq]
    simp only [Option.bind_eq_bind, Option.bind_some, hquery]
    exact ⟨_, rfl, upToNul_plain hname⟩

/-- What stands before the path of a URI stands in front of its query. -/
theorem skips_query (h : Skips (name ++ query) text) (hq : ∀ c ∈ query.head?, c = 63) :
    ∃ s, text = s ++ query ∧ text.length + name.length = s.length + (name ++ query).length := by
  obtain ⟨used, heq, hused⟩ := h
  obtain ⟨s, rfl, rfl⟩ | ⟨s, rfl, rfl⟩ := List.append_eq_append_iff.mp heq
  · cases s with
    | nil => exact ⟨[], rfl, by simp [Nat.add_comm]⟩
    | cons c s =>
      have hc : c = 63 := hq c rfl
      exact absurd (List.mem_append_right name (by simp [hc])) hused
  · exact ⟨s, rfl, by simp only [List.length_append]; omega⟩

/-- **The second parse**: a name that comes back is a path. -/
theorem target_plain (h : requestTargetUri uri (name ++ seqQuery offset count) = some (some uri'))
    (hpath : uri'.path = name) : name.head? = some 47 ∧ ∀ c ∈ name, PathChar c := by
  have hend : ∀ c ∈ (seqQuery offset count).head?, c = 63 := by
    obtain hq | ⟨body, hq, -⟩ := seqQuery_cases offset count
    · simp [hq]
    · simp [hq]
  have hshort : ∀ d : CString, (upToNul d).length ≤ d.length := fun d =>
    (List.takeWhile_sublist _).length_le
  unfold requestTargetUri at h
  split at h
  · exact absurd (Option.some.inj h).symm (Option.some_ne_none _)
  split at h
  · rename_i hslash
    obtain ⟨d, r, hloop, hd⟩ := parsePath_path (Option.some.inj h)
    obtain ⟨hle, heq⟩ := component_length hloop hend
    have hlength := hshort d
    rw [← hd, hpath] at hlength
    refine ⟨?_, heq (Nat.le_antisymm hle hlength)⟩
    cases name with
    | nil =>
      rw [List.nil_append] at hslash
      exact absurd (hend 47 hslash) (by decide)
    | cons c name => exact hslash
  · rename_i hslash
    exfalso
    obtain ⟨r, hr, hmap⟩ := Option.map_eq_some_iff.mp h
    obtain ⟨⟨uri₁, text⟩, rfl, hparse⟩ := Option.bind_eq_some_iff.mp hmap
    obtain ⟨hskips, hlt⟩ := uriFront_skips hr
    obtain ⟨s, rfl, hs⟩ := skips_query hskips hend
    obtain ⟨d, r, hloop, hd⟩ := parsePath_path hparse
    have hle := (component_length hloop hend).1
    have hlength := hshort d
    rw [← hd, hpath] at hlength
    have := hlt hslash
    omega

end Second

/-! ## The result -/

section Result
variable {secure : Bool} {href name : CString} {uri last : Uri} {r : RequestTexts}
  {offset count : ℤ}

theorem httpGet_eq (r : RequestTexts) (target : CString) : ∃ rest,
    httpRequest r target (chars ['G', 'E', 'T']) ++ [13, 10] =
      requestLineText (chars ['G', 'E', 'T']) target r.version ++ rest ∧
    (httpRequest r target (chars ['G', 'E', 'T']) ++ [13, 10]).length =
      target.length + r.version.length + r.date.length + r.host.length + r.accept.length + 27 := by
  refine ⟨r.date ++ chars ['H', 'o', 's', 't', ':', ' '] ++ r.host ++ [13, 10] ++
    chars ['A', 'c', 'c', 'e', 'p', 't', ':', ' '] ++ r.accept ++ [13, 10] ++ [13, 10], ?_, ?_⟩
  · simp only [httpRequest, List.append_assoc]
  · simp only [httpRequest, requestLineText, chars, List.length_append, List.length_cons,
      List.length_map, List.length_nil]
    omega

/-- A name agrees if it is a path and its request fits. -/
theorem targetAgrees_iff : TargetAgrees r last name offset count ↔
    name.head? = some 47 ∧ (∀ c ∈ name, PathChar c) ∧ RequestFits r name.length offset count := by
  obtain ⟨rest, htext, hlength⟩ := httpGet_eq r (name ++ seqQuery offset count)
  have happend : (name ++ seqQuery offset count).length =
      name.length + (seqQuery offset count).length := List.length_append
  rw [happend] at hlength
  constructor
  · rintro ⟨target, _, huri, hget, -, ⟨uri, hparse, hpath⟩, -⟩
    unfold seqUri at huri
    dsimp only at huri
    split at huri
    · rename_i hroom
      obtain rfl := Option.some.inj huri
      rw [List.length_append] at hroom
      obtain ⟨hslash, hplain⟩ := target_plain hparse hpath
      refine ⟨hslash, hplain, hroom.resolve_left, ?_⟩
      unfold httpGet at hget
      dsimp only at hget
      split at hget
      · rename_i hfits
        rwa [hlength] at hfits
      · exact absurd hget.symm (Option.some_ne_none _)
    · exact absurd huri.symm (Option.some_ne_none _)
  · rintro ⟨hslash, hplain, hroom, hfits⟩
    obtain ⟨uri, hparse, hpath⟩ :=
      parsePath_plain { last with name := none, path := [], query := none, host := none } hplain
        offset count
    have htarget : requestTargetUri last (name ++ seqQuery offset count) = some (some uri) := by
      have hhead : (name ++ seqQuery offset count).head? = some 47 := by
        rw [List.head?_append, hslash]
        rfl
      rw [requestTargetUri, if_neg (by rw [List.length_append]; omega), if_pos hhead, hparse]
    refine ⟨name ++ seqQuery offset count, rest, if_pos ?_, ?_, ?_, ⟨uri, htarget, hpath⟩, ?_⟩
    · rw [List.length_append]
      by_cases hcount : count = 0
      · exact .inl hcount
      · exact .inr (hroom hcount)
    · unfold httpGet
      dsimp only
      rw [if_pos (by rw [hlength]; exact hfits), htext]
    · intro c hc
      obtain hc | hc := List.mem_append.mp hc
      · exact (hplain c hc).1
      · obtain hq | ⟨body, hq, hbody⟩ := seqQuery_cases offset count
        · rw [hq] at hc
          exact absurd hc List.not_mem_nil
        · rw [hq] at hc
          obtain rfl | hc := List.mem_cons.mp hc
          · decide
          · exact (hbody c hc).1
    · intro α findStub
      rw [findTarget, htarget]
      dsimp only
      rw [hpath]

theorem accepted_path (h : httpParseUri secure href 127 = some (some uri)) :
    ∃ text d rest, pathText secure href = some text ∧
      componentLoop false (text.length + 1) text = some (d, rest) ∧ uri.path = upToNul d := by
  unfold httpParseUri uriParse at h
  split at h
  · exact absurd (Option.some.inj h).symm (Option.some_ne_none _)
  obtain ⟨front, hfront, hmap⟩ := Option.map_eq_some_iff.mp h
  obtain ⟨⟨uri₁, text⟩, rfl, hparse⟩ := Option.bind_eq_some_iff.mp hmap
  obtain ⟨d, rest, hloop, hpath⟩ := parsePath_path hparse
  refine ⟨text, d, rest, ?_, hloop, hpath⟩
  have hconn : connUri secure =
      { connUri secure with name := none, path := [], query := none, host := none } := by
    cases secure <;> rfl
  rw [← hconn] at hfront
  rw [pathText, hfront]
  rfl

/-- **Request targets agree** for the hrefs whose path is rooted and has no escape of a character
that needs one, as long as the request fits its buffers. -/
theorem target_agreement (h : httpParseUri secure href 127 = some (some uri)) (r : RequestTexts)
    (last : Uri) (offset count : ℤ) :
    TargetAgrees r last uri.path offset count ↔ SentAsWritten secure href r offset count := by
  obtain ⟨text, d, rest, htext, hloop, hpath⟩ := accepted_path h
  rw [targetAgrees_iff, hpath, rooted_iff hloop]
  constructor
  · rintro ⟨hroot, hplain, hfits⟩
    exact ⟨text, _, htext, hroot, (plainPath_iff hloop).mpr ⟨hplain, rfl⟩, hfits⟩
  · rintro ⟨text', n, htext', hroot, hplain, hfits⟩
    obtain rfl := Option.some.inj (htext.symm.trans htext')
    obtain ⟨hall, rfl⟩ := (plainPath_iff hloop).mp hplain
    exact ⟨hroot, hall, hfits⟩

/-- The texts of a request to a host of the local network. -/
def localTexts : RequestTexts where
  version := httpVersion
  date := chars "Date: Thu, 01 Jan 1970 00:00:00 GMT\r\n".toList
  host := chars "127.0.0.1:80".toList
  accept := chars "application/sep+xml".toList

/-- What `/edev?s=1` is parsed to. -/
def edevUri : Uri where
  scheme := some (chars ['h', 't', 't', 'p'])
  path := chars "/edev".toList
  query := some (chars "s=1".toList)
  port := 80

theorem target_agreement_edev : TargetAgrees localTexts {} edevUri.path 0 255 ↔
    SentAsWritten false (chars "/edev?s=1".toList) localTexts 0 255 :=
  @target_agreement false (chars "/edev?s=1".toList) edevUri (by decide) localTexts {} 0 255

/-- The name of `/a%20b` is sent with its space. -/
theorem not_targetAgrees : ∃ uri, httpParseUri false (chars "/a%20b".toList) 127 = some (some uri) ∧
    ¬TargetAgrees localTexts {} uri.path 0 0 := by
  refine ⟨{ edevUri with path := chars "/a b".toList, query := none }, by decide, fun h => ?_⟩
  exact absurd (targetAgrees_iff.mp h).2.1 (by decide)

end Result

end SeClient
