import SeClient.StringTable

/-!
# TXT records

A TXT record holds counted strings, each one `key=value` (`dnssd_client.c`).  `txt_valid` follows
the counts of a record before it is copied, and `txt_pair` takes the copy apart.  Both read a count
as a plain `char`, which has a sign.
-/

namespace SeClient

/-- A plain `char`, as an `int`. -/
def signedByte (c : UInt8) : ℤ := c.toInt8.toInt

/-- The loop of `txt_valid`, in a memory that has the record somewhere; `none` when it has not left
the loop after `fuel` passes. -/
def txtLoop (mem : ℤ → UInt8) : ℕ → ℤ → ℤ → Option Bool
  | 0, _, _ => none
  | fuel + 1, data, length =>
    if 0 < length then
      let n := signedByte (mem data)
      if n ≠ 0 then txtLoop mem fuel (data + (n + 1)) (length - (n + 1)) else some false
    else some (length = 0)

/-- `txt_valid` -/
def txtValid (mem : ℤ → UInt8) (fuel : ℕ) (data length : ℤ) : Option Bool :=
  if length < 2 then some false else txtLoop mem fuel data length

/-- `strchr`: where `c` is, in front of the NUL. -/
def strchr (c : UInt8) : CString → Option ℕ
  | [] => none
  | b :: s => if b = c then some 0 else if b = 0 then none else (strchr c s).map (· + 1)

/-- What `txt_pair` returns: NULL, or the next string, with a key and a value.  A negative size of
`memcpy` and a read behind the end of the copy are `outside`. -/
inductive TxtPair
  | outside
  | null
  | pair (key value : List UInt8) (next : List UInt8)
deriving DecidableEq, Repr

/-- `txt_pair`, of what is left of the copy of a record. -/
def txtPair : List UInt8 → TxtPair
  | [] => .outside
  | c :: data =>
    let n := signedByte c
    if n = 0 then .null
    else if n < 0 ∨ data.length < n then .outside
    else
      let n := n.toNat
      match strchr 61 data with
      | some m =>
        if m < n then .pair (data.take m) ((data.drop (m + 1)).take (n - (m + 1))) (data.drop n)
        else .pair (data.take n) [] (data.drop n)
      | none => .pair (data.take n) [] (data.drop n)

/-- The keys and the values, as long as `txt_pair` returns any. -/
def txtPairs : ℕ → List UInt8 → Option (List (List UInt8 × List UInt8))
  | 0, _ => none
  | fuel + 1, data =>
    match txtPair data with
    | .outside => none
    | .null => some []
    | .pair key value next => (txtPairs fuel next).map ((key, value) :: ·)

/-! ## What a record is -/

/-- Counted strings, none of them empty. -/
inductive Counted : List (List UInt8) → List UInt8 → Prop
  | nil : Counted [] []
  | cons {s : List UInt8} {strings : List (List UInt8)} {rest : List UInt8} (hs : s ≠ [])
      (hlength : s.length ≤ 255) (h : Counted strings rest) :
      Counted (s :: strings) (UInt8.ofNat s.length :: (s ++ rest))

/-- A record: strings, and at least one of them. -/
def IsTxt (b : List UInt8) : Prop := ∃ strings, strings ≠ [] ∧ Counted strings b

/-- A key and a value of a string: what is in front of a `=` and what is behind it, or the whole
string. -/
def Within (s : List UInt8) (pair : List UInt8 × List UInt8) : Prop :=
  s = pair.1 ++ 61 :: pair.2 ∨ s = pair.1 ∧ pair.2 = []

/-- The memory has the record at the place 0. -/
def HasRecord (mem : ℤ → UInt8) (b : List UInt8) : Prop := ∀ (i : ℕ) c, b[i]? = some c → mem i = c

/-- **TXT records are read right**, when the record is `b`, wherever it is: `txt_valid` returns 1
exactly if it is one, and from what it accepts `txt_pair` takes the strings one after the other. -/
def TxtRight (b : List UInt8) : Prop :=
  ∀ mem, HasRecord mem b →
    (∃ fuel r, txtValid mem fuel 0 b.length = some r ∧ (r = true ↔ IsTxt b)) ∧
    ∀ fuel, txtValid mem fuel 0 b.length = some true →
      ∃ strings pairs, Counted strings b ∧ txtPairs (b.length + 1) (b ++ [0]) = some pairs ∧
        List.Forall₂ Within strings pairs

/-- No count at which the scan arrives is above 127, `skip` bytes behind the front. -/
def smallCounts : ℕ → List UInt8 → Bool
  | _, [] => true
  | skip + 1, _ :: rest => smallCounts skip rest
  | 0, c :: rest => c = 0 ∨ c ≤ 127 ∧ smallCounts c.toNat rest

/-- The counts lead, as signed numbers, to an empty string or past the end of the record. -/
inductive Dies (b : List UInt8) : ℕ → Prop
  | zero {p : ℕ} (h : b[p]? = some 0) : Dies b p
  | past {p : ℕ} (h : b.length < p) : Dies b p
  | step {p q : ℕ} {c : UInt8} (hc : b[p]? = some c) (hzero : c ≠ 0)
      (hq : (q : ℤ) = p + (signedByte c + 1)) (h : Dies b q) : Dies b p

/-! ## Counts -/

theorem signedByte_eq (c : UInt8) :
    signedByte c = if c.toNat < 128 then (c.toNat : ℤ) else c.toNat - 256 := by
  have hlt := c.toNat_lt
  have hbmod : signedByte c = (c.toNat : ℤ).bmod 256 := BitVec.toInt_eq_toNat_bmod _
  rw [hbmod, Int.bmod_def]
  split_ifs <;> omega

theorem byte_le {c : UInt8} : c ≤ 127 ↔ c.toNat < 128 := by
  rw [UInt8.le_iff_toNat_le]
  exact Nat.lt_succ_iff.symm

theorem signedByte_small {c : UInt8} (h : c ≤ 127) : signedByte c = c.toNat := by
  rw [signedByte_eq, if_pos (byte_le.mp h)]

theorem signedByte_big {c : UInt8} (h : ¬c ≤ 127) : signedByte c < 0 := by
  have hlt := c.toNat_lt
  rw [signedByte_eq, if_neg fun hsmall => h (byte_le.mpr hsmall)]
  omega

theorem signedByte_zero {c : UInt8} : signedByte c = 0 ↔ c = 0 := by
  have hlt := c.toNat_lt
  rw [signedByte_eq, ← UInt8.toNat_inj, show UInt8.toNat 0 = 0 from rfl]
  split_ifs <;> omega

/-! ## The scan -/

section
variable {mem : ℤ → UInt8} {b rest : List UInt8} {fuel p : ℕ} {r : Bool}

/-- At the place `p` of the record. -/
theorem txtLoop_at (hmem : HasRecord mem b) {c : UInt8} (hc : b[p]? = some c) :
    txtLoop mem (fuel + 1) p (b.length - p) =
      if c = 0 then some false
      else txtLoop mem fuel (p + (signedByte c + 1)) (b.length - (p + (signedByte c + 1))) := by
  obtain ⟨hp, -⟩ := List.getElem?_eq_some_iff.mp hc
  rw [txtLoop, if_pos (by omega), hmem p c hc]
  dsimp only
  by_cases hzero : c = 0
  · rw [if_pos hzero, if_neg (not_not.mpr (signedByte_zero.mpr hzero))]
  · rw [if_neg hzero, if_pos fun h => hzero (signedByte_zero.mp h), Int.sub_sub]

/-- Behind the record. -/
theorem txtLoop_end (hp : b.length ≤ p) :
    txtLoop mem (fuel + 1) p (b.length - p) = some (decide (p = b.length)) := by
  unfold txtLoop
  rw [if_neg (by omega)]
  congr 2
  exact propext ⟨fun h => by omega, fun h => by omega⟩

theorem txtLoop_mono {data length : ℤ} {fuel' : ℕ} (hle : fuel ≤ fuel')
    (h : txtLoop mem fuel data length = some r) : txtLoop mem fuel' data length = some r := by
  induction fuel generalizing fuel' data length with
  | zero => exact absurd h.symm (Option.some_ne_none _)
  | succ fuel ih =>
    obtain ⟨k, rfl⟩ : ∃ k, fuel' = k + 1 := ⟨fuel' - 1, (Nat.sub_add_cancel (by omega)).symm⟩
    unfold txtLoop at h ⊢
    dsimp only at h ⊢
    split_ifs at h ⊢
    · exact ih (Nat.le_of_succ_le_succ hle) h
    · exact h
    · exact h

/-- However long it is looked at, the scan has one result. -/
theorem txtLoop_unique {data length : ℤ} {fuel' : ℕ} {r' : Bool}
    (h : txtLoop mem fuel data length = some r) (h' : txtLoop mem fuel' data length = some r') :
    r = r' := by
  have hm := txtLoop_mono (Nat.le_max_left fuel fuel') h
  have hm' := txtLoop_mono (Nat.le_max_right fuel fuel') h'
  exact Option.some.inj (hm.symm.trans hm')

end

/-! ## Strings -/

section
variable {b rest : List UInt8} {strings : List (List UInt8)} {c : UInt8}

theorem ofNat_length {s : List UInt8} (h : s.length ≤ 255) :
    (UInt8.ofNat s.length).toNat = s.length := by
  rw [UInt8.toNat_ofNat']
  exact Nat.mod_eq_of_lt (Nat.lt_succ_of_le h)

/-- The first string is as long as its count says. -/
theorem counted_cons (hc : c ≠ 0) : (∃ strings, Counted strings (c :: rest)) ↔
    c.toNat ≤ rest.length ∧ ∃ strings, Counted strings (rest.drop c.toNat) := by
  constructor
  · rintro ⟨strings, h⟩
    generalize hb : c :: rest = b at h
    cases h with
    | nil => cases hb
    | cons hs hlength h =>
      obtain ⟨rfl, rfl⟩ := List.cons.inj hb
      rw [ofNat_length hlength, List.length_append, List.drop_left]
      exact ⟨Nat.le_add_right _ _, _, h⟩
  · rintro ⟨hle, strings, h⟩
    have hlength : (rest.take c.toNat).length = c.toNat := List.length_take_of_le hle
    have hs : rest.take c.toNat ≠ [] := by
      intro hnil
      rw [hnil] at hlength
      exact hc (UInt8.toNat_inj.mp hlength.symm)
    have hcount := Counted.cons hs (by rw [hlength]; exact Nat.le_of_lt_succ c.toNat_lt) h
    rw [hlength, UInt8.ofNat_toNat, List.take_append_drop] at hcount
    exact ⟨_, hcount⟩

theorem not_counted_zero : ¬∃ strings, Counted strings (0 :: rest) := by
  rintro ⟨strings, h⟩
  generalize hb : (0 : UInt8) :: rest = b at h
  cases h with
  | nil => cases hb
  | cons hs hlength h =>
    have hcount := congrArg UInt8.toNat (List.cons.inj hb).1
    rw [ofNat_length hlength] at hcount
    exact hs (List.length_eq_zero_iff.mp hcount.symm)

theorem smallCounts_skip (k : ℕ) (rest : List UInt8) :
    smallCounts k rest = smallCounts 0 (rest.drop k) := by
  induction rest generalizing k with
  | nil => cases k <;> rfl
  | cons c rest ih =>
    cases k with
    | zero => rfl
    | succ k => exact ih k

theorem smallCounts_cons : smallCounts 0 (c :: rest) = true ↔
    c = 0 ∨ c ≤ 127 ∧ smallCounts 0 (rest.drop c.toNat) = true := by
  rw [← smallCounts_skip]
  exact decide_eq_true_iff

end

/-! ## A record with small counts -/

section
variable {mem : ℤ → UInt8} {b rest : List UInt8} {p : ℕ}

/-- **The scan of small counts** tells strings from other contents. -/
theorem txtLoop_small (hmem : HasRecord mem b) (h : smallCounts 0 (b.drop p) = true) :
    ∃ fuel r, txtLoop mem fuel p (b.length - p) = some r ∧
      (r = true ↔ p ≤ b.length ∧ ∃ strings, Counted strings (b.drop p)) := by
  -- on what is left of the record
  induction hn : b.length - p using Nat.strong_induction_on generalizing p with
  | h n ih =>
    cases hrest : b.drop p with
    | nil =>
      have hle := List.drop_eq_nil_iff.mp hrest
      refine ⟨1, _, txtLoop_end hle, ?_⟩
      rw [decide_eq_true_iff]
      constructor
      · intro hp
        exact ⟨Nat.le_of_eq hp, [], .nil⟩
      · intro hp
        exact Nat.le_antisymm hp.1 hle
    | cons c rest =>
      have hc := getElem?_of_drop hrest
      have htail := drop_succ hrest
      obtain ⟨hp, -⟩ := List.getElem?_eq_some_iff.mp hc
      rw [hrest, smallCounts_cons] at h
      by_cases hzero : c = 0
      · refine ⟨1, false, ?_, ?_⟩
        · rw [txtLoop_at hmem hc, if_pos hzero]
        · rw [hzero]
          exact ⟨fun h => absurd h Bool.false_ne_true, fun h => absurd h.2 not_counted_zero⟩
      · obtain ⟨hsmall, hskip⟩ := h.resolve_left hzero
        have hpos : 0 < c.toNat := Nat.pos_of_ne_zero fun h => hzero (UInt8.toNat_inj.mp h)
        have hdrop : b.drop (p + (c.toNat + 1)) = rest.drop c.toNat := by
          rw [← htail, List.drop_drop]
          congr 1
          omega
        rw [← hdrop] at hskip
        obtain ⟨fuel, r, hloop, hr⟩ := ih _ (by omega) hskip rfl
        refine ⟨fuel + 1, r, ?_, ?_⟩
        · rw [txtLoop_at hmem hc, if_neg hzero, signedByte_small hsmall]
          rw [← hloop]
          congr 1
        · rw [hr, counted_cons hzero, hdrop]
          have hlength := congrArg List.length htail
          rw [List.length_drop] at hlength
          constructor
          · rintro ⟨hle, hstrings⟩
            exact ⟨Nat.le_of_lt hp, by omega, hstrings⟩
          · rintro ⟨-, hle, hstrings⟩
            exact ⟨by omega, hstrings⟩

theorem isTxt_iff : IsTxt b ↔ b ≠ [] ∧ ∃ strings, Counted strings b := by
  constructor
  · rintro ⟨strings, hne, h⟩
    cases h with
    | nil => exact absurd rfl hne
    | cons hs hlength h => exact ⟨List.cons_ne_nil _ _, _, .cons hs hlength h⟩
  · rintro ⟨hne, strings, h⟩
    cases h with
    | nil => exact absurd rfl hne
    | cons hs hlength h => exact ⟨_, List.cons_ne_nil _ _, .cons hs hlength h⟩

theorem IsTxt.length {b : List UInt8} (h : IsTxt b) : 2 ≤ b.length := by
  obtain ⟨strings, hne, hcounted⟩ := h
  cases hcounted with
  | nil => exact absurd rfl hne
  | cons hs hlength h =>
    rw [List.length_cons, List.length_append]
    have := List.length_pos_iff.mpr hs
    omega

/-! ## The strings of a record, one by one -/

theorem strchr_split {c : UInt8} {s : List UInt8} {m : ℕ} (h : strchr c s = some m) :
    s = s.take m ++ c :: s.drop (m + 1) := by
  induction s generalizing m with
  | nil => exact absurd h.symm (Option.some_ne_none _)
  | cons b s ih =>
    unfold strchr at h
    by_cases hb : b = c
    · rw [if_pos hb] at h
      obtain rfl := Option.some.inj h
      rw [hb]
      rfl
    · rw [if_neg hb] at h
      by_cases hzero : b = 0
      · rw [if_pos hzero] at h
        exact absurd h.symm (Option.some_ne_none _)
      · rw [if_neg hzero] at h
        obtain ⟨k, hk, rfl⟩ := Option.map_eq_some_iff.mp h
        exact congrArg (b :: ·) (ih hk)

/-- **A pair** is taken from the string that is counted. -/
theorem txtPair_within {s : List UInt8} (rest : List UInt8) (hs : s ≠ []) (hlength : s.length ≤ 127) :
    ∃ key value, txtPair (UInt8.ofNat s.length :: (s ++ rest)) = .pair key value rest ∧
      Within s (key, value) := by
  have hcount := ofNat_length (Nat.le_trans hlength (by decide))
  have hsmall : UInt8.ofNat s.length ≤ 127 := byte_le.mpr (by omega)
  have hpos := List.length_pos_iff.mpr hs
  have hsigned : signedByte (UInt8.ofNat s.length) = s.length := by
    rw [signedByte_small hsmall, hcount]
  have htake : (s ++ rest).take s.length = s := List.take_left
  have hdrop : (s ++ rest).drop s.length = rest := List.drop_left
  unfold txtPair
  dsimp only
  rw [hsigned, if_neg (by omega), if_neg (by rw [List.length_append]; omega), Int.toNat_natCast,
    htake, hdrop]
  have hwhole : ∃ key value, TxtPair.pair s [] rest = .pair key value rest ∧ Within s (key, value) :=
    ⟨s, [], rfl, Or.inr ⟨rfl, rfl⟩⟩
  cases heq : strchr 61 (s ++ rest) with
  | none => exact hwhole
  | some m =>
    dsimp only
    by_cases hm : m < s.length
    · rw [if_pos hm]
      refine ⟨_, _, rfl, Or.inl ?_⟩
      -- the first bytes of what is split are the string
      have hsplit := congrArg (List.take s.length) (strchr_split heq)
      have hfront : ((s ++ rest).take m).length = m :=
        List.length_take_of_le (by rw [List.length_append]; omega)
      have hback : s.length - m = s.length - (m + 1) + 1 := by omega
      rw [htake, List.take_append, hfront, hback, List.take_succ_cons,
        List.take_of_length_le (by omega)] at hsplit
      exact hsplit
    · rw [if_neg hm]
      exact hwhole

theorem counted_small {s rest : List UInt8} (hs : s ≠ []) (hlength : s.length ≤ 255) :
    smallCounts 0 (UInt8.ofNat s.length :: (s ++ rest)) = true ↔
      s.length ≤ 127 ∧ smallCounts 0 rest = true := by
  have hcount := ofNat_length hlength
  have hzero : UInt8.ofNat s.length ≠ 0 := by
    intro h
    rw [h] at hcount
    exact hs (List.length_eq_zero_iff.mp hcount.symm)
  rw [smallCounts_cons, or_iff_right hzero, byte_le, hcount, List.drop_left, Nat.lt_succ_iff]

/-- **All pairs** of a record with small counts are within their strings. -/
theorem txtPairs_small {strings : List (List UInt8)} {b : List UInt8} {fuel : ℕ}
    (h : Counted strings b) (hsmall : smallCounts 0 b = true) (hfuel : b.length < fuel) :
    ∃ pairs, txtPairs fuel (b ++ [0]) = some pairs ∧ List.Forall₂ Within strings pairs := by
  induction h generalizing fuel with
  | nil =>
    obtain ⟨k, rfl⟩ : ∃ k, fuel = k + 1 := ⟨fuel - 1, (Nat.sub_add_cancel hfuel).symm⟩
    exact ⟨[], rfl, .nil⟩
  | @cons s strings rest hs hlength _ ih =>
    obtain ⟨hshort, hrest⟩ := (counted_small hs hlength).mp hsmall
    rw [List.length_cons, List.length_append] at hfuel
    obtain ⟨k, rfl⟩ : ∃ k, fuel = k + 1 := ⟨fuel - 1, (Nat.sub_add_cancel (by omega)).symm⟩
    obtain ⟨key, value, hpair, hwithin⟩ := txtPair_within (rest ++ [0]) hs hshort
    obtain ⟨pairs, hpairs, hall⟩ := ih hrest (show rest.length < k by omega)
    refine ⟨(key, value) :: pairs, ?_, .cons hwithin hall⟩
    rw [List.cons_append, List.append_assoc]
    unfold txtPairs
    rw [hpair]
    dsimp only
    rw [hpairs]
    rfl

theorem txtPair_big {c : UInt8} {data : List UInt8} (hc : ¬c ≤ 127) :
    txtPair (c :: data) = .outside := by
  have hneg := signedByte_big hc
  unfold txtPair
  dsimp only
  rw [if_neg (by omega), if_pos (Or.inl hneg)]

/-- A count above 127 makes `txt_pair` copy a negative number of bytes. -/
theorem txtPairs_big {strings : List (List UInt8)} {b : List UInt8} {fuel : ℕ}
    (h : Counted strings b) (hbig : smallCounts 0 b = false) :
    txtPairs fuel (b ++ [0]) = none := by
  induction h generalizing fuel with
  | nil => exact absurd hbig.symm Bool.false_ne_true
  | @cons s strings rest hs hlength _ ih =>
    cases fuel with
    | zero => rfl
    | succ k =>
      rw [List.cons_append, List.append_assoc]
      unfold txtPairs
      by_cases hshort : s.length ≤ 127
      · obtain ⟨key, value, hpair, -⟩ := txtPair_within (rest ++ [0]) hs hshort
        have hrest : smallCounts 0 rest = false := by
          rw [Bool.eq_false_iff] at hbig ⊢
          exact fun hrest => hbig ((counted_small hs hlength).mpr ⟨hshort, hrest⟩)
        rw [hpair]
        dsimp only
        rw [ih hrest]
        rfl
      · have hcount : ¬UInt8.ofNat s.length ≤ 127 := by
          rw [byte_le, ofNat_length hlength]
          exact fun h => hshort (Nat.le_of_lt_succ h)
        rw [txtPair_big hcount]

/-! ## Counts that lead back -/

/-- A memory with the record and, everywhere else, counts of 255. -/
def recordMem (b : List UInt8) (i : ℤ) : UInt8 := if 0 ≤ i then b.getD i.toNat 255 else 255

theorem hasRecord_recordMem : HasRecord (recordMem b) b := by
  intro i c hc
  unfold recordMem
  rw [if_pos (Int.natCast_nonneg i), Int.toNat_natCast, List.getD_eq_getElem?_getD, hc]
  rfl

/-- A count of 255 is the number -1, and the scan stays where it is. -/
theorem txtLoop_stuck {fuel : ℕ} {data length : ℤ} (hdata : data < 0) (hlength : 0 < length) :
    txtLoop (recordMem b) fuel data length = none := by
  induction fuel with
  | zero => rfl
  | succ fuel ih =>
    have hcount : recordMem b data = 255 := if_neg (Int.not_le.mpr hdata)
    have hback : signedByte 255 + 1 = 0 := by decide
    have hzero : signedByte 255 ≠ 0 := by decide
    rw [txtLoop, if_pos hlength, hcount]
    dsimp only
    rw [if_pos hzero, hback, Int.add_zero, Int.sub_zero]
    exact ih

theorem dies_of_txtLoop {fuel : ℕ}
    (h : txtLoop (recordMem b) fuel p (b.length - p) = some false) : Dies b p := by
  induction fuel generalizing p with
  | zero => exact absurd h.symm (Option.some_ne_none _)
  | succ fuel ih =>
    by_cases hp : p < b.length
    · have hc := List.getElem?_eq_getElem hp
      rw [txtLoop_at hasRecord_recordMem hc] at h
      by_cases hzero : b[p] = 0
      · rw [hzero] at hc
        exact .zero hc
      · rw [if_neg hzero] at h
        by_cases hback : (p : ℤ) + (signedByte b[p] + 1) < 0
        · rw [txtLoop_stuck hback (by omega)] at h
          exact absurd h.symm (Option.some_ne_none _)
        · obtain ⟨q, hq⟩ := Int.eq_ofNat_of_zero_le (Int.not_lt.mp hback)
          rw [hq] at h
          exact .step hc hzero hq.symm (ih h)
    · rw [txtLoop_end (Nat.not_lt.mp hp)] at h
      have hne : p ≠ b.length := of_decide_eq_false (Option.some.inj h)
      exact .past (by omega)

theorem txtLoop_of_dies (hmem : HasRecord mem b) (h : Dies b p) :
    ∃ fuel, txtLoop mem fuel p (b.length - p) = some false := by
  induction h with
  | zero h =>
    refine ⟨1, ?_⟩
    rw [txtLoop_at hmem h, if_pos rfl]
  | @past p h =>
    refine ⟨1, ?_⟩
    rw [txtLoop_end (Nat.le_of_lt h), decide_eq_false (by omega)]
  | step hc hzero hq _ ih =>
    obtain ⟨fuel, hfuel⟩ := ih
    refine ⟨fuel + 1, ?_⟩
    rw [txtLoop_at hmem hc, if_neg hzero, ← hq]
    exact hfuel

/-! ## All contents -/

theorem txtValid_long {fuel : ℕ} (h : ¬b.length < 2) :
    txtValid mem fuel 0 b.length = txtLoop mem fuel (0 : ℕ) (b.length - (0 : ℕ)) := by
  unfold txtValid
  rw [if_neg (by omega)]
  rfl

theorem txtRight_short (h : b.length < 2) : TxtRight b := by
  intro mem hmem
  have hvalid : ∀ fuel, txtValid mem fuel 0 b.length = some false := fun fuel => if_pos (by omega)
  constructor
  · refine ⟨0, false, hvalid 0, ?_⟩
    exact ⟨fun h => absurd h Bool.false_ne_true, fun htxt => absurd htxt.length (by omega)⟩
  · intro fuel haccepted
    rw [hvalid] at haccepted
    exact absurd (Option.some.inj haccepted) Bool.false_ne_true

theorem txtRight_small (hlong : ¬b.length < 2) (h : smallCounts 0 b = true) : TxtRight b := by
  intro mem hmem
  obtain ⟨fuel, r, hloop, hr⟩ := txtLoop_small (p := 0) hmem h
  have hne : b ≠ [] := by
    rintro rfl
    exact hlong (by decide)
  have htxt : r = true ↔ IsTxt b := by
    rw [hr, isTxt_iff]
    exact ⟨fun h => ⟨hne, h.2⟩, fun h => ⟨Nat.zero_le _, h.2⟩⟩
  constructor
  · refine ⟨fuel, r, ?_, htxt⟩
    rw [txtValid_long hlong]
    exact hloop
  · intro fuel' haccepted
    rw [txtValid_long hlong] at haccepted
    obtain rfl := txtLoop_unique haccepted hloop
    obtain ⟨-, strings, hstrings⟩ := hr.mp rfl
    obtain ⟨pairs, hpairs, hwithin⟩ := txtPairs_small hstrings h (Nat.lt_succ_self _)
    exact ⟨strings, pairs, hstrings, hpairs, hwithin⟩

theorem txtRight_dies (hlong : ¬b.length < 2) (hnot : ¬IsTxt b) (h : Dies b 0) : TxtRight b := by
  intro mem hmem
  obtain ⟨fuel, hloop⟩ := txtLoop_of_dies hmem h
  constructor
  · refine ⟨fuel, false, ?_, ?_⟩
    · rw [txtValid_long hlong]
      exact hloop
    · exact ⟨fun h => absurd h Bool.false_ne_true, fun htxt => absurd htxt hnot⟩
  · intro fuel' haccepted
    rw [txtValid_long hlong] at haccepted
    exact absurd (txtLoop_unique haccepted hloop).symm Bool.false_ne_true

/-- **TXT records are read right** exactly if no count that is arrived at is above 127, or if the
content is no record and the counts lead to an empty string or past its end. -/
theorem txtRight_iff (b : List UInt8) :
    TxtRight b ↔ b.length < 2 ∨ smallCounts 0 b = true ∨ ¬IsTxt b ∧ Dies b 0 := by
  constructor
  · intro h
    by_cases hlong : b.length < 2
    · exact Or.inl hlong
    refine Or.inr ?_
    by_cases hsmall : smallCounts 0 b = true
    · exact Or.inl hsmall
    obtain ⟨⟨fuel, r, hvalid, hr⟩, hpairs⟩ := h (recordMem b) hasRecord_recordMem
    by_cases htxt : IsTxt b
    · rw [hr.mpr htxt] at hvalid
      obtain ⟨strings, pairs, hstrings, hsome, -⟩ := hpairs fuel hvalid
      rw [txtPairs_big hstrings (Bool.eq_false_iff.mpr hsmall)] at hsome
      exact absurd hsome.symm (Option.some_ne_none _)
    · rw [Bool.eq_false_iff.mpr fun hrt => htxt (hr.mp hrt), txtValid_long hlong] at hvalid
      exact Or.inr ⟨htxt, dies_of_txtLoop hvalid⟩
  · rintro (hshort | hsmall | ⟨hnot, hdies⟩)
    · exact txtRight_short hshort
    · by_cases hlong : b.length < 2
      · exact txtRight_short hlong
      · exact txtRight_small hlong hsmall
    · by_cases hlong : b.length < 2
      · exact txtRight_short hlong
      · exact txtRight_dies hlong hnot hdies

end

/-- A count of 255 never lets the scan end. -/
theorem not_txtRight : ¬TxtRight [255, 0] := by
  intro h
  obtain ⟨⟨fuel, r, hvalid, -⟩, -⟩ := h (recordMem [255, 0]) hasRecord_recordMem
  rw [txtValid_long (by decide)] at hvalid
  have hstuck : txtLoop (recordMem [255, 0]) fuel (0 : ℕ) (2 - (0 : ℕ)) = none := by
    clear hvalid
    induction fuel with
    | zero => rfl
    | succ fuel ih => exact ih
  exact absurd (hvalid.symm.trans hstuck) (Option.some_ne_none _)

end SeClient
