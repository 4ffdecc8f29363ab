import SeClient.UriWriting

/-!
# IPv6 literals

What `parse_ipv6` makes of any text.  It counts the groups of an address, but where a seventh one
would be too many it asks whether the count is six: a gap behind six or seven groups hides that, and
nothing then limits the groups behind it.
-/

namespace SeClient

/-- Groups with colons between them. -/
def groupsText (groups : List H16) : CString := colons (groups.map H16.text)

/-- The bytes of groups. -/
def groupsBytes (groups : List H16) : List UInt8 := groups.flatMap fun g => groupBytes g.value

/-- A text is an address with at most one `::`, in brackets, in front of `rest`. -/
def Denotes (s : CString) (addr : List UInt8) (rest : CString) : Prop :=
  ∃ a : Ipv6Text, s = 91 :: (a.text ++ 93 :: rest) ∧ a.value = addr

/-- `parse_ipv6` comes to an end, stores 16 bytes at most, and accepts addresses only. -/
structure ParsesIpv6 (s : CString) : Prop where
  terminates : ∀ fuel data, s = 91 :: data → data.length ≤ fuel →
    ipv6Loop fuel {} data = parseIpv6 s
  stores : parseIpv6 s ≠ none
  accepts : ∀ addr rest, parseIpv6 s = some (some (addr, rest)) → Denotes s addr rest

/-- Eight groups, one or two of them behind a `::`, and then a bracket or one more group. -/
def Crowded (s : CString) : Prop :=
  ∃ left right tail, 6 ≤ left.length ∧ left.length ≤ 7 ∧ left.length + right.length = 8 ∧
    s = 91 :: (groupsText left ++ 58 :: 58 :: (groupsText right ++ tail)) ∧
    ((∃ rest, tail = 93 :: rest) ∨ ∃ c rest, tail = 58 :: c :: rest ∧ (hex4 c).isSome)

/-- An address comes back from its text. -/
def Ipv6ComesBack (a : List UInt8) : Prop := parseIpv6 (writeIpv6 a) = some (some (a, []))

/-! ## Termination -/

section
variable {p : Ipv6Parser} {s tail data : CString} {fuel : ℕ}

theorem hex16Loop_split {left n x y : ℕ} (h : hex16Loop left n x data = some (y, tail)) :
    ∃ s, data = s ++ tail ∧ (∀ c ∈ s, (hex4 c).isSome) ∧ s.length ≤ left ∧
      (left = 0 ∨ 1 ≤ n + s.length) ∧ y = s.foldl (fun x c => x <<< 4 + (hex4 c).getD 0) x := by
  induction left generalizing n x data with
  | zero =>
    obtain ⟨rfl, rfl⟩ := Prod.mk.inj (Option.some.inj h)
    exact ⟨[], rfl, fun c hc => absurd hc List.not_mem_nil, Nat.le_refl 0, Or.inl rfl, rfl⟩
  | succ left ih =>
    rw [hex16Loop] at h
    cases hy : data.head?.bind hex4 with
    | none =>
      rw [hy] at h
      dsimp only at h
      by_cases hn : 1 ≤ n
      · rw [if_pos hn] at h
        obtain ⟨rfl, rfl⟩ := Prod.mk.inj (Option.some.inj h)
        exact ⟨[], rfl, fun c hc => absurd hc List.not_mem_nil, Nat.zero_le _, Or.inr hn, rfl⟩
      · rw [if_neg hn] at h
        cases h
    | some v =>
      rw [hy] at h
      obtain ⟨c, hc, hv⟩ := Option.bind_eq_some_iff.mp hy
      obtain ⟨r, rfl⟩ := List.head?_eq_some_iff.mp hc
      obtain ⟨s, hs, hdigits, hlength, -, hvalue⟩ := ih h
      refine ⟨c :: s, ?_, ?_, ?_, Or.inr ?_, ?_⟩
      · rw [List.cons_append, ← hs, List.tail_cons]
      · refine List.forall_mem_cons.mpr ⟨?_, hdigits⟩
        rw [hv]
        rfl
      · exact Nat.succ_le_succ hlength
      · rw [List.length_cons]
        omega
      · rw [hvalue, List.foldl_cons, hv, Option.getD_some]

/-- What `hex16` reads is a group. -/
theorem hex16_split {x : ℕ} (h : hex16 data = some (x, tail)) :
    ∃ g : H16, data = g.text ++ tail ∧ g.value = x := by
  obtain ⟨s, hs, hdigits, hlength, hne, hvalue⟩ := hex16Loop_split h
  have hpos : s ≠ [] := by
    rintro rfl
    rcases hne with hne | hne
    · exact absurd hne (by decide)
    · exact absurd hne (by decide)
  exact ⟨⟨s, x, hvalue ▸ hexDigits_foldl hdigits, hpos, hlength⟩, hs, rfl⟩

theorem H16.length_pos (g : H16) : 0 < g.text.length := List.length_pos_iff.mpr g.nonempty

end

/-! ## What has been read -/

section
variable {done data : CString} {fuel : ℕ}

/-- A parser that has read `done` behind the bracket. -/
inductive Ipv6Parser.At : Ipv6Parser → CString → Prop
  | start : At {} []
  | colon {p : Ipv6Parser} (hs : p.state = 1) (hn : p.n = 0) (haddr : p.addr = []) : At p [58]
  | left {p : Ipv6Parser} (g : List H16) (hs : p.state = 5) (hn : p.n = g.length)
    (haddr : p.addr = groupsBytes g) (hne : g ≠ []) (hle : g.length ≤ 8) : At p (groupsText g)
  | leftColon {p : Ipv6Parser} (g : List H16) (hs : p.state = 6) (hn : p.n = g.length)
    (haddr : p.addr = groupsBytes g) (hne : g ≠ []) (hle : g.length ≤ 7) :
    At p (groupsText g ++ [58])
  | gap {p : Ipv6Parser} (g : List H16) (hs : p.state = 2) (hn : p.n = g.length)
    (haddr : p.addr = groupsBytes g) (hgap : p.gap = p.addr.length) (hle : g.length ≤ 7) :
    At p (groupsText g ++ [58, 58])
  | right {p : Ipv6Parser} (g h : List H16) (hs : p.state = 3) (hn : p.n = g.length + h.length)
    (haddr : p.addr = groupsBytes g ++ groupsBytes h) (hgap : p.gap = (groupsBytes g).length)
    (hne : h ≠ []) (hg : g.length ≤ 7) (hle : g.length + h.length ≤ 8)
    (hsix : g.length ≤ 5 → g.length + h.length ≤ 6) :
    At p (groupsText g ++ 58 :: 58 :: groupsText h)
  | rightColon {p : Ipv6Parser} (g h : List H16) (hs : p.state = 4)
    (hn : p.n = g.length + h.length) (haddr : p.addr = groupsBytes g ++ groupsBytes h)
    (hgap : p.gap = (groupsBytes g).length) (hne : h ≠ []) (hg : g.length ≤ 7)
    (hle : g.length + h.length ≤ 8) (hsix : g.length ≤ 5 → g.length + h.length ≤ 5) :
    At p (groupsText g ++ 58 :: 58 :: groupsText h ++ [58])

theorem groupsBytes_length (g : List H16) : (groupsBytes g).length = 2 * g.length := by
  rw [groupsBytes, ← Ipv6Text.flatMap_groups, groups_length (Ipv6Text.hexGroups g), List.length_map]

theorem groupsText_snoc {g : List H16} (hne : g ≠ []) (x : H16) :
    groupsText (g ++ [x]) = groupsText g ++ 58 :: x.text := by
  induction g with
  | nil => exact absurd rfl hne
  | cons y g ih =>
    cases g with
    | nil => rfl
    | cons z g =>
      have hcons : ∀ l : List H16, groupsText (y :: z :: l) = y.text ++ 58 :: groupsText (z :: l) :=
        fun _ => rfl
      rw [List.cons_append, List.cons_append, hcons, hcons, List.append_assoc, List.cons_append,
        ← ih (List.cons_ne_nil z g), List.cons_append]

theorem groupsBytes_snoc (g : List H16) (x : H16) :
    groupsBytes (g ++ [x]) = groupsBytes g ++ groupBytes x.value := by
  rw [groupsBytes, List.flatMap_append]
  exact congrArg (_ ++ ·) (List.append_nil _)

theorem H16.head_isSome {c : UInt8} {rest : CString} (x : H16) (h : c :: data = x.text ++ rest) :
    (hex4 c).isSome := by
  obtain ⟨d, s, hs⟩ := List.exists_cons_of_ne_nil x.nonempty
  rw [hs, List.cons_append] at h
  rw [(List.cons.inj h).1]
  refine x.digits.spec.1 d ?_
  rw [hs]
  exact List.mem_cons_self

/-! ### One pass -/

variable {p : Ipv6Parser} {c : UInt8}

theorem ipv6Input_cases (c : UInt8) :
    c = 58 ∧ ipv6Input c = 0 ∨ c = 93 ∧ ipv6Input c = 1 ∨ ipv6Input c = 2 := by
  unfold ipv6Input
  by_cases hcolon : c = 58
  · exact Or.inl ⟨hcolon, if_pos hcolon⟩
  · rw [if_neg hcolon]
    by_cases hbracket : c = 93
    · exact Or.inr (Or.inl ⟨hbracket, if_pos hbracket⟩)
    · exact Or.inr (Or.inr (if_neg hbracket))

/-- The state behind a character. -/
def Ipv6Parser.next (p : Ipv6Parser) (c : UInt8) : ℕ :=
  ipv6State.getD (p.state * 3 + ipv6Input c) 7

theorem ipv6Loop_refuse (h : p.next c = 7) : ipv6Loop (fuel + 1) p (c :: data) = some none := by
  unfold Ipv6Parser.next at h
  rw [ipv6Loop, h]
  rfl

theorem ipv6Loop_colon (h : p.next c = 1) :
    ipv6Loop (fuel + 1) p (c :: data) = ipv6Loop fuel { p with state := 1 } data := by
  unfold Ipv6Parser.next at h
  rw [ipv6Loop, h]
  rfl

theorem ipv6Loop_gap (h : p.next c = 2) : ipv6Loop (fuel + 1) p (c :: data) =
    ipv6Loop fuel { p with state := 2, gap := p.addr.length } data := by
  unfold Ipv6Parser.next at h
  rw [ipv6Loop, h]
  rfl

theorem ipv6Loop_leftColon (h : p.next c = 6) : ipv6Loop (fuel + 1) p (c :: data) =
    if p.n = 8 then some none else ipv6Loop fuel { p with state := 6 } data := by
  unfold Ipv6Parser.next at h
  rw [ipv6Loop, h]
  rfl

theorem ipv6Loop_rightColon (h : p.next c = 4) : ipv6Loop (fuel + 1) p (c :: data) =
    if p.n = 6 then some none else ipv6Loop fuel { p with state := 4 } data := by
  unfold Ipv6Parser.next at h
  rw [ipv6Loop, h]
  rfl

theorem ipv6Loop_full (h : p.next c = 9) : ipv6Loop (fuel + 1) p (c :: data) =
    some (if p.n = 8 then some (p.addr, data) else none) := by
  unfold Ipv6Parser.next at h
  rw [ipv6Loop, h]
  rfl

/-- A group in front of the gap is refused, or read, or does not fit. -/
theorem ipv6Loop_group (fuel : ℕ) (data : CString) (h : p.next c = 5) :
    ipv6Loop (fuel + 1) p (c :: data) = some none ∨
    ∃ (g : H16) (rest : CString), c :: data = g.text ++ rest ∧ ipv6Loop (fuel + 1) p (c :: data) =
      if p.addr.length < 16 then ipv6Loop fuel
        { p with state := 5, n := p.n + 1, addr := p.addr ++ groupBytes g.value } rest
      else none := by
  unfold Ipv6Parser.next at h
  rw [ipv6Loop, h]
  dsimp only
  unfold Ipv6Parser.group
  cases hread : hex16 (c :: data) with
  | none => exact Or.inl rfl
  | some r =>
    obtain ⟨x, rest⟩ := r
    obtain ⟨g, htext, rfl⟩ := hex16_split hread
    refine Or.inr ⟨g, rest, htext, ?_⟩
    dsimp only
    by_cases hroom : p.addr.length < 16
    · simp only [if_pos hroom]
      rfl
    · simp only [if_neg hroom]

/-- A group behind the gap. -/
theorem ipv6Loop_gapGroup (fuel : ℕ) (data : CString) (h : p.next c = 3) :
    ipv6Loop (fuel + 1) p (c :: data) = some none ∨
    ∃ (g : H16) (rest : CString), c :: data = g.text ++ rest ∧ ipv6Loop (fuel + 1) p (c :: data) =
      if p.addr.length < 16 then ipv6Loop fuel
        { p with state := 3, n := p.n + 1, m := p.m + 1, addr := p.addr ++ groupBytes g.value } rest
      else none := by
  unfold Ipv6Parser.next at h
  rw [ipv6Loop, h]
  dsimp only
  unfold Ipv6Parser.group
  cases hread : hex16 (c :: data) with
  | none => exact Or.inl rfl
  | some r =>
    obtain ⟨x, rest⟩ := r
    obtain ⟨g, htext, rfl⟩ := hex16_split hread
    refine Or.inr ⟨g, rest, htext, ?_⟩
    dsimp only
    by_cases hroom : p.addr.length < 16
    · simp only [if_pos hroom]
      rfl
    · simp only [if_neg hroom]

/-! ### All passes -/

/-- What may become of a text. -/
def Ipv6Outcome (s : CString) (r : Option (Option (List UInt8 × CString))) : Prop :=
  r ≠ none ∧ ∀ addr rest, r = some (some (addr, rest)) → Denotes s addr rest

theorem outcome_refused (s : CString) : Ipv6Outcome s (some none) :=
  ⟨Option.some_ne_none _, fun _ _ h => by cases h⟩

theorem outcome_accepted {s : CString} {addr : List UInt8} {rest : CString}
    (h : Denotes s addr rest) : Ipv6Outcome s (some (some (addr, rest))) := by
  refine ⟨Option.some_ne_none _, fun addr' rest' heq => ?_⟩
  obtain ⟨rfl, rfl⟩ := Prod.mk.inj (Option.some.inj (Option.some.inj heq))
  exact h

/-- Eight groups are an address. -/
theorem denotes_full {g : List H16} (hg : g.length = 8) (rest : CString) :
    Denotes (91 :: (groupsText g ++ 93 :: rest)) (groupsBytes g) rest := by
  refine ⟨⟨g, none, none, hg⟩, ?_, ?_⟩
  · show 91 :: (colons (g.map H16.text) ++ 93 :: rest) =
      91 :: (colons (g.map H16.text ++ []) ++ 93 :: rest)
    rw [List.append_nil]
  · show groupsBytes g ++ List.replicate (16 - (groupsBytes g).length - 0) 0 ++ [] = _
    rw [groupsBytes_length, hg]
    exact (List.append_nil _).trans (List.append_nil _)

/-- Seven groups or fewer around a gap are an address. -/
theorem denotes_gap {g h : List H16} (hle : g.length + h.length ≤ 7) (rest : CString) :
    Denotes (91 :: (groupsText g ++ 58 :: 58 :: (groupsText h ++ 93 :: rest)))
      (groupsBytes g ++ List.replicate (16 - 2 * (g.length + h.length)) 0 ++ groupsBytes h)
      rest := by
  refine ⟨⟨g, some h, none, hle⟩, ?_, ?_⟩
  · show 91 :: (colons (g.map H16.text) ++ 58 :: 58 :: (colons (h.map H16.text) ++ 93 :: rest)) =
      91 :: (colons (g.map H16.text) ++ 58 :: 58 :: colons (h.map H16.text ++ []) ++ 93 :: rest)
    rw [List.append_nil, List.append_assoc, List.cons_append, List.cons_append]
  · show groupsBytes g ++ List.replicate (16 - (groupsBytes g).length -
      (groupsBytes h ++ []).length) 0 ++ (groupsBytes h ++ []) = _
    rw [List.append_nil, groupsBytes_length, groupsBytes_length, Nat.sub_sub, Nat.mul_add]

/-- The gap is filled at the bracket. -/
theorem gap_outcome (fuel : ℕ) (data : CString) {g h : List H16}
    (hs : p.state = 2 ∨ p.state = 3)
    (hn : p.n = g.length + h.length) (haddr : p.addr = groupsBytes g ++ groupsBytes h)
    (hgap : p.gap = (groupsBytes g).length) (hle : g.length + h.length ≤ 7) :
    Ipv6Outcome (91 :: (groupsText g ++ 58 :: 58 :: (groupsText h ++ 93 :: data)))
      (ipv6Loop (fuel + 1) p (93 :: data)) := by
  rw [ipv6Loop_accept hs haddr hgap, hn]
  exact outcome_accepted (denotes_gap hle data)

theorem next_eq {k i : ℕ} (hs : p.state = k) (hi : ipv6Input c = i) :
    p.next c = ipv6State.getD (k * 3 + i) 7 := by
  unfold Ipv6Parser.next
  rw [hs, hi]

/-- With this many passes to come, a text that is not crowded has an outcome. -/
def Ipv6Outcomes (fuel : ℕ) : Prop := ∀ {p : Ipv6Parser} {done data : CString}, p.At done →
  ¬Crowded (91 :: (done ++ data)) → Ipv6Outcome (91 :: (done ++ data)) (ipv6Loop fuel p data)

/-- A group in front of the gap. -/
theorem Ipv6Outcomes.leftGroup (ih : Ipv6Outcomes fuel) {g : List H16} (hnext : p.next c = 5)
    (hn : p.n = g.length) (haddr : p.addr = groupsBytes g) (hle : g.length ≤ 7)
    (hdone : ∀ x : H16, groupsText (g ++ [x]) = done ++ x.text)
    (hs : ¬Crowded (91 :: (done ++ c :: data))) :
    Ipv6Outcome (91 :: (done ++ c :: data)) (ipv6Loop (fuel + 1) p (c :: data)) := by
  rcases ipv6Loop_group fuel data hnext with heq | ⟨x, rest, htext, heq⟩
  · rw [heq]
    exact outcome_refused _
  · have hroom : p.addr.length < 16 := by
      rw [haddr, groupsBytes_length]
      omega
    rw [heq, if_pos hroom]
    rw [htext, ← List.append_assoc, ← hdone] at hs ⊢
    refine ih (.left (g ++ [x]) rfl ?_ ?_ ?_ ?_) hs
    · rw [List.length_append, ← hn]
      rfl
    · rw [groupsBytes_snoc, ← haddr]
    · exact List.append_ne_nil_of_right_ne_nil _ (List.cons_ne_nil _ _)
    · rw [List.length_append]
      exact Nat.succ_le_succ hle

/-- A group behind the gap. -/
theorem Ipv6Outcomes.rightGroup (ih : Ipv6Outcomes fuel) {g h : List H16} (hnext : p.next c = 3)
    (hn : p.n = g.length + h.length) (haddr : p.addr = groupsBytes g ++ groupsBytes h)
    (hgap : p.gap = (groupsBytes g).length) (hg : g.length ≤ 7) (hle : g.length + h.length ≤ 7)
    (hsix : g.length ≤ 5 → g.length + h.length ≤ 5)
    (hdone : ∀ x : H16, groupsText g ++ 58 :: 58 :: groupsText (h ++ [x]) = done ++ x.text)
    (hs : ¬Crowded (91 :: (done ++ c :: data))) :
    Ipv6Outcome (91 :: (done ++ c :: data)) (ipv6Loop (fuel + 1) p (c :: data)) := by
  rcases ipv6Loop_gapGroup fuel data hnext with heq | ⟨x, rest, htext, heq⟩
  · rw [heq]
    exact outcome_refused _
  · have hroom : p.addr.length < 16 := by
      rw [haddr, List.length_append, groupsBytes_length, groupsBytes_length]
      omega
    have hlength : g.length + (h ++ [x]).length = g.length + h.length + 1 := by
      rw [List.length_append]
      rfl
    rw [heq, if_pos hroom]
    rw [htext, ← List.append_assoc, ← hdone] at hs ⊢
    refine ih (.right g (h ++ [x]) rfl ?_ ?_ hgap ?_ hg ?_ ?_) hs
    · rw [hlength, ← hn]
    · rw [groupsBytes_snoc, ← List.append_assoc, ← haddr]
    · exact List.append_ne_nil_of_right_ne_nil _ (List.cons_ne_nil _ _)
    · rw [hlength]
      exact Nat.succ_le_succ hle
    · rw [hlength]
      exact fun h => Nat.succ_le_succ (hsix h)

/-- **A pass** at each place. -/
theorem Ipv6Outcomes.pass (ih : Ipv6Outcomes fuel) (h : p.At done)
    (hs : ¬Crowded (91 :: (done ++ c :: data))) :
    Ipv6Outcome (91 :: (done ++ c :: data)) (ipv6Loop (fuel + 1) p (c :: data)) := by
  cases h with
  | start =>
    rcases ipv6Input_cases c with ⟨rfl, hi⟩ | ⟨rfl, hi⟩ | hi
    · rw [ipv6Loop_colon (next_eq rfl hi)]
      exact ih (.colon rfl rfl rfl) hs
    · rw [ipv6Loop_refuse (next_eq rfl hi)]
      exact outcome_refused _
    · exact ih.leftGroup (g := []) (next_eq rfl hi) rfl rfl (Nat.zero_le _) (fun _ => rfl) hs
  | colon hstate hn haddr =>
    rcases ipv6Input_cases c with ⟨rfl, hi⟩ | ⟨rfl, hi⟩ | hi
    · have hat : Ipv6Parser.At { p with state := 2, gap := p.addr.length } [58, 58] :=
        .gap [] rfl hn haddr rfl (Nat.zero_le _)
      rw [ipv6Loop_gap (next_eq hstate hi)]
      exact ih hat hs
    · rw [ipv6Loop_refuse (next_eq hstate hi)]
      exact outcome_refused _
    · rw [ipv6Loop_refuse (next_eq hstate hi)]
      exact outcome_refused _
  | left g hstate hn haddr hne hle =>
    rcases ipv6Input_cases c with ⟨rfl, hi⟩ | ⟨rfl, hi⟩ | hi
    · rw [ipv6Loop_leftColon (next_eq hstate hi)]
      by_cases height : p.n = 8
      · rw [if_pos height]
        exact outcome_refused _
      · rw [if_neg height]
        rw [List.append_cons] at hs ⊢
        exact ih (.leftColon g rfl hn haddr hne (by omega)) hs
    · rw [ipv6Loop_full (next_eq hstate hi), hn]
      by_cases height : g.length = 8
      · rw [if_pos height, haddr]
        exact outcome_accepted (denotes_full height data)
      · rw [if_neg height]
        exact outcome_refused _
    · rw [ipv6Loop_refuse (next_eq hstate hi)]
      exact outcome_refused _
  | leftColon g hstate hn haddr hne hle =>
    rcases ipv6Input_cases c with ⟨rfl, hi⟩ | ⟨rfl, hi⟩ | hi
    · have hat : Ipv6Parser.At { p with state := 2, gap := p.addr.length }
          (groupsText g ++ [58, 58]) := .gap g rfl hn haddr rfl hle
      have hread : groupsText g ++ [58] ++ 58 :: data = groupsText g ++ [58, 58] ++ data := by
        rw [List.append_assoc, List.append_assoc]
        rfl
      rw [ipv6Loop_gap (next_eq hstate hi)]
      rw [hread] at hs ⊢
      exact ih hat hs
    · rw [ipv6Loop_refuse (next_eq hstate hi)]
      exact outcome_refused _
    · refine ih.leftGroup (next_eq hstate hi) hn haddr hle (fun x => ?_) hs
      rw [groupsText_snoc hne, List.append_assoc]
      rfl
  | gap g hstate hn haddr hgap hle =>
    rcases ipv6Input_cases c with ⟨rfl, hi⟩ | ⟨rfl, hi⟩ | hi
    · rw [ipv6Loop_refuse (next_eq hstate hi)]
      exact outcome_refused _
    · have hfill := gap_outcome (h := []) fuel data (Or.inl hstate) hn
        (haddr.trans (List.append_nil _).symm) (hgap.trans (congrArg List.length haddr)) hle
      rw [List.append_assoc]
      exact hfill
    · refine ih.rightGroup (h := []) (next_eq hstate hi) hn
        (haddr.trans (List.append_nil _).symm) (hgap.trans (congrArg List.length haddr)) hle hle
        id (fun x => ?_) hs
      rw [List.append_assoc]
      rfl
  | right g h hstate hn haddr hgap hne hg hle hsix =>
    rcases ipv6Input_cases c with ⟨rfl, hi⟩ | ⟨rfl, hi⟩ | hi
    · rw [ipv6Loop_rightColon (next_eq hstate hi)]
      by_cases hcount : p.n = 6
      · rw [if_pos hcount]
        exact outcome_refused _
      · rw [if_neg hcount]
        rw [List.append_cons] at hs ⊢
        refine ih (.rightColon g h rfl hn haddr hgap hne hg hle fun hfive => ?_) hs
        have := hsix hfive
        omega
    · rw [List.append_assoc, List.cons_append, List.cons_append] at hs ⊢
      by_cases hseven : g.length + h.length ≤ 7
      · exact gap_outcome fuel data (Or.inr hstate) hn haddr hgap hseven
      · refine absurd ⟨g, h, 93 :: data, ?_, hg, ?_, rfl, Or.inl ⟨data, rfl⟩⟩ hs
        · omega
        · omega
    · rw [ipv6Loop_refuse (next_eq hstate hi)]
      exact outcome_refused _
  | rightColon g h hstate hn haddr hgap hne hg hle hsix =>
    rcases ipv6Input_cases c with ⟨rfl, hi⟩ | ⟨rfl, hi⟩ | hi
    · rw [ipv6Loop_refuse (next_eq hstate hi)]
      exact outcome_refused _
    · rw [ipv6Loop_refuse (next_eq hstate hi)]
      exact outcome_refused _
    · by_cases hseven : g.length + h.length ≤ 7
      · refine ih.rightGroup (next_eq hstate hi) hn haddr hgap hg hseven hsix (fun x => ?_) hs
        simp only [groupsText_snoc hne, List.append_assoc, List.cons_append, List.nil_append]
      · -- a ninth group, or nothing
        rcases ipv6Loop_gapGroup fuel data (next_eq hstate hi) with
          heq | ⟨x, rest, htext, -⟩
        · rw [heq]
          exact outcome_refused _
        · refine absurd ⟨g, h, 58 :: c :: data, ?_, hg, ?_, ?_, Or.inr ⟨c, data, rfl, ?_⟩⟩ hs
          · omega
          · omega
          · simp only [List.append_assoc, List.cons_append, List.nil_append]
          · exact x.head_isSome htext

/-- **What becomes of a text** that is not crowded. -/
theorem ipv6Outcomes (fuel : ℕ) : Ipv6Outcomes fuel := by
  induction fuel with
  | zero =>
    intro p done data _ _
    exact outcome_refused _
  | succ fuel ih =>
    intro p done data h hs
    cases data with
    | nil => exact outcome_refused _
    | cons c data => exact ih.pass h hs

/-- Each pass reads on. -/
theorem ipv6Loop_fuel {fuel' : ℕ} (hf : data.length ≤ fuel) (hf' : data.length ≤ fuel') :
    ipv6Loop fuel p data = ipv6Loop fuel' p data := by
  induction fuel generalizing fuel' p data with
  | zero =>
    obtain rfl := List.length_eq_zero_iff.mp (Nat.le_zero.mp hf)
    cases fuel' with
    | zero => rfl
    | succ fuel' => rfl
  | succ fuel ih =>
    cases data with
    | nil =>
      cases fuel' with
      | zero => rfl
      | succ fuel' => rfl
    | cons c data =>
      cases fuel' with
      | zero => exact absurd hf' (Nat.not_succ_le_zero _)
      | succ fuel' =>
        rw [List.length_cons] at hf hf'
        have hrest : ∀ (q : Ipv6Parser) (rest : CString), rest.length ≤ data.length →
            ipv6Loop fuel q rest = ipv6Loop fuel' q rest := by
          intro q rest hle
          exact ih (by omega) (by omega)
        have hgroup : ∀ q : Ipv6Parser, ∀ q' rest, q.group (c :: data) = some (some (q', rest)) →
            ipv6Loop fuel q' rest = ipv6Loop fuel' q' rest := by
          intro q q' rest hq
          refine hrest q' rest ?_
          unfold Ipv6Parser.group at hq
          cases hread : hex16 (c :: data) with
          | none =>
            rw [hread] at hq
            cases hq
          | some r =>
            obtain ⟨x, rest'⟩ := r
            obtain ⟨g, htext, -⟩ := hex16_split hread
            rw [hread] at hq
            dsimp only at hq
            split at hq
            · obtain ⟨-, rfl⟩ := Prod.mk.inj (Option.some.inj (Option.some.inj hq))
              have hlength := congrArg List.length htext
              have hpos := g.length_pos
              rw [List.length_cons, List.length_append] at hlength
              omega
            · cases hq
        rw [ipv6Loop, ipv6Loop]
        dsimp only
        split
        · exact hrest _ data (Nat.le_refl _)
        · split
          · rfl
          · rfl
          · rename_i q rest hq
            exact hgroup _ q rest hq
        · split
          · rfl
          · rfl
          · rename_i q rest hq
            exact hgroup _ q rest hq
        · rfl
        · rfl
        · rfl
        · rw [hrest _ data (Nat.le_refl _)]
        · rw [hrest _ data (Nat.le_refl _)]
        · exact hrest _ data (Nat.le_refl _)

theorem parseIpv6_outcome {s : CString} (hs : ¬Crowded s) : ParsesIpv6 s := by
  have hnull : ∀ s : CString, (∀ data, s ≠ 91 :: data) → parseIpv6 s = some none := by
    intro s hs
    unfold parseIpv6
    split
    · exact absurd rfl (hs _)
    · rfl
  by_cases hbracket : ∃ data, s = 91 :: data
  · obtain ⟨data, rfl⟩ := hbracket
    obtain ⟨hstores, haccepts⟩ := ipv6Outcomes data.length .start hs
    refine ⟨fun fuel data' heq hle => ?_, hstores, haccepts⟩
    obtain rfl := (List.cons.inj heq).2
    exact ipv6Loop_fuel hle (Nat.le_refl _)
  · have hparse := hnull s fun data heq => hbracket ⟨data, heq⟩
    refine ⟨fun fuel data heq => absurd ⟨data, heq⟩ hbracket, ?_, fun addr rest heq => ?_⟩
    · rw [hparse]
      exact Option.some_ne_none _
    · rw [hparse] at heq
      cases heq

/-! ## Crowded texts -/

theorem count_colons {l : List CString} (h : ∀ s ∈ l, 58 ∉ s) :
    (colons l).count 58 = l.length - 1 := by
  induction l with
  | nil => rfl
  | cons s l ih =>
    obtain ⟨hs, hl⟩ := List.forall_mem_cons.mp h
    cases l with
    | nil => exact List.count_eq_zero_of_not_mem hs
    | cons t l =>
      rw [colons_cons, List.count_append, List.count_cons_self, ih hl,
        List.count_eq_zero_of_not_mem hs]
      simp only [List.length_cons]
      omega

theorem mem_colons {l : List CString} {c : UInt8} (h : c ∈ colons l) :
    c = 58 ∨ ∃ s ∈ l, c ∈ s := by
  induction l with
  | nil => exact absurd h List.not_mem_nil
  | cons s l ih =>
    cases l with
    | nil => exact Or.inr ⟨s, List.mem_cons_self, h⟩
    | cons t l =>
      rw [colons_cons] at h
      rcases List.mem_append.mp h with h | h
      · exact Or.inr ⟨s, List.mem_cons_self, h⟩
      · rcases List.mem_cons.mp h with h | h
        · exact Or.inl h
        · rcases ih h with h | ⟨u, hu, h⟩
          · exact Or.inl h
          · exact Or.inr ⟨u, List.mem_cons_of_mem _ hu, h⟩

theorem H16.hex {c : UInt8} (g : H16) (hc : c ∈ g.text) : (hex4 c).isSome := g.digits.spec.1 c hc

theorem count_groupsText (g : List H16) : (groupsText g).count 58 = g.length - 1 := by
  have hcolon : ∀ s ∈ g.map H16.text, 58 ∉ s := by
    intro s hs hmem
    obtain ⟨x, -, rfl⟩ := List.mem_map.mp hs
    exact absurd (x.hex hmem) (by decide)
  rw [groupsText, count_colons hcolon, List.length_map]

theorem bracket_groupsText (g : List H16) : 93 ∉ groupsText g := by
  intro hmem
  rcases mem_colons hmem with h | ⟨s, hs, h⟩
  · exact absurd h (by decide)
  · obtain ⟨x, -, rfl⟩ := List.mem_map.mp hs
    exact absurd (x.hex h) (by decide)

/-- A text of groups ends with a digit. -/
theorem groupsText_last {g : List H16} (hne : g ≠ []) :
    ∃ front c, groupsText g = front ++ [c] ∧ (hex4 c).isSome := by
  obtain ⟨init, x, hg⟩ := List.eq_nil_or_concat g |>.resolve_left hne
  obtain ⟨digits, c, htext⟩ := List.eq_nil_or_concat x.text |>.resolve_left x.nonempty
  rw [List.concat_eq_append] at hg htext
  have hhex : (hex4 c).isSome := by
    refine x.hex ?_
    rw [htext]
    exact List.mem_append_right _ (List.mem_singleton_self c)
  by_cases hinit : init = []
  · refine ⟨digits, c, ?_, hhex⟩
    rw [hg, hinit, ← htext]
    rfl
  · refine ⟨groupsText init ++ 58 :: digits, c, ?_, hhex⟩
    rw [hg, groupsText_snoc hinit, htext, List.append_assoc]
    rfl

/-- Eight groups around a `::` are no address. -/
theorem crowded_text {left right : List H16} (hleft : left ≠ []) (hright : right ≠ [])
    (hsum : left.length + right.length = 8) {a : Ipv6Text} (ha : a.Handled) :
    a.text ≠ groupsText left ++ 58 :: 58 :: groupsText right := by
  obtain ⟨l, r, last, fits⟩ := a
  obtain ⟨hlast, hcount⟩ := ha
  dsimp only at hlast
  subst hlast
  intro htext
  have hl := List.length_pos_iff.mpr hleft
  have hr := List.length_pos_iff.mpr hright
  have hcolons := congrArg (List.count 58) htext
  rw [List.count_append, List.count_cons_self, List.count_cons_self, count_groupsText,
    count_groupsText] at hcolons
  cases r with
  | none =>
    have hfull : (⟨l, none, none, fits⟩ : Ipv6Text).text = groupsText l := by
      show colons (l.map H16.text ++ []) = _
      rw [List.append_nil]
      rfl
    have height : l.length = 8 := fits
    rw [hfull, count_groupsText] at hcolons
    omega
  | some r =>
    have hgap : (⟨l, some r, none, fits⟩ : Ipv6Text).text =
        groupsText l ++ 58 :: 58 :: groupsText r := by
      show colons (l.map H16.text) ++ 58 :: 58 :: colons (r.map H16.text ++ []) = _
      rw [List.append_nil]
      rfl
    have hseven : l.length + r.length ≤ 7 := fits
    have hshort : l.length + r.length ≤ 6 ∨ r.length ≤ 1 := hcount r rfl
    rw [hgap, List.count_append, List.count_cons_self, List.count_cons_self, count_groupsText,
      count_groupsText] at hcolons
    -- seven groups in front of the gap and none behind it: but then a colon is last
    have hnil : r = [] := List.length_eq_zero_iff.mp (by omega)
    obtain ⟨front, c, hfront, hhex⟩ := groupsText_last hright
    rw [hgap, hnil, hfront] at htext
    have hends := congrArg List.getLast? htext
    have hlast₁ : (groupsText l ++ 58 :: 58 :: groupsText []).getLast? = some 58 := by
      show (groupsText l ++ ([58] ++ [58])).getLast? = some 58
      rw [← List.append_assoc, List.getLast?_concat]
    have hlast₂ : (groupsText left ++ 58 :: 58 :: (front ++ [c])).getLast? = some c := by
      show (groupsText left ++ ((58 :: 58 :: front) ++ [c])).getLast? = some c
      rw [← List.append_assoc, List.getLast?_concat]
    rw [hlast₁, hlast₂] at hends
    rw [← Option.some.inj hends] at hhex
    exact absurd hhex (by decide)

theorem takeWhile_bracket {s tail : CString} (hs : 93 ∉ s) :
    (s ++ 93 :: tail).takeWhile (· ≠ 93) = s := by
  induction s with
  | nil => rfl
  | cons c s ih =>
    obtain ⟨hc, hs⟩ := not_or.mp (mt List.mem_cons.mpr hs)
    rw [List.cons_append, List.takeWhile_cons_of_pos (by simpa using Ne.symm hc), ih hs]

theorem bracket_text {a : Ipv6Text} (ha : a.Handled) : 93 ∉ a.text := by
  obtain ⟨l, r, last, fits⟩ := a
  obtain ⟨hlast, -⟩ := ha
  dsimp only at hlast
  subst hlast
  intro hmem
  unfold Ipv6Text.text at hmem
  cases r with
  | none => exact bracket_groupsText l (by simpa [groupsText] using hmem)
  | some r =>
    have hparts : (93 : UInt8) ∈ groupsText l ∨ (93 : UInt8) ∈ groupsText r := by
      simpa [groupsText] using hmem
    rcases hparts with h | h
    · exact bracket_groupsText l h
    · exact bracket_groupsText r h

/-- The loop has read eight groups. -/
theorem crowded_run {left right : List H16} (hsix : 6 ≤ left.length) (hseven : left.length ≤ 7)
    (hsum : left.length + right.length = 8) {tail : CString} (ht : NotHex tail) :
    ∃ k p, tail.length ≤ k ∧ p.state = 3 ∧ p.n = 8 ∧
      p.addr = groupsBytes left ++ groupsBytes right ∧ p.gap = (groupsBytes left).length ∧
      parseIpv6 (91 :: (groupsText left ++ 58 :: 58 :: (groupsText right ++ tail))) =
        ipv6Loop k p tail := by
  have hleft : (left.map H16.value).flatMap groupBytes = groupsBytes left :=
    Ipv6Text.flatMap_groups left
  have hright : (right.map H16.value).flatMap groupBytes = groupsBytes right :=
    Ipv6Text.flatMap_groups right
  obtain ⟨k, hk, hrun⟩ := parseIpv6_gap (groupsText right ++ tail) (Ipv6Text.hexGroups left)
    (by rwa [List.length_map])
  rw [hleft, List.length_map] at hrun
  have hne : right.map H16.text ≠ [] := by
    rw [Ne, List.map_eq_nil_iff]
    rintro rfl
    rw [List.length_nil] at hsum
    omega
  obtain ⟨j, hj, hrest⟩ := ipv6Loop_right
    (p := { state := 2, n := left.length, addr := groupsBytes left
            gap := (groupsBytes left).length }) (Ipv6Text.hexGroups right) hne (Or.inl rfl)
    (groupsBytes_length left) (by rw [List.length_map]; dsimp only; omega)
    (Or.inr (Or.inr hsix)) ht hk
  refine ⟨j, _, hj, rfl, ?_, ?_, rfl, hrun.trans hrest⟩
  · rw [List.length_map]
    exact hsum
  · rw [hright]

theorem hex16Loop_some {left n x : ℕ} (hn : 1 ≤ n) : (hex16Loop left n x data).isSome := by
  induction left generalizing n x data with
  | zero => rfl
  | succ left ih =>
    unfold hex16Loop
    cases data.head?.bind hex4 with
    | none =>
      dsimp only
      rw [if_pos hn]
      rfl
    | some y => exact ih (Nat.le_succ_of_le hn)

/-- A group for which there is no room. -/
theorem ipv6Loop_overflow (h : p.next c = 3) (hc : (hex4 c).isSome) (hroom : 16 ≤ p.addr.length) :
    ipv6Loop (fuel + 1) p (c :: data) = none := by
  obtain ⟨v, hv⟩ := Option.isSome_iff_exists.mp hc
  have hread : (hex16 (c :: data)).isSome := by
    unfold hex16 hex16Loop
    rw [List.head?_cons, Option.bind_some, hv]
    exact hex16Loop_some (Nat.le_refl 1)
  obtain ⟨r, hr⟩ := Option.isSome_iff_exists.mp hread
  unfold Ipv6Parser.next at h
  rw [ipv6Loop, h]
  dsimp only
  unfold Ipv6Parser.group
  rw [hr]
  simp only [if_neg (Nat.not_lt.mpr hroom)]

/-- A text that is crowded is accepted for what it is not, or stored behind the sixteen bytes. -/
theorem not_parsesIpv6 {s : CString} (h : Crowded s) : ¬ParsesIpv6 s := by
  obtain ⟨left, right, tail, hsix, hseven, hsum, rfl, htail⟩ := h
  intro hparses
  have hleft : left ≠ [] := by
    rintro rfl
    exact absurd hsix (by decide)
  have hright : right ≠ [] := by
    rintro rfl
    rw [List.length_nil] at hsum
    omega
  rcases htail with ⟨rest, rfl⟩ | ⟨c, rest, rfl, hc⟩
  · -- the bracket: accepted
    obtain ⟨k, p, hk, hstate, hn, haddr, hgap, hrun⟩ := crowded_run hsix hseven hsum
      (notHex_cons (c := 93) (by decide) rest)
    obtain ⟨k, rfl⟩ := Nat.exists_eq_succ_of_ne_zero (n := k) (by
      rw [List.length_cons] at hk
      omega)
    rw [ipv6Loop_accept (Or.inr hstate) haddr hgap] at hrun
    obtain ⟨a, htext, -⟩ := hparses.accepts _ _ hrun
    have hparse := Ipv6Text.parseIpv6_text a rest
    rw [← htext, hrun] at hparse
    have ha : a.Handled := by
      by_contra hnot
      rw [if_neg hnot] at hparse
      cases hparse
    have hbracket : 93 ∉ groupsText left ++ 58 :: 58 :: groupsText right := by
      intro hmem
      rcases List.mem_append.mp hmem with hmem | hmem
      · exact bracket_groupsText left hmem
      · rcases List.mem_cons.mp hmem with hmem | hmem
        · exact absurd hmem (by decide)
        · rcases List.mem_cons.mp hmem with hmem | hmem
          · exact absurd hmem (by decide)
          · exact bracket_groupsText right hmem
    have heq : groupsText left ++ 58 :: 58 :: groupsText right ++ 93 :: rest =
        a.text ++ 93 :: rest := by
      rw [List.append_assoc]
      exact (List.cons.inj htext).2
    have hfirst := congrArg (List.takeWhile (· ≠ 93)) heq
    rw [takeWhile_bracket hbracket, takeWhile_bracket (bracket_text ha)] at hfirst
    exact crowded_text hleft hright hsum ha hfirst.symm
  · -- one more group: the address has no room
    obtain ⟨k, p, hk, hstate, hn, haddr, hgap, hrun⟩ := crowded_run hsix hseven hsum
      (notHex_cons (c := 58) (by decide) (c :: rest))
    rw [List.length_cons, List.length_cons] at hk
    obtain ⟨k, rfl⟩ := Nat.exists_eq_succ_of_ne_zero (n := k) (by omega)
    obtain ⟨k, rfl⟩ := Nat.exists_eq_succ_of_ne_zero (n := k) (by omega)
    refine hparses.stores ?_
    rw [hrun, ipv6Loop_rightColon (next_eq hstate rfl), hn, if_neg (by decide)]
    refine ipv6Loop_overflow (next_eq rfl (hexGroup_input hc)) hc ?_
    show 16 ≤ p.addr.length
    rw [haddr, List.length_append, groupsBytes_length, groupsBytes_length]
    omega

/-- **The addresses that come back** are those that are written right. -/
theorem ipv6ComesBack_iff {a : List UInt8} (ha : a.length = 16) :
    Ipv6ComesBack a ↔ WrittenRight a := by
  unfold Ipv6ComesBack
  constructor
  · intro hback
    by_contra hnot
    obtain ⟨-, hparse⟩ := writeIpv6_wrong ha hnot []
    rw [List.append_nil] at hparse
    rw [hparse] at hback
    cases hback
  · intro hright
    obtain ⟨t, ht, hvalue, htext⟩ := writeIpv6_right ha hright
    have hparse := Ipv6Text.parseIpv6_text t []
    rw [if_pos ht, hvalue] at hparse
    rw [htext]
    exact hparse

/-- **IPv6 literals**: an address comes back exactly if it is written right, and a text is parsed as
it should be exactly if it is not crowded. -/
theorem ipv6Literals_iff (a : {a : List UInt8 // a.length = 16}) (s : CString) :
    (Ipv6ComesBack a.val ↔ WrittenRight a.val) ∧ (ParsesIpv6 s ↔ ¬Crowded s) :=
  ⟨ipv6ComesBack_iff a.property, fun h hs => not_parsesIpv6 hs h, parseIpv6_outcome⟩

/-- The address `1::`, written `[1]`, and the text `[1:2:3:4:5:6:7::8:9]`. -/
theorem not_ipv6Literals : ¬Ipv6ComesBack (0 :: 1 :: List.replicate 14 0) ∧
    ¬ParsesIpv6 (chars ['[', '1', ':', '2', ':', '3', ':', '4', ':', '5', ':', '6', ':', '7', ':',
      ':', '8', ':', '9', ']']) := by
  constructor
  · intro hback
    exact absurd ((ipv6ComesBack_iff rfl).mp hback) (by decide)
  · intro hparses
    exact hparses.stores rfl

end
end SeClient
