import SeClient.Responses
import SeClient.Rfc3986

/-!
# Addresses as hosts

What `number`, `parse_ipv4` and `parse_ipv6` make of the ports and addresses of a URI.
-/

namespace SeClient

/-! ## Numbers -/

section Numbers
variable {ds tail : CString} {n : ℕ}

/-- What follows a number. -/
def NotDigit (tail : CString) : Prop := ∀ c ∈ tail.head?, ¬digit c = true

theorem digits_append (hd : ∀ c ∈ ds, digit c = true) (ht : NotDigit tail) :
    (ds ++ tail).takeWhile digit = ds ∧ (ds ++ tail).dropWhile digit = tail := by
  rw [List.takeWhile_append_of_pos hd, List.dropWhile_append_of_pos hd]
  cases tail with
  | nil => exact ⟨List.append_nil ds, rfl⟩
  | cons c tail =>
    have hc := ht c rfl
    rw [List.takeWhile_cons_of_neg hc, List.dropWhile_cons_of_neg hc, List.append_nil]
    exact ⟨rfl, rfl⟩

/-- The `int` that digits are counted to. -/
def intValue (ds : CString) : ℤ := ds.foldl (fun y c => toInt32 (y * 10 + (c.toNat - 48))) 0

theorem number_eq (hd : ∀ c ∈ ds, digit c = true) (hne : ds ≠ []) (ht : NotDigit tail) :
    number (ds ++ tail) = some (intValue ds, tail) := by
  obtain ⟨htake, hdrop⟩ := digits_append hd ht
  obtain ⟨c, s, rfl⟩ := List.exists_cons_of_ne_nil hne
  rw [number, htake, hdrop]
  rfl

theorem number_notDigit (ht : NotDigit tail) : number tail = none := by
  have htake : tail.takeWhile digit = [] := by
    cases tail with
    | nil => rfl
    | cons c tail => exact List.takeWhile_cons_of_neg (ht c rfl)
  rw [number, htake]

/-- Digits are read right if an `int` holds their number. -/
theorem intValue_iff (hd : ∀ c ∈ ds, digit c = true) :
    intValue ds = (decimal ds : ℤ) ↔ decimal ds < 2 ^ 31 := by
  constructor
  · intro h
    have hlt : intValue ds < 2 ^ 31 := by
      unfold intValue
      rcases List.eq_nil_or_concat ds with rfl | ⟨s, c, rfl⟩
      · decide
      · rw [List.concat_eq_append, List.foldl_append, List.foldl_cons, List.foldl_nil]
        exact Int.bmod_lt (by decide)
    omega
  · exact HttpConnection.number_decimal hd 0

theorem decimalText_digits (n : ℕ) :
    (∀ c ∈ decimalText n, digit c = true) ∧ decimalText n ≠ [] := by
  have hdigit : ∀ d < 10, digit (UInt8.ofNat (48 + d)) = true := by decide +kernel
  have hneg : ¬(n : ℤ) < 0 := by omega
  unfold decimalText
  dsimp only
  rw [if_neg hneg, Int.natAbs_natCast]
  split
  · decide
  · rename_i hn
    refine ⟨fun c hc => ?_, ?_⟩
    · obtain ⟨d, hd, rfl⟩ := List.mem_map.mp hc
      exact hdigit d (Nat.digits_lt_base (by decide) (List.mem_reverse.mp hd))
    · intro h
      have hnil := List.map_eq_nil_iff.mp h
      rw [List.reverse_eq_nil_iff] at hnil
      exact hn (Nat.digits_eq_nil_iff_eq_zero.mp hnil)

theorem decimal_decimalText (n : ℕ) : decimal (decimalText n) = n := by
  have hneg : ¬(n : ℤ) < 0 := by omega
  unfold decimalText
  dsimp only
  rw [if_neg hneg, Int.natAbs_natCast]
  split
  · rename_i hn
    rw [hn]
    rfl
  · have hvalue := Nat.ofDigits_digits 10 n
    rw [Nat.ofDigits_eq_foldr] at hvalue
    rw [decimal, List.foldl_map, List.foldl_reverse]
    conv_rhs => rw [← hvalue]
    refine List.foldr_ext _ _ 0 fun d hd y => ?_
    have hlt := Nat.digits_lt_base (by decide) hd
    rw [UInt8.toNat_ofNat_of_lt' (show 48 + d < 256 by omega), Nat.cast_id]
    omega

/-- What is printed is read. -/
theorem number_decimalText (hn : n < 2 ^ 31) (ht : NotDigit tail) :
    number (decimalText n ++ tail) = some ((n : ℤ), tail) := by
  obtain ⟨hd, hne⟩ := decimalText_digits n
  have hvalue := (intValue_iff hd).mpr (by rw [decimal_decimalText]; exact hn)
  rw [number_eq hd hne ht, hvalue, decimal_decimalText]

end Numbers

/-! ## IPv4 addresses -/

section Ipv4
variable {tail s : CString}

theorem toNat_ofInt_natCast {n : ℕ} (h : n < 2 ^ 32) : (UInt32.ofInt (n : ℤ)).toNat = n := by
  have hvalue : ((n : ℤ) % 2 ^ 32).toNat = n := by omega
  rw [UInt32.ofInt, hvalue, UInt32.toNat_ofNat_of_lt' h]

theorem shift_octet {x : ℕ} {y : UInt8} (hx : x < 2 ^ 24) :
    UInt32.ofInt (x : ℤ) <<< 8 ||| UInt32.ofInt (y.toNat : ℤ) =
      UInt32.ofNat (x * 256 + y.toNat) := by
  have hy := y.toNat_lt
  have hshift : (8 : UInt32).toNat % 32 = 8 := rfl
  have hlow : x <<< 8 % 2 ^ 32 = x <<< 8 := by
    rw [Nat.shiftLeft_eq]
    omega
  have hsum : x * 256 + y.toNat < 2 ^ 32 := by omega
  apply UInt32.toNat_inj.mp
  rw [UInt32.toNat_or, UInt32.toNat_shiftLeft, toNat_ofInt_natCast (Nat.lt_trans hx (by decide)),
    toNat_ofInt_natCast (Nat.lt_trans hy (by decide)), UInt32.toNat_ofNat_of_lt' hsum, hshift, hlow,
    ← Nat.shiftLeft_add_eq_or_of_lt hy, Nat.shiftLeft_eq]

/-- A text ends at what can follow a host. -/
def HostEnd (tail : CString) : Prop := ∀ c ∈ tail.head?, ¬digit c = true ∧ c ≠ 46

theorem HostEnd.notDigit (h : HostEnd tail) : NotDigit tail := fun c hc => (h c hc).1

theorem ipv4Loop_octet {left x : ℕ} {y : UInt8} (hx : x < 2 ^ 24) :
    ipv4Loop (left + 1) x (decimalText y.toNat ++ 46 :: s) =
      ipv4Loop left (x * 256 + y.toNat : ℕ) s := by
  have hy := y.toNat_lt
  have hdot : NotDigit (46 :: s) := by
    rintro c hc
    rw [← Option.some.inj hc]
    decide
  rw [ipv4Loop, number_decimalText (Nat.lt_trans hy (by decide)) hdot]
  dsimp only
  rw [if_pos (by omega), shift_octet hx, UInt32.toNat_ofNat_of_lt' (show _ < 2 ^ 32 by omega)]
  rfl

theorem ipv4Loop_last {x : ℕ} {y : UInt8} (hx : x < 2 ^ 24) (ht : NotDigit tail) :
    ipv4Loop 0 x (decimalText y.toNat ++ tail) =
      some (UInt32.ofNat (x * 256 + y.toNat), tail) := by
  have hy := y.toNat_lt
  rw [ipv4Loop, number_decimalText (Nat.lt_trans hy (by decide)) ht]
  dsimp only
  rw [if_pos (by omega), shift_octet hx]

theorem parseIpv4_octets (o : Octets) (ht : HostEnd tail) :
    parseIpv4 (o.text ++ tail) = some (o.value, tail) := by
  have ha := o.a.toNat_lt
  have hb := o.b.toNat_lt
  have hc := o.c.toNat_lt
  unfold Octets.text Octets.value
  simp only [List.append_assoc, List.cons_append]
  have hzero : (0 : ℤ) = ((0 : ℕ) : ℤ) := rfl
  rw [parseIpv4, hzero, ipv4Loop_octet (by decide), ipv4Loop_octet (by omega),
    ipv4Loop_octet (by omega), ipv4Loop_last (by omega) ht.notDigit, Nat.zero_mul, Nat.zero_add]

theorem number_append (ht : NotDigit tail) :
    number (s ++ tail) = (number s).map fun r => (r.1, r.2 ++ tail) := by
  have hnone : tail.takeWhile digit = [] ∧ tail.dropWhile digit = tail := by
    cases tail with
    | nil => exact ⟨rfl, rfl⟩
    | cons c tail =>
      exact ⟨List.takeWhile_cons_of_neg (ht c rfl), List.dropWhile_cons_of_neg (ht c rfl)⟩
  have htake : (s ++ tail).takeWhile digit = s.takeWhile digit := by
    rw [List.takeWhile_append, hnone.1, List.append_nil]
    split
    · rename_i hall
      exact ((List.takeWhile_sublist digit).eq_of_length hall).symm
    · rfl
  have hdrop : (s ++ tail).dropWhile digit = s.dropWhile digit ++ tail := by
    rw [List.dropWhile_append, hnone.2]
    split
    · rename_i hempty
      rw [List.isEmpty_iff.mp hempty, List.nil_append]
    · rfl
  rw [number, number, htake, hdrop]
  cases s.takeWhile digit with
  | nil => rfl
  | cons c ds => rfl

theorem ipv4Loop_succ (left : ℕ) (x : ℤ) (s : CString) :
    ipv4Loop (left + 1) x s = (number s).bind fun r =>
      if r.1 ≤ 255 then
        if r.2.head? = some 46 then
          ipv4Loop left ((UInt32.ofInt x <<< 8 ||| UInt32.ofInt r.1).toNat : ℤ) r.2.tail
        else none
      else none := by
  rw [ipv4Loop]
  cases number s with
  | none => rfl
  | some r =>
    obtain ⟨y, rest⟩ := r
    dsimp only [Option.bind_some]
    split_ifs with hy hdot
    · cases rest with
      | nil => exact absurd hdot.symm (Option.some_ne_none _)
      | cons c rest =>
        obtain rfl := Option.some.inj hdot
        rfl
    · cases rest with
      | nil => rfl
      | cons c rest =>
        have hc : c ≠ 46 := fun h => hdot (congrArg some h)
        split
        · rename_i heq
          exact absurd heq (Nat.succ_ne_zero left)
        · rename_i heq
          exact absurd (List.cons.inj heq).1 hc
        · rfl
    · rfl

theorem ipv4Loop_append (left : ℕ) (x : ℤ) (s : CString) (ht : HostEnd tail) :
    ipv4Loop left x (s ++ tail) = (ipv4Loop left x s).map fun r => (r.1, r.2 ++ tail) := by
  induction left generalizing x s with
  | zero =>
    rw [ipv4Loop, ipv4Loop, number_append ht.notDigit]
    cases number s with
    | none => rfl
    | some r =>
      dsimp only [Option.map_some]
      split_ifs <;> rfl
  | succ left ih =>
    rw [ipv4Loop_succ, ipv4Loop_succ, number_append ht.notDigit]
    cases number s with
    | none => rfl
    | some r =>
      obtain ⟨y, rest⟩ := r
      dsimp only [Option.map_some, Option.bind_some]
      split_ifs with hy hdot hdot' hdot'
      · cases rest with
        | nil => exact absurd rfl (ht 46 hdot).2
        | cons c rest => exact ih _ rest
      · cases rest with
        | nil => exact absurd rfl (ht 46 hdot).2
        | cons c rest => exact absurd hdot hdot'
      · cases rest with
        | nil => exact absurd hdot'.symm (Option.some_ne_none _)
        | cons c rest => exact absurd hdot' hdot
      · rfl
      · rfl

/-- What follows a host does not make an address of it. -/
theorem parseIpv4_append (s : CString) (ht : HostEnd tail) :
    parseIpv4 (s ++ tail) = (parseIpv4 s).map fun r => (r.1, r.2 ++ tail) :=
  ipv4Loop_append 3 0 s ht

end Ipv4

/-! ## IPv6 addresses -/

/-- What follows a group. -/
def NotHex (tail : CString) : Prop := ∀ c ∈ tail.head?, hex4 c = none

/-- A text that `hex16` reads. -/
structure HexGroup (s : CString) (x : ℕ) : Prop where
  read : ∀ tail, NotHex tail → hex16 (s ++ tail) = some (x, tail)
  head : ∃ c r, s = c :: r ∧ ipv6Input c = 2

section Groups
variable {s tail : CString} {c : UInt8} {n x v : ℕ}

theorem hex4_iff : ∀ c : UInt8, ∀ v, hex4 c = some v ↔ HexDig c v := by
  have hbyte : ∀ c : UInt8, ∀ v < 16, hex4 c = some v ↔ HexDig c v := by
    apply forall_byte
    decide +kernel
  intro c v
  constructor
  · intro h
    exact (hbyte c v (hex4_lt h)).mp h
  · intro h
    refine (hbyte c v ?_).mpr h
    rcases h with h | h
    · omega
    · omega

theorem hex16Loop_digits {left : ℕ} (hs : ∀ c ∈ s, (hex4 c).isSome) (hlength : s.length ≤ left)
    (hn : 1 ≤ n + s.length) (ht : NotHex tail) :
    hex16Loop left n x (s ++ tail) =
      some (s.foldl (fun x c => x <<< 4 + (hex4 c).getD 0) x, tail) := by
  induction s generalizing left n x with
  | nil =>
    cases left with
    | zero => rfl
    | succ left =>
      have hnone : tail.head?.bind hex4 = none := by
        cases htail : tail.head? with
        | none => rfl
        | some c => exact ht c htail
      rw [List.nil_append, hex16Loop, hnone]
      exact if_pos hn
  | cons c s ih =>
    obtain ⟨left, rfl⟩ := Nat.exists_eq_succ_of_ne_zero (n := left) (by
      rw [List.length_cons] at hlength
      omega)
    obtain ⟨hc, hs⟩ := List.forall_mem_cons.mp hs
    obtain ⟨y, hy⟩ := Option.isSome_iff_exists.mp hc
    rw [List.length_cons] at hlength
    rw [List.cons_append, hex16Loop, List.head?_cons, Option.bind_some, hy, List.tail_cons]
    dsimp only
    rw [ih hs (by omega) (by omega), List.foldl_cons, hy, Option.getD_some]

theorem HexDigits.spec (h : HexDigits s n) : (∀ c ∈ s, (hex4 c).isSome) ∧
    s.foldl (fun x c => x <<< 4 + (hex4 c).getD 0) 0 = n := by
  induction h with
  | nil => exact ⟨fun c hc => absurd hc List.not_mem_nil, rfl⟩
  | @snoc s c n v h hc ih =>
    have hv := (hex4_iff c v).mpr hc
    refine ⟨fun d hd => ?_, ?_⟩
    · rcases List.mem_append.mp hd with hd | hd
      · exact ih.1 d hd
      · rw [List.mem_singleton.mp hd, hv]
        rfl
    · rw [List.foldl_append, ih.2, List.foldl_cons, List.foldl_nil, hv, Option.getD_some,
        Nat.shiftLeft_eq]
      omega

theorem hexGroup_input : ∀ {c : UInt8}, (hex4 c).isSome → ipv6Input c = 2 := by
  intro c
  revert c
  apply forall_byte
  decide +kernel

/-- Up to four hexadecimal digits are a group. -/
theorem hexGroup_digits (hs : ∀ c ∈ s, (hex4 c).isSome) (hne : s ≠ []) (hlength : s.length ≤ 4) :
    HexGroup s (s.foldl (fun x c => x <<< 4 + (hex4 c).getD 0) 0) := by
  have hpos := List.length_pos_iff.mpr hne
  refine ⟨fun tail ht => hex16Loop_digits hs hlength (by omega) ht, ?_⟩
  obtain ⟨c, r, rfl⟩ := List.exists_cons_of_ne_nil hne
  exact ⟨c, r, rfl, hexGroup_input (hs c List.mem_cons_self)⟩

theorem H16.hexGroup (g : H16) : HexGroup g.text g.value := by
  obtain ⟨hs, hvalue⟩ := g.digits.spec
  have h := hexGroup_digits hs g.nonempty g.short
  rwa [hvalue] at h

/-- The first number of an IPv4 address looks like a group. -/
theorem octet_hexGroup (y : UInt8) : ∃ x, HexGroup (decimalText y.toNat) x := by
  have hbytes : ∀ y : UInt8, (∀ c ∈ decimalText y.toNat, (hex4 c).isSome) ∧
      (decimalText y.toNat).length ≤ 4 := by
    apply forall_byte
    decide +kernel
  exact ⟨_, hexGroup_digits (hbytes y).1 (decimalText_digits y.toNat).2 (hbytes y).2⟩

end Groups

section Ipv6
variable {p : Ipv6Parser} {s tail : CString} {ss : List CString} {xs : List ℕ} {x fuel : ℕ}

/-- What is stored of a group. -/
theorem group_eq (hg : HexGroup s x) (haddr : p.addr.length < 16) (ht : NotHex tail) :
    p.group (s ++ tail) =
      some (some ({ p with n := p.n + 1, addr := p.addr ++ groupBytes x }, tail)) := by
  rw [Ipv6Parser.group, hg.read tail ht]
  exact if_pos haddr

/-- A group behind the bracket or a colon. -/
theorem ipv6Loop_leftGroup (hg : HexGroup s x) (hs : p.state = 0 ∨ p.state = 6)
    (haddr : p.addr.length < 16) (ht : NotHex tail) :
    ipv6Loop (fuel + 1) p (s ++ tail) =
      ipv6Loop fuel { p with state := 5, n := p.n + 1, addr := p.addr ++ groupBytes x } tail := by
  have hgroup := group_eq (p := { p with state := 5 }) hg haddr ht
  obtain ⟨c, r, rfl, hinput⟩ := hg.head
  have hstate : ipv6State.getD (p.state * 3 + ipv6Input c) 7 = 5 := by
    rw [hinput]
    rcases hs with hs | hs <;> rw [hs] <;> rfl
  rw [List.cons_append] at hgroup ⊢
  rw [ipv6Loop, hstate, hgroup]
  rfl

/-- A group behind the gap. -/
theorem ipv6Loop_rightGroup (hg : HexGroup s x) (hs : p.state = 2 ∨ p.state = 4)
    (haddr : p.addr.length < 16) (ht : NotHex tail) :
    ipv6Loop (fuel + 1) p (s ++ tail) =
      ipv6Loop fuel { p with
        state := 3, n := p.n + 1, m := p.m + 1, addr := p.addr ++ groupBytes x } tail := by
  have hgroup := group_eq (p := { p with state := 3, m := p.m + 1 }) hg haddr ht
  obtain ⟨c, r, rfl, hinput⟩ := hg.head
  have hstate : ipv6State.getD (p.state * 3 + ipv6Input c) 7 = 3 := by
    rw [hinput]
    rcases hs with hs | hs <;> rw [hs] <;> rfl
  rw [List.cons_append] at hgroup ⊢
  rw [ipv6Loop, hstate, hgroup]
  rfl

theorem groupBytes_length (x : ℕ) : (groupBytes x).length = 2 := rfl

/-- The character behind a group is no digit of it. -/
theorem notHex_cons {c : UInt8} (hc : hex4 c = none) (tail : CString) : NotHex (c :: tail) := by
  intro d hd
  rw [← Option.some.inj hd, hc]

theorem colons_cons (s t : CString) (l : List CString) :
    colons (s :: t :: l) = s ++ 58 :: colons (t :: l) := rfl

/-- The groups in front of the gap, or of an address that has none. -/
theorem ipv6Loop_left (h : List.Forall₂ HexGroup ss xs) (hne : ss ≠ [])
    (hs : p.state = 0 ∨ p.state = 6) (haddr : p.addr.length = 2 * p.n)
    (hn : p.n + ss.length ≤ 8) (ht : NotHex tail) (hfuel : (colons ss ++ tail).length ≤ fuel) :
    ∃ k, tail.length ≤ k ∧ ipv6Loop fuel p (colons ss ++ tail) =
      ipv6Loop k { p with
        state := 5, n := p.n + ss.length, addr := p.addr ++ xs.flatMap groupBytes } tail := by
  induction h generalizing p fuel with
  | nil => exact absurd rfl hne
  | @cons s x ss xs hg hgs ih =>
    have hroom : p.addr.length < 16 := by
      rw [List.length_cons] at hn
      omega
    obtain ⟨c, r, hcr, -⟩ := hg.head
    cases ss with
    | nil =>
      cases hgs
      have hlength : (s ++ tail).length ≤ fuel := hfuel
      rw [hcr, List.cons_append, List.length_cons, List.length_append] at hlength
      obtain ⟨fuel, rfl⟩ := Nat.exists_eq_succ_of_ne_zero (n := fuel) (by omega)
      refine ⟨fuel, by omega, ?_⟩
      rw [List.flatMap_cons, List.flatMap_nil, List.append_nil]
      exact ipv6Loop_leftGroup hg hs hroom ht
    | cons t ss =>
      rw [colons_cons, List.append_assoc, List.cons_append] at hfuel ⊢
      rw [hcr, List.cons_append, List.length_cons, List.length_append, List.length_cons] at hfuel
      obtain ⟨fuel, rfl⟩ := Nat.exists_eq_succ_of_ne_zero (n := fuel) (by omega)
      obtain ⟨fuel, rfl⟩ := Nat.exists_eq_succ_of_ne_zero (n := fuel) (by omega)
      rw [ipv6Loop_leftGroup hg hs hroom (notHex_cons (by decide) _)]
      -- a colon, and more groups
      rw [List.length_cons, List.length_cons] at hn
      have hcolon : ¬p.n + 1 = 8 := by omega
      have hstep : ipv6Loop (fuel + 1)
          { p with state := 5, n := p.n + 1, addr := p.addr ++ groupBytes x }
            (58 :: (colons (t :: ss) ++ tail)) =
          ipv6Loop fuel { p with state := 6, n := p.n + 1, addr := p.addr ++ groupBytes x }
            (colons (t :: ss) ++ tail) := if_neg hcolon
      obtain ⟨k, hk, hrun⟩ := ih
        (p := { p with state := 6, n := p.n + 1, addr := p.addr ++ groupBytes x })
        (List.cons_ne_nil _ _) (Or.inr rfl)
        (by rw [List.length_append, groupBytes_length, haddr, Nat.mul_succ])
        (by rw [List.length_cons]; dsimp only; omega) (show _ ≤ fuel by omega)
      refine ⟨k, hk, ?_⟩
      rw [hstep, hrun]
      dsimp only
      rw [List.append_assoc, ← List.flatMap_cons, Nat.add_right_comm p.n 1, Nat.add_assoc p.n]
      rfl

/-- The groups behind the gap. -/
theorem ipv6Loop_right (h : List.Forall₂ HexGroup ss xs) (hne : ss ≠ [])
    (hs : p.state = 2 ∨ p.state = 4) (haddr : p.addr.length = 2 * p.n)
    (hn : p.n + ss.length ≤ 8) (hcolons : ss.length ≤ 1 ∨ p.n + ss.length ≤ 6 ∨ 6 ≤ p.n)
    (ht : NotHex tail) (hfuel : (colons ss ++ tail).length ≤ fuel) :
    ∃ k, tail.length ≤ k ∧ ipv6Loop fuel p (colons ss ++ tail) =
      ipv6Loop k { p with
        state := 3, n := p.n + ss.length, m := p.m + ss.length
        addr := p.addr ++ xs.flatMap groupBytes } tail := by
  induction h generalizing p fuel with
  | nil => exact absurd rfl hne
  | @cons s x ss xs hg hgs ih =>
    have hroom : p.addr.length < 16 := by
      rw [List.length_cons] at hn
      omega
    obtain ⟨c, r, hcr, -⟩ := hg.head
    cases ss with
    | nil =>
      cases hgs
      have hlength : (s ++ tail).length ≤ fuel := hfuel
      rw [hcr, List.cons_append, List.length_cons, List.length_append] at hlength
      obtain ⟨fuel, rfl⟩ := Nat.exists_eq_succ_of_ne_zero (n := fuel) (by omega)
      refine ⟨fuel, by omega, ?_⟩
      rw [List.flatMap_cons, List.flatMap_nil, List.append_nil]
      exact ipv6Loop_rightGroup hg hs hroom ht
    | cons t ss =>
      rw [colons_cons, List.append_assoc, List.cons_append] at hfuel ⊢
      rw [hcr, List.cons_append, List.length_cons, List.length_append, List.length_cons] at hfuel
      obtain ⟨fuel, rfl⟩ := Nat.exists_eq_succ_of_ne_zero (n := fuel) (by omega)
      obtain ⟨fuel, rfl⟩ := Nat.exists_eq_succ_of_ne_zero (n := fuel) (by omega)
      rw [ipv6Loop_rightGroup hg hs hroom (notHex_cons (by decide) _)]
      -- a colon, and more groups
      rw [List.length_cons, List.length_cons] at hn hcolons
      have hcolon : ¬p.n + 1 = 6 := by omega
      have hstep : ipv6Loop (fuel + 1)
          { p with state := 3, n := p.n + 1, m := p.m + 1, addr := p.addr ++ groupBytes x }
            (58 :: (colons (t :: ss) ++ tail)) =
          ipv6Loop fuel
            { p with state := 4, n := p.n + 1, m := p.m + 1, addr := p.addr ++ groupBytes x }
              (colons (t :: ss) ++ tail) := if_neg hcolon
      obtain ⟨k, hk, hrun⟩ := ih
        (p := { p with state := 4, n := p.n + 1, m := p.m + 1, addr := p.addr ++ groupBytes x })
        (List.cons_ne_nil _ _) (Or.inr rfl)
        (by rw [List.length_append, groupBytes_length, haddr, Nat.mul_succ])
        (by rw [List.length_cons]; dsimp only; omega)
        (by rw [List.length_cons]; dsimp only; omega) (show _ ≤ fuel by omega)
      refine ⟨k, hk, ?_⟩
      rw [hstep, hrun]
      dsimp only
      rw [List.append_assoc, ← List.flatMap_cons, Nat.add_right_comm p.n 1, Nat.add_assoc p.n,
        Nat.add_right_comm p.m 1, Nat.add_assoc p.m]
      rfl

/-- **Seven groups, two of them behind the gap,** are refused. -/
theorem ipv6Loop_many (h : List.Forall₂ HexGroup ss xs) (hs : p.state = 2 ∨ p.state = 4)
    (haddr : p.addr.length = 2 * p.n) (hn : p.n ≤ 5) (hcolons : 7 ≤ p.n + ss.length) :
    ipv6Loop fuel p (colons ss ++ tail) = some none := by
  induction h generalizing p fuel with
  | nil =>
    rw [List.length_nil] at hcolons
    omega
  | @cons s x ss xs hg hgs ih =>
    cases ss with
    | nil =>
      rw [List.length_cons, List.length_nil] at hcolons
      omega
    | cons t ss =>
      rw [colons_cons, List.append_assoc, List.cons_append]
      cases fuel with
      | zero => rfl
      | succ fuel =>
        rw [ipv6Loop_rightGroup hg hs (by omega) (notHex_cons (by decide) _)]
        cases fuel with
        | zero => rfl
        | succ fuel =>
          by_cases hsix : p.n + 1 = 6
          · exact if_pos hsix
          · have hstep : ipv6Loop (fuel + 1)
                { p with state := 3, n := p.n + 1, m := p.m + 1, addr := p.addr ++ groupBytes x }
                  (58 :: (colons (t :: ss) ++ tail)) =
                ipv6Loop fuel
                  { p with state := 4, n := p.n + 1, m := p.m + 1, addr := p.addr ++ groupBytes x }
                    (colons (t :: ss) ++ tail) := if_neg hsix
            rw [List.length_cons] at hcolons
            rw [hstep]
            refine ih (Or.inr rfl) ?_ ?_ ?_
            · rw [List.length_append, groupBytes_length, haddr, Nat.mul_succ]
            · dsimp only
              omega
            · dsimp only
              omega

theorem groups_length (h : List.Forall₂ HexGroup ss xs) :
    (xs.flatMap groupBytes).length = 2 * ss.length := by
  induction h with
  | nil => rfl
  | cons hg hgs ih =>
    rw [List.flatMap_cons, List.length_append, groupBytes_length, ih, List.length_cons]
    omega

/-- Groups between the bracket and a character that is no colon. -/
theorem parseIpv6_front (h : List.Forall₂ HexGroup ss xs) (hne : ss ≠ []) (hn : ss.length ≤ 8)
    (ht : NotHex tail) : ∃ k, tail.length ≤ k ∧ parseIpv6 (91 :: (colons ss ++ tail)) =
      ipv6Loop k { state := 5, n := ss.length, addr := xs.flatMap groupBytes } tail := by
  obtain ⟨k, hk, hrun⟩ := ipv6Loop_left (p := {}) h hne (Or.inl rfl) rfl (by simpa using hn) ht
    (Nat.le_refl _)
  refine ⟨k, hk, hrun.trans ?_⟩
  dsimp only
  rw [Nat.zero_add, List.nil_append]

/-- An address without a gap has eight groups. -/
theorem parseIpv6_full (h : List.Forall₂ HexGroup ss xs) (hne : ss ≠ []) (hn : ss.length ≤ 8) :
    parseIpv6 (91 :: (colons ss ++ 93 :: tail)) =
      some (if ss.length = 8 then some (xs.flatMap groupBytes, tail) else none) := by
  obtain ⟨k, hk, hrun⟩ := parseIpv6_front h hne hn (notHex_cons (c := 93) (by decide) tail)
  rw [List.length_cons] at hk
  obtain ⟨k, rfl⟩ := Nat.exists_eq_succ_of_ne_zero (n := k) (by omega)
  rw [hrun]
  rfl

/-- An address does not go on with a point. -/
theorem parseIpv6_point (h : List.Forall₂ HexGroup ss xs) (hne : ss ≠ []) (hn : ss.length ≤ 8) :
    parseIpv6 (91 :: (colons ss ++ 46 :: tail)) = some none := by
  obtain ⟨k, hk, hrun⟩ := parseIpv6_front h hne hn (notHex_cons (c := 46) (by decide) tail)
  rw [List.length_cons] at hk
  obtain ⟨k, rfl⟩ := Nat.exists_eq_succ_of_ne_zero (n := k) (by omega)
  rw [hrun]
  rfl

/-- Groups in front of a gap. -/
theorem parseIpv6_gap (tail : CString) (h : List.Forall₂ HexGroup ss xs) (hn : ss.length ≤ 7) :
    ∃ k, tail.length ≤ k ∧ parseIpv6 (91 :: (colons ss ++ 58 :: 58 :: tail)) =
      ipv6Loop k { state := 2, n := ss.length, addr := xs.flatMap groupBytes
                   gap := (xs.flatMap groupBytes).length } tail := by
  by_cases hne : ss = []
  · subst hne
    cases h
    exact ⟨tail.length, Nat.le_refl _, rfl⟩
  · obtain ⟨k, hk, hrun⟩ := parseIpv6_front h hne (by omega)
      (notHex_cons (c := 58) (by decide) (58 :: tail))
    rw [List.length_cons, List.length_cons] at hk
    obtain ⟨k, rfl⟩ := Nat.exists_eq_succ_of_ne_zero (n := k) (by omega)
    obtain ⟨k, rfl⟩ := Nat.exists_eq_succ_of_ne_zero (n := k) (by omega)
    have height : ¬ss.length = 8 := by omega
    refine ⟨k, by omega, hrun.trans ?_⟩
    exact if_neg height

/-- The gap is filled. -/
theorem ipv6Loop_accept {l r : List UInt8} (hs : p.state = 2 ∨ p.state = 3)
    (haddr : p.addr = l ++ r) (hgap : p.gap = l.length) :
    ipv6Loop (fuel + 1) p (93 :: tail) =
      some (some (l ++ List.replicate (16 - 2 * p.n) 0 ++ r, tail)) := by
  have hstate : ipv6State.getD (p.state * 3 + ipv6Input 93) 7 = 8 := by
    rcases hs with hs | hs <;> rw [hs] <;> rfl
  rw [ipv6Loop, hstate, haddr, hgap, List.take_left, List.drop_left]
  rfl

/-- **An address with a gap** has seven groups at most, and all seven are read only if the last
stands alone. -/
theorem parseIpv6_gapped {rs : List CString} {ys : List ℕ} (h : List.Forall₂ HexGroup ss xs)
    (hr : List.Forall₂ HexGroup rs ys) (hn : ss.length + rs.length ≤ 7) :
    parseIpv6 (91 :: (colons ss ++ 58 :: 58 :: (colons rs ++ 93 :: tail))) =
      some (if ss.length + rs.length ≤ 6 ∨ rs.length ≤ 1 then
        some (xs.flatMap groupBytes ++
          List.replicate (16 - 2 * (ss.length + rs.length)) 0 ++ ys.flatMap groupBytes, tail)
      else none) := by
  obtain ⟨k, hk, hrun⟩ := parseIpv6_gap (colons rs ++ 93 :: tail) h (by omega)
  rw [hrun]
  by_cases hne : rs = []
  · subst hne
    cases hr
    obtain ⟨k, rfl⟩ := Nat.exists_eq_succ_of_ne_zero (n := k) (by
      rw [show colons [] = [] from rfl, List.nil_append, List.length_cons] at hk
      omega)
    have hshort : ss.length + ([] : List CString).length ≤ 6 ∨ ([] : List CString).length ≤ 1 :=
      Or.inr (Nat.zero_le 1)
    rw [if_pos hshort]
    exact ipv6Loop_accept (Or.inl rfl) (List.append_nil _).symm rfl
  · by_cases hcolons : ss.length + rs.length ≤ 6 ∨ rs.length ≤ 1
    · obtain ⟨j, hj, hright⟩ := ipv6Loop_right
        (p := { state := 2, n := ss.length, addr := xs.flatMap groupBytes
                gap := (xs.flatMap groupBytes).length }) hr hne (Or.inl rfl) (groups_length h)
        (by dsimp only; omega) (by dsimp only; omega) (notHex_cons (c := 93) (by decide) tail) hk
      rw [List.length_cons] at hj
      obtain ⟨j, rfl⟩ := Nat.exists_eq_succ_of_ne_zero (n := j) (by omega)
      rw [hright, if_pos hcolons]
      exact ipv6Loop_accept (Or.inr rfl) rfl rfl
    · rw [if_neg hcolons]
      exact ipv6Loop_many hr (Or.inl rfl) (groups_length h) (by dsimp only; omega)
        (by dsimp only; omega)

/-- A gap does not help an address that goes on with a point. -/
theorem parseIpv6_gapPoint {rs : List CString} {ys : List ℕ} (h : List.Forall₂ HexGroup ss xs)
    (hr : List.Forall₂ HexGroup rs ys) (hne : rs ≠ []) (hn : ss.length + rs.length ≤ 6) :
    parseIpv6 (91 :: (colons ss ++ 58 :: 58 :: (colons rs ++ 46 :: tail))) = some none := by
  obtain ⟨k, hk, hrun⟩ := parseIpv6_gap (colons rs ++ 46 :: tail) h (by omega)
  obtain ⟨j, hj, hright⟩ := ipv6Loop_right
    (p := { state := 2, n := ss.length, addr := xs.flatMap groupBytes
            gap := (xs.flatMap groupBytes).length }) hr hne (Or.inl rfl) (groups_length h)
    (by dsimp only; omega) (Or.inr (Or.inl hn)) (notHex_cons (c := 46) (by decide) tail) hk
  rw [List.length_cons] at hj
  obtain ⟨j, rfl⟩ := Nat.exists_eq_succ_of_ne_zero (n := j) (by omega)
  rw [hrun, hright]
  rfl

end Ipv6

/-! ### The texts of addresses -/

namespace Ipv6Text
variable {a : Ipv6Text} {tail : CString}

/-- What `parse_ipv6` takes: no IPv4 address, and not seven groups of which two or more stand
behind the gap. -/
def Handled (a : Ipv6Text) : Prop :=
  a.last = none ∧ ∀ right ∈ a.right, a.left.length + right.length ≤ 6 ∨ right.length ≤ 1

instance (a : Ipv6Text) : Decidable a.Handled := inferInstanceAs (Decidable (_ ∧ ∀ _ ∈ _, _))

theorem hexGroups (l : List H16) : List.Forall₂ HexGroup (l.map H16.text) (l.map H16.value) := by
  induction l with
  | nil => exact List.Forall₂.nil
  | cons g l ih => exact List.Forall₂.cons g.hexGroup ih

theorem colons_last (l : List CString) (s t : CString) :
    colons (l ++ [s ++ t]) = colons (l ++ [s]) ++ t := by
  induction l with
  | nil => rfl
  | cons r l ih =>
    cases l with
    | nil =>
      show r ++ 58 :: (s ++ t) = r ++ 58 :: s ++ t
      rw [List.append_assoc, List.cons_append]
    | cons q l =>
      show r ++ 58 :: colons (q :: l ++ [s ++ t]) = r ++ 58 :: colons (q :: l ++ [s]) ++ t
      rw [ih, List.append_assoc]
      rfl

/-- The groups in front of an IPv4 address, with its first number. -/
theorem octetGroups (l : List H16) (o : Octets) : ∃ ss xs s, List.Forall₂ HexGroup ss xs ∧
    ss.length = l.length + 1 ∧ colons (l.map H16.text ++ [o.text]) = colons ss ++ 46 :: s := by
  obtain ⟨x, hx⟩ := octet_hexGroup o.a
  refine ⟨l.map H16.text ++ [decimalText o.a.toNat], l.map H16.value ++ [x],
    decimalText o.b.toNat ++ 46 :: (decimalText o.c.toNat ++ 46 :: decimalText o.d.toNat),
    ?_, ?_, ?_⟩
  · exact List.rel_append (hexGroups l) (List.Forall₂.cons hx List.Forall₂.nil)
  · rw [List.length_append, List.length_map]
    rfl
  · exact colons_last _ _ _

theorem flatMap_groups (l : List H16) :
    (l.map H16.value).flatMap groupBytes = l.flatMap fun g => groupBytes g.value :=
  List.flatMap_map ..

/-- **IPv6 addresses** are read, or refused. -/
theorem parseIpv6_text (a : Ipv6Text) (tail : CString) :
    parseIpv6 (91 :: (a.text ++ 93 :: tail)) =
      some (if a.Handled then some (a.value, tail) else none) := by
  obtain ⟨left, right, last, fits⟩ := a
  have hleft := hexGroups left
  have hbytes := groups_length hleft
  rw [List.length_map, flatMap_groups] at hbytes
  cases last with
  | none =>
    cases right with
    | none =>
      have hn : left.length = 8 := fits
      have hhandled : (⟨left, none, none, fits⟩ : Ipv6Text).Handled :=
        ⟨rfl, fun r hr => absurd hr.symm (Option.some_ne_none r)⟩
      have hvalue : (⟨left, none, none, fits⟩ : Ipv6Text).value =
          left.flatMap fun g => groupBytes g.value := by
        show left.flatMap (fun g => groupBytes g.value) ++ List.replicate (16 - _ - 0) 0 ++ [] = _
        rw [hbytes, hn]
        exact (List.append_nil _).trans (List.append_nil _)
      show parseIpv6 (91 :: (colons (left.map H16.text ++ []) ++ 93 :: tail)) = _
      rw [List.append_nil, parseIpv6_full hleft, List.length_map, if_pos hn, if_pos hhandled,
        hvalue, flatMap_groups]
      · rw [Ne, List.map_eq_nil_iff]
        rintro rfl
        exact absurd hn (by decide)
      · rw [List.length_map, hn]
    | some right =>
      have hn : left.length + right.length ≤ 7 := fits
      have hright := hexGroups right
      have hrightBytes := groups_length hright
      rw [List.length_map, flatMap_groups] at hrightBytes
      have hhandled : (⟨left, some right, none, fits⟩ : Ipv6Text).Handled ↔
          left.length + right.length ≤ 6 ∨ right.length ≤ 1 := by
        constructor
        · exact fun h => h.2 right rfl
        · exact fun h => ⟨rfl, fun r hr => Option.some.inj hr ▸ h⟩
      have hvalue : (⟨left, some right, none, fits⟩ : Ipv6Text).value =
          left.flatMap (fun g : H16 => groupBytes g.value) ++
            List.replicate (16 - 2 * (left.length + right.length)) 0 ++
              right.flatMap (fun g : H16 => groupBytes g.value) := by
        show left.flatMap (fun g : H16 => groupBytes g.value) ++ List.replicate (16 - _ -
          (right.flatMap (fun g : H16 => groupBytes g.value) ++ []).length) 0 ++
            (right.flatMap (fun g : H16 => groupBytes g.value) ++ []) = _
        rw [List.append_nil, hbytes, hrightBytes, Nat.sub_sub, Nat.mul_add]
      show parseIpv6 (91 :: (colons (left.map H16.text) ++
        58 :: 58 :: colons (right.map H16.text ++ []) ++ 93 :: tail)) = _
      rw [List.append_nil, List.append_assoc, List.cons_append, List.cons_append,
        parseIpv6_gapped hleft hright (by rw [List.length_map, List.length_map]; exact hn),
        hvalue, List.length_map, List.length_map, flatMap_groups, flatMap_groups]
      congr 1
      exact if_congr hhandled.symm rfl rfl
  | some o =>
    have hrefused : ¬(⟨left, right, some o, fits⟩ : Ipv6Text).Handled := fun h =>
      absurd h.1 (Option.some_ne_none o)
    rw [if_neg hrefused]
    cases right with
    | none =>
      have hn : left.length + 2 = 8 := fits
      obtain ⟨ss, xs, s, hss, hlength, htext⟩ := octetGroups left o
      show parseIpv6 (91 :: (colons (left.map H16.text ++ [o.text]) ++ 93 :: tail)) = _
      rw [htext, List.append_assoc, List.cons_append]
      refine parseIpv6_point hss ?_ (by omega)
      rintro rfl
      rw [List.length_nil] at hlength
      omega
    | some right =>
      have hn : left.length + right.length + 2 ≤ 7 := fits
      obtain ⟨ss, xs, s, hss, hlength, htext⟩ := octetGroups right o
      show parseIpv6 (91 :: (colons (left.map H16.text) ++
        58 :: 58 :: colons (right.map H16.text ++ [o.text]) ++ 93 :: tail)) = _
      rw [htext, List.append_assoc, List.cons_append, List.cons_append, List.append_assoc,
        List.cons_append]
      refine parseIpv6_gapPoint hleft hss ?_ ?_
      · rintro rfl
        rw [List.length_nil] at hlength
        omega
      · rw [List.length_map]
        omega

end Ipv6Text

end SeClient
