import SeClient.HttpUris

/-!
# http URIs, written

`write_uri` and the functions of `address.c` it calls, and what `parse_uri` makes of their output.
-/

namespace SeClient

/-! ## `address.c` and `uri.c` -/

/-- The `%x` of a number. -/
def hexText (x : ℕ) : CString :=
  if x = 0 then [48]
  else (Nat.digits 16 x).reverse.map fun d => UInt8.ofNat (if d < 10 then 48 + d else 87 + d)

/-- `write_ipv4` -/
def writeIpv4 (addr : UInt32) : CString :=
  let d := addr.toUInt8
  let addr := addr >>> 8
  let c := addr.toUInt8
  let addr := addr >>> 8
  let b := addr.toUInt8
  let addr := addr >>> 8
  let a := addr.toUInt8
  decimalText a.toNat ++ 46 :: (decimalText b.toNat ++ 46 :: (decimalText c.toNat ++
    46 :: decimalText d.toNat))

/-- The groups of an address. -/
def hostGroups : List UInt8 → List ℕ
  | a :: b :: host => (a.toNat <<< 8 ||| b.toNat) :: hostGroups host
  | _ => []

/-- The loop of `write_ipv6`, behind the bracket. -/
def writeIpv6Loop : List ℕ → ℤ → CString → CString
  | [], _, text => text
  | x :: xs, zero, text =>
    if 0 ≤ zero ∧ x = 0 then writeIpv6Loop xs 1 text
    else
      let (zero, text) := if zero = 1 then (-1, text ++ [58]) else (zero, text)
      let text := if text ≠ [] then text ++ [58] else text
      writeIpv6Loop xs zero (text ++ hexText x)

/-- `write_ipv6` -/
def writeIpv6 (host : List UInt8) : CString :=
  let text := writeIpv6Loop (hostGroups host) 0 []
  91 :: ((if text = [] then [58, 58] else text) ++ [93])

/-- `write_address` -/
def writeAddress : Address → CString
  | .ipv4 ip _ => writeIpv4 ip
  | .ipv6 ip _ => writeIpv6 ip

/-- `address_port` -/
def Address.port : Address → UInt16
  | .ipv4 _ port => port
  | .ipv6 _ port => port

/-- `write_address_port` -/
def writeAddressPort (addr : Address) : CString :=
  writeAddress addr ++ 58 :: decimalText addr.port.toNat

/-- `write_uri` -/
def writeUri (uri : Uri) : CString :=
  (match uri.name, uri.host with
    | some name, _ =>
      uri.scheme.getD [] ++ 58 :: 47 :: 47 :: (name ++ 58 :: decimalText uri.port)
    | none, some host => uri.scheme.getD [] ++ 58 :: 47 :: 47 :: writeAddressPort host
    | none, none => []) ++
  uri.path ++
  match uri.query with
  | none => []
  | some query => 63 :: query

/-- **`parse_uri` returns the components** of what `write_uri` writes. -/
def Uri.ComesBack (uri : Uri) : Prop :=
  ∀ last : Uri, ∃ uri', parseUri last (writeUri uri) = some (some uri') ∧ uri'.parts = uri.parts

/-- The components of a URI are returned, and if it has no escapes they come back. -/
def HttpUri.RoundTrips (u : HttpUri) : Prop :=
  u.Parses ∧
    (u.Plain → ∀ last uri, parseUri last u.text = some (some uri) → uri.ComesBack)

/-- The addresses `write_ipv6` writes right: the first zero groups are the whole address, or they
stand in front of others, and are two or more if two or more follow. -/
def WrittenRight (host : List UInt8) : Prop :=
  let left := (hostGroups host).takeWhile (· ≠ 0)
  let rest := (hostGroups host).dropWhile (· ≠ 0)
  let right := rest.dropWhile (· = 0)
  rest = [] ∨ left = [] ∧ right = [] ∨
    right ≠ [] ∧ (left.length + right.length ≤ 6 ∨ right.length ≤ 1)

instance (host : List UInt8) : Decidable (WrittenRight host) :=
  inferInstanceAs (Decidable (_ ∨ _ ∧ _ ∨ _ ∧ _))

/-- What comes back: a name that is not empty, or an address that is written right, with a port of
16 bits. -/
def HttpUri.Written (u : HttpUri) : Prop :=
  match u.host with
  | .ipv4 _ => u.portNumber < 65536
  | .ipv6 a => u.portNumber < 65536 ∧ WrittenRight a.value
  | .name n _ => n.text ≠ []

/-! ## Hexadecimal numbers -/

section Hex
variable {x : ℕ} {s : CString}

theorem hexText_digits (x : ℕ) : (∀ c ∈ hexText x, (hex4 c).isSome) ∧ hexText x ≠ [] := by
  have hdigit : ∀ d < 16, (hex4 (UInt8.ofNat (if d < 10 then 48 + d else 87 + d))).isSome := by
    decide +kernel
  unfold hexText
  split
  · decide
  · rename_i hx
    refine ⟨fun c hc => ?_, fun h => ?_⟩
    · obtain ⟨d, hd, rfl⟩ := List.mem_map.mp hc
      exact hdigit d (Nat.digits_lt_base (by decide) (List.mem_reverse.mp hd))
    · rw [List.map_eq_nil_iff, List.reverse_eq_nil_iff] at h
      exact hx (Nat.digits_eq_nil_iff_eq_zero.mp h)

theorem hexText_length (hx : x < 65536) : (hexText x).length ≤ 4 := by
  unfold hexText
  split
  · decide
  · rw [List.length_map, List.length_reverse]
    exact (Nat.digits_length_le_iff (by decide) x).mpr hx

theorem hexText_value (x : ℕ) :
    (hexText x).foldl (fun x c => x <<< 4 + (hex4 c).getD 0) 0 = x := by
  have hdigit : ∀ d < 16,
      (hex4 (UInt8.ofNat (if d < 10 then 48 + d else 87 + d))).getD 0 = d := by
    decide +kernel
  unfold hexText
  split
  · rename_i hx
    rw [hx]
    rfl
  · have hvalue := Nat.ofDigits_digits 16 x
    rw [Nat.ofDigits_eq_foldr] at hvalue
    rw [List.foldl_map, List.foldl_reverse]
    conv_rhs => rw [← hvalue]
    refine List.foldr_ext _ _ 0 fun d hd y => ?_
    rw [hdigit d (Nat.digits_lt_base (by decide) hd), Nat.shiftLeft_eq, Nat.cast_id]
    omega

theorem hexDigits_foldl (hs : ∀ c ∈ s, (hex4 c).isSome) :
    HexDigits s (s.foldl (fun x c => x <<< 4 + (hex4 c).getD 0) 0) := by
  induction s using List.reverseRecOn with
  | nil => exact HexDigits.nil
  | append_singleton s c ih =>
    obtain ⟨v, hv⟩ := Option.isSome_iff_exists.mp (hs c (by simp))
    have hstep := HexDigits.snoc (ih fun d hd => hs d (List.mem_append_left _ hd))
      ((hex4_iff c v).mp hv)
    rw [List.foldl_append, List.foldl_cons, List.foldl_nil, hv, Option.getD_some, Nat.shiftLeft_eq,
      Nat.mul_comm]
    exact hstep

/-- A number as a group. -/
def H16.ofNat (x : ℕ) (hx : x < 65536) : H16 where
  text := hexText x
  value := x
  digits := by
    have h := hexDigits_foldl (hexText_digits x).1
    rwa [hexText_value] at h
  nonempty := (hexText_digits x).2
  short := hexText_length hx

theorem exists_groups {xs : List ℕ} (h : ∀ x ∈ xs, x < 65536) :
    ∃ gs : List H16, gs.map H16.text = xs.map hexText ∧ gs.map H16.value = xs := by
  induction xs with
  | nil => exact ⟨[], rfl, rfl⟩
  | cons x xs ih =>
    obtain ⟨hx, hxs⟩ := List.forall_mem_cons.mp h
    obtain ⟨gs, htext, hvalue⟩ := ih hxs
    refine ⟨H16.ofNat x hx :: gs, ?_, ?_⟩
    · rw [List.map_cons, List.map_cons, htext]
      rfl
    · rw [List.map_cons, hvalue]
      rfl

end Hex

/-! ## Written addresses -/

section Ipv6
variable {xs l r : List ℕ} {text : CString} {zero : ℤ}

theorem colons_flat (s : CString) (l : List CString) :
    colons (s :: l) = s ++ l.flatMap (58 :: ·) := by
  induction l generalizing s with
  | nil => exact (List.append_nil s).symm
  | cons t l ih =>
    rw [colons_cons, ih, List.flatMap_cons]
    rfl

/-- A group that is written behind others. -/
theorem writeIpv6Loop_next {x : ℕ} (htext : text ≠ []) (hx : x ≠ 0 ∨ zero < 0) (hzero : zero ≠ 1) :
    writeIpv6Loop (x :: xs) zero text = writeIpv6Loop xs zero (text ++ 58 :: hexText x) := by
  have hskip : ¬(0 ≤ zero ∧ x = 0) := by omega
  rw [writeIpv6Loop, if_neg hskip, if_neg hzero]
  dsimp only
  rw [if_pos htext, List.append_assoc]
  rfl

theorem writeIpv6Loop_groups (htext : text ≠ []) (hx : (∀ x ∈ l, x ≠ 0) ∨ zero < 0)
    (hzero : zero ≠ 1) : writeIpv6Loop (l ++ r) zero text =
      writeIpv6Loop r zero (text ++ (l.map hexText).flatMap (58 :: ·)) := by
  induction l generalizing text with
  | nil => exact congrArg (writeIpv6Loop r zero) (List.append_nil text).symm
  | cons x l ih =>
    have hfirst : x ≠ 0 ∨ zero < 0 := hx.imp (fun h => h x List.mem_cons_self) id
    have hrest : (∀ x ∈ l, x ≠ 0) ∨ zero < 0 :=
      hx.imp (fun h y hy => h y (List.mem_cons_of_mem x hy)) id
    have hne : text ++ 58 :: hexText x ≠ [] := List.append_ne_nil_of_left_ne_nil htext _
    rw [List.cons_append, writeIpv6Loop_next htext hfirst hzero, ih hne hrest, List.map_cons,
      List.flatMap_cons, List.append_assoc]

/-- The groups in front of the first zero. -/
theorem writeIpv6Loop_left (hl : ∀ x ∈ l, x ≠ 0) :
    writeIpv6Loop (l ++ r) 0 [] = writeIpv6Loop r 0 (colons (l.map hexText)) := by
  cases l with
  | nil => rfl
  | cons x l =>
    obtain ⟨hx, hl⟩ := List.forall_mem_cons.mp hl
    have hskip : ¬(0 ≤ (0 : ℤ) ∧ x = 0) := fun h => hx h.2
    have hfirst : writeIpv6Loop (x :: (l ++ r)) 0 [] = writeIpv6Loop (l ++ r) 0 (hexText x) :=
      if_neg hskip
    rw [List.cons_append, hfirst, writeIpv6Loop_groups (hexText_digits x).2 (Or.inl hl) (by decide),
      List.map_cons, colons_flat]

theorem writeIpv6Loop_zeros (z : ℕ) (hzero : 0 ≤ zero) :
    writeIpv6Loop (List.replicate (z + 1) 0 ++ r) zero text = writeIpv6Loop r 1 text := by
  induction z generalizing zero with
  | zero => exact if_pos ⟨hzero, rfl⟩
  | succ z ih =>
    have hfirst : writeIpv6Loop (0 :: (List.replicate (z + 1) 0 ++ r)) zero text =
        writeIpv6Loop (List.replicate (z + 1) 0 ++ r) 1 text := if_pos ⟨hzero, rfl⟩
    rw [List.replicate_succ, List.cons_append, hfirst, ih (by decide)]

/-- The groups behind the first zeros. -/
theorem writeIpv6Loop_right {x : ℕ} (hx : x ≠ 0) : writeIpv6Loop (x :: r) 1 text =
    text ++ 58 :: 58 :: colons ((x :: r).map hexText) := by
  have hskip : ¬(0 ≤ (1 : ℤ) ∧ x = 0) := fun h => hx h.2
  have hcolon : text ++ [58] ≠ [] := List.append_ne_nil_of_right_ne_nil _ (List.cons_ne_nil _ _)
  have hne : text ++ [58] ++ [58] ++ hexText x ≠ [] :=
    List.append_ne_nil_of_right_ne_nil _ (hexText_digits x).2
  have hgroups := writeIpv6Loop_groups (l := r) (r := []) hne (Or.inr (by decide : (-1 : ℤ) < 0))
    (by decide)
  rw [List.append_nil] at hgroups
  rw [writeIpv6Loop, if_neg hskip, if_pos rfl]
  dsimp only
  rw [if_pos hcolon, hgroups, List.map_cons, colons_flat]
  simp only [writeIpv6Loop, List.append_assoc, List.cons_append, List.nil_append]

end Ipv6

/-! ### Groups and bytes -/

section Groups
variable {host : List UInt8}

theorem groupBytes_shift (a b : UInt8) : groupBytes (a.toNat <<< 8 ||| b.toNat) = [a, b] := by
  have ha := a.toNat_lt
  have hb := b.toNat_lt
  have hsum : a.toNat <<< 8 ||| b.toNat = a.toNat * 256 + b.toNat := by
    rw [← Nat.shiftLeft_add_eq_or_of_lt hb, Nat.shiftLeft_eq]
  have hhigh : (a.toNat * 256 + b.toNat) >>> 8 = a.toNat := by
    rw [Nat.shiftRight_eq_div_pow]
    omega
  have hlow : UInt8.ofNat (a.toNat * 256 + b.toNat) = b := by
    apply UInt8.toNat_inj.mp
    rw [UInt8.toNat_ofNat']
    omega
  rw [hsum, groupBytes, hhigh, hlow, UInt8.ofNat_toNat]

/-- An address of whole groups is its groups. -/
theorem hostGroups_spec : ∀ (n : ℕ) (host : List UInt8), host.length = 2 * n →
    (hostGroups host).length = n ∧ (hostGroups host).flatMap groupBytes = host ∧
      ∀ x ∈ hostGroups host, x < 65536 := by
  intro n
  induction n with
  | zero =>
    intro host h
    rw [List.length_eq_zero_iff.mp h]
    exact ⟨rfl, rfl, fun x hx => absurd hx List.not_mem_nil⟩
  | succ n ih =>
    intro host h
    obtain ⟨a, host, rfl⟩ := List.exists_cons_of_length_pos (l := host) (by omega)
    obtain ⟨b, host, rfl⟩ := List.exists_cons_of_length_pos (l := host) (by
      rw [List.length_cons] at h
      omega)
    rw [List.length_cons, List.length_cons] at h
    obtain ⟨hlength, hbytes, hlt⟩ := ih host (by omega)
    have ha := a.toNat_lt
    have hb := b.toNat_lt
    have hgroup : a.toNat <<< 8 ||| b.toNat < 65536 := by
      rw [← Nat.shiftLeft_add_eq_or_of_lt hb, Nat.shiftLeft_eq]
      omega
    rw [hostGroups]
    refine ⟨congrArg (· + 1) hlength, ?_, List.forall_mem_cons.mpr ⟨hgroup, hlt⟩⟩
    rw [List.flatMap_cons, groupBytes_shift, hbytes]
    rfl

/-- The first zeros of a list. -/
theorem zeros_split (xs : List ℕ) : xs.dropWhile (· ≠ 0) = [] ∨
    ∃ z r, xs.dropWhile (· ≠ 0) = List.replicate (z + 1) 0 ++ r ∧
      (xs.dropWhile (· ≠ 0)).dropWhile (· = 0) = r ∧ r.head? ≠ some 0 := by
  cases hrest : xs.dropWhile (· ≠ 0) with
  | nil => exact Or.inl rfl
  | cons x rest =>
    have hx : x = 0 := by
      have hhead := List.head?_dropWhile_not (fun y : ℕ => decide (y ≠ 0)) xs
      rw [hrest] at hhead
      simpa using hhead
    subst hx
    have hdrop : (0 :: rest).dropWhile (fun y : ℕ => decide (y = 0)) = rest.dropWhile (· = 0) := rfl
    have hzeros : rest.takeWhile (· = 0) = List.replicate (rest.takeWhile (· = 0)).length 0 :=
      List.eq_replicate_iff.mpr ⟨rfl, fun y hy => of_decide_eq_true
        (List.mem_takeWhile_imp (p := fun y : ℕ => decide (y = 0)) hy)⟩
    refine Or.inr ⟨(rest.takeWhile (· = 0)).length, rest.dropWhile (· = 0), ?_, hdrop, ?_⟩
    · rw [List.replicate_succ, ← hzeros, List.cons_append, List.takeWhile_append_dropWhile]
    · intro hhead
      have hnot := List.head?_dropWhile_not (fun y : ℕ => decide (y = 0)) rest
      rw [hhead] at hnot
      exact absurd hnot (by decide)

theorem replicate_groups (k : ℕ) :
    (List.replicate k 0).flatMap groupBytes = List.replicate (2 * k) 0 := by
  induction k with
  | zero => rfl
  | succ k ih =>
    rw [List.replicate_succ, List.flatMap_cons, ih, Nat.mul_succ, List.replicate_succ,
      List.replicate_succ]
    rfl

end Groups

/-! ### The text of an address -/

section Written
variable {l r : List ℕ} {host : List UInt8}

/-- What `write_ipv6` writes of groups, zeros and groups. -/
theorem writeIpv6_gap {z : ℕ} (hgroups : hostGroups host = l ++ (List.replicate (z + 1) 0 ++ r))
    (hl : ∀ x ∈ l, x ≠ 0) (hr : r.head? ≠ some 0) : writeIpv6 host =
      if r = [] ∧ l ≠ [] then 91 :: (colons (l.map hexText) ++ [93])
      else 91 :: (colons (l.map hexText) ++ 58 :: 58 :: colons (r.map hexText) ++ [93]) := by
  have htext : writeIpv6Loop (hostGroups host) 0 [] =
      writeIpv6Loop r 1 (colons (l.map hexText)) := by
    rw [hgroups, writeIpv6Loop_left hl, writeIpv6Loop_zeros z (Int.le_refl 0)]
  unfold writeIpv6
  dsimp only
  rw [htext]
  cases r with
  | nil =>
    cases l with
    | nil => rfl
    | cons x l =>
      have hne : colons ((x :: l).map hexText) ≠ [] := by
        rw [List.map_cons, colons_flat]
        exact List.append_ne_nil_of_left_ne_nil (hexText_digits x).2 _
      show 91 :: ((if colons ((x :: l).map hexText) = [] then [58, 58] else
        colons ((x :: l).map hexText)) ++ [93]) = _
      rw [if_neg hne]
      exact (if_pos ⟨rfl, List.cons_ne_nil x l⟩).symm
  | cons x r =>
    have hx : x ≠ 0 := fun h => hr (congrArg some h)
    have hskip : ¬(x :: r = [] ∧ l ≠ []) := fun h => List.cons_ne_nil x r h.1
    rw [writeIpv6Loop_right hx, if_neg hskip,
      if_neg (List.append_ne_nil_of_right_ne_nil _ (List.cons_ne_nil _ _))]

theorem writeIpv6_full (hl : ∀ x ∈ hostGroups host, x ≠ 0) (hne : hostGroups host ≠ []) :
    writeIpv6 host = 91 :: (colons ((hostGroups host).map hexText) ++ [93]) := by
  have htext := writeIpv6Loop_left (r := []) hl
  obtain ⟨x, xs, hxs⟩ := List.exists_cons_of_ne_nil hne
  have hcolons : colons ((hostGroups host).map hexText) ≠ [] := by
    rw [hxs, List.map_cons, colons_flat]
    exact List.append_ne_nil_of_left_ne_nil (hexText_digits x).2 _
  rw [List.append_nil] at htext
  unfold writeIpv6
  dsimp only
  rw [htext]
  exact congrArg (fun s => 91 :: (s ++ [93])) (if_neg hcolons)

theorem hexText_groups (h : ∀ x ∈ l, x < 65536) : List.Forall₂ HexGroup (l.map hexText) l := by
  obtain ⟨gs, htext, hvalue⟩ := exists_groups h
  have hgroups := Ipv6Text.hexGroups gs
  rwa [htext, hvalue] at hgroups

/-- The groups of an address: all of them, or those around the first zeros. -/
theorem host_split (hlength : host.length = 16) :
    (WrittenRight host ∧ (hostGroups host).length = 8 ∧ ∀ x ∈ hostGroups host, x ≠ 0) ∨
      ∃ l z r, hostGroups host = l ++ (List.replicate (z + 1) 0 ++ r) ∧ (∀ x ∈ l, x ≠ 0) ∧
        r.head? ≠ some 0 ∧ l.length + (z + 1) + r.length = 8 ∧
        (WrittenRight host ↔
          l = [] ∧ r = [] ∨ r ≠ [] ∧ (l.length + r.length ≤ 6 ∨ r.length ≤ 1)) := by
  obtain ⟨hcount, -, -⟩ := hostGroups_spec 8 host hlength
  have hsplit := List.takeWhile_append_dropWhile (p := fun x : ℕ => decide (x ≠ 0))
    (l := hostGroups host)
  have hl : ∀ x ∈ (hostGroups host).takeWhile (· ≠ 0), x ≠ 0 := fun x hx =>
    of_decide_eq_true (List.mem_takeWhile_imp (p := fun x : ℕ => decide (x ≠ 0)) hx)
  unfold WrittenRight
  dsimp only
  rcases zeros_split (hostGroups host) with hrest | ⟨z, r, hrest, hdrop, hr⟩
  · left
    refine ⟨Or.inl hrest, hcount, ?_⟩
    rw [hrest, List.append_nil] at hsplit
    rwa [hsplit] at hl
  · right
    refine ⟨_, z, r, ?_, hl, hr, ?_, ?_⟩
    · rw [← hrest, hsplit]
    · have hlengths := congrArg List.length hsplit
      rw [hrest, List.length_append, List.length_append, List.length_replicate] at hlengths
      omega
    · have hne : (hostGroups host).dropWhile (fun x : ℕ => decide (x ≠ 0)) ≠ [] := by
        rw [hrest]
        exact List.append_ne_nil_of_left_ne_nil (List.cons_ne_nil _ _) _
      rw [hdrop]
      exact ⟨fun h => h.resolve_left hne, Or.inr⟩

/-- **What is written right** is the address. -/
theorem writeIpv6_right (hlength : host.length = 16) (h : WrittenRight host) :
    ∃ a : Ipv6Text, a.Handled ∧ a.value = host ∧ writeIpv6 host = (UriHost.ipv6 a).text := by
  obtain ⟨hcount, hbytes, hlt⟩ := hostGroups_spec 8 host hlength
  rcases host_split hlength with ⟨-, -, hall⟩ | ⟨l, z, r, hgroups, hl, hr, hsum, hiff⟩
  · obtain ⟨gs, htext, hvalue⟩ := exists_groups hlt
    have hne : hostGroups host ≠ [] := by
      intro hnil
      rw [hnil] at hcount
      exact absurd hcount (by decide)
    have hgs : gs.length = 8 := by
      rw [← hcount, ← hvalue, List.length_map]
    refine ⟨⟨gs, none, none, hgs⟩, ⟨rfl, fun r hr => absurd hr.symm (Option.some_ne_none r)⟩,
      ?_, ?_⟩
    · have hleft : (gs.flatMap fun g : H16 => groupBytes g.value) = host := by
        rw [← Ipv6Text.flatMap_groups, hvalue, hbytes]
      show (gs.flatMap fun g : H16 => groupBytes g.value) ++
        List.replicate (16 - _ - 0) 0 ++ [] = host
      rw [hleft, hlength]
      exact (List.append_nil _).trans (List.append_nil _)
    · rw [writeIpv6_full hall hne, ← htext]
      show _ = 91 :: (colons (gs.map H16.text ++ []) ++ [93])
      rw [List.append_nil]
  · have hlr : ∀ x ∈ l ++ r, x < 65536 := by
      intro x hx
      refine hlt x ?_
      rw [hgroups]
      rcases List.mem_append.mp hx with hx | hx
      · exact List.mem_append_left _ hx
      · exact List.mem_append_right _ (List.mem_append_right _ hx)
    obtain ⟨ls, hltext, hlvalue⟩ := exists_groups fun x hx => hlr x (List.mem_append_left _ hx)
    obtain ⟨rs, hrtext, hrvalue⟩ := exists_groups fun x hx => hlr x (List.mem_append_right _ hx)
    have hls : ls.length = l.length := by rw [← hlvalue, List.length_map]
    have hrs : rs.length = r.length := by rw [← hrvalue, List.length_map]
    have hshort : l.length + r.length ≤ 6 ∨ r.length ≤ 1 := by
      rcases hiff.mp h with ⟨-, hnil⟩ | ⟨-, hshort⟩
      · exact Or.inr (by rw [hnil]; exact Nat.zero_le 1)
      · exact hshort
    refine ⟨⟨ls, some rs, none, ?_⟩, ⟨rfl, fun rs' hrs' => ?_⟩, ?_, ?_⟩
    · show ls.length + rs.length + 0 ≤ 7
      omega
    · rw [← Option.some.inj hrs', hls, hrs]
      exact hshort
    · -- the bytes around the zeros
      have hleft : (ls.flatMap fun g : H16 => groupBytes g.value) = l.flatMap groupBytes := by
        rw [← Ipv6Text.flatMap_groups, hlvalue]
      have hright : (rs.flatMap fun g : H16 => groupBytes g.value) = r.flatMap groupBytes := by
        rw [← Ipv6Text.flatMap_groups, hrvalue]
      have hlengths : ∀ k : List ℕ, (k.flatMap groupBytes).length = 2 * k.length := by
        intro k
        induction k with
        | nil => rfl
        | cons x k ih =>
          rw [List.flatMap_cons, List.length_append, ih, groupBytes_length, List.length_cons]
          omega
      rw [hgroups, List.flatMap_append, List.flatMap_append, replicate_groups] at hbytes
      show (ls.flatMap fun g : H16 => groupBytes g.value) ++ List.replicate (16 - _ -
        ((rs.flatMap fun g : H16 => groupBytes g.value) ++ []).length) 0 ++
          ((rs.flatMap fun g : H16 => groupBytes g.value) ++ []) = host
      rw [List.append_nil, hleft, hright, hlengths, hlengths, ← hbytes, List.append_assoc]
      congr 3
      omega
    · have hskip : ¬(r = [] ∧ l ≠ []) := by
        rintro ⟨hnil, hne⟩
        rcases hiff.mp h with ⟨hl, -⟩ | ⟨hr, -⟩
        · exact hne hl
        · exact hr hnil
      rw [writeIpv6_gap hgroups hl hr, if_neg hskip, ← hltext, ← hrtext]
      show _ = 91 :: (colons (ls.map H16.text) ++
        58 :: 58 :: colons (rs.map H16.text ++ []) ++ [93])
      rw [List.append_nil]

/-- **What is not written right** is no address. -/
theorem writeIpv6_wrong (hlength : host.length = 16) (h : ¬WrittenRight host) (tail : CString) :
    (∃ s, writeIpv6 host ++ tail = 91 :: s) ∧ parseIpv6 (writeIpv6 host ++ tail) = some none := by
  obtain ⟨hcount, -, hlt⟩ := hostGroups_spec 8 host hlength
  rcases host_split hlength with ⟨hright, -, -⟩ | ⟨l, z, r, hgroups, hl, hr, hsum, hiff⟩
  · exact absurd hright h
  · rw [hiff] at h
    have hleft := hexText_groups (l := l) fun x hx => hlt x (by
      rw [hgroups]
      exact List.mem_append_left _ hx)
    have hright := hexText_groups (l := r) fun x hx => hlt x (by
      rw [hgroups]
      exact List.mem_append_right _ (List.mem_append_right _ hx))
    rw [writeIpv6_gap hgroups hl hr]
    by_cases hnil : r = []
    · -- the last zeros are left out
      have hne : l ≠ [] := fun hl => h (Or.inl ⟨hl, hnil⟩)
      have hcount : ¬(l.map hexText).length = 8 := by
        rw [List.length_map]
        omega
      rw [if_pos ⟨hnil, hne⟩, List.cons_append, List.append_assoc, List.singleton_append]
      refine ⟨⟨_, rfl⟩, ?_⟩
      rw [parseIpv6_full hleft (fun h => hne (List.map_eq_nil_iff.mp h))
        (by rw [List.length_map]; omega), if_neg hcount]
    · have hskip : ¬(r = [] ∧ l ≠ []) := fun h => hnil h.1
      have hmany : ¬((l.map hexText).length + (r.map hexText).length ≤ 6 ∨
          (r.map hexText).length ≤ 1) := by
        rw [List.length_map, List.length_map]
        exact fun hshort => h (Or.inr ⟨hnil, hshort⟩)
      rw [if_neg hskip, List.cons_append, List.append_assoc, List.append_assoc, List.cons_append,
        List.cons_append, List.singleton_append]
      refine ⟨⟨_, rfl⟩, ?_⟩
      rw [parseIpv6_gapped hleft hright (by rw [List.length_map, List.length_map]; omega),
        if_neg hmany]

end Written

/-! ## Written URIs -/

theorem writeIpv4_octets (o : Octets) : writeIpv4 o.value = o.text := by
  have ha := o.a.toNat_lt
  have hb := o.b.toNat_lt
  have hc := o.c.toNat_lt
  have hd := o.d.toNat_lt
  have hvalue : o.value.toNat =
      ((o.a.toNat * 256 + o.b.toNat) * 256 + o.c.toNat) * 256 + o.d.toNat :=
    UInt32.toNat_ofNat_of_lt' (show _ < 2 ^ 32 by omega)
  have hshift : ∀ x : UInt32, (x >>> 8).toNat = x.toNat / 256 := by
    intro x
    rw [UInt32.toNat_shiftRight]
    exact Nat.shiftRight_eq_div_pow _ _
  have hbyte : ∀ (x : UInt32) (y : UInt8), x.toNat % 256 = y.toNat → x.toUInt8.toNat = y.toNat :=
    fun x y h => (UInt32.toNat_toUInt8 x).trans h
  have h₀ := hbyte o.value o.d (by rw [hvalue]; omega)
  have h₁ := hbyte (o.value >>> 8) o.c (by rw [hshift, hvalue]; omega)
  have h₂ := hbyte (o.value >>> 8 >>> 8) o.b (by rw [hshift, hshift, hvalue]; omega)
  have h₃ := hbyte (o.value >>> 8 >>> 8 >>> 8) o.a (by
    rw [hshift, hshift, hshift, hvalue]
    omega)
  unfold writeIpv4 Octets.text
  dsimp only
  rw [h₀, h₁, h₂, h₃]

theorem Ipv6Text.value_length (a : Ipv6Text) : a.value.length = 16 := by
  obtain ⟨left, right, last, fits⟩ := a
  have hgroups : ∀ l : List H16, (l.flatMap fun g => groupBytes g.value).length = 2 * l.length := by
    intro l
    rw [← Ipv6Text.flatMap_groups, groups_length (Ipv6Text.hexGroups l), List.length_map]
  have hlast : (Ipv6Text.lastBytes ⟨left, right, last, fits⟩).length =
      4 * last.toList.length := by
    cases last <;> rfl
  have hroom : 2 * left.length + (2 * (right.getD []).length + 4 * last.toList.length) ≤ 16 := by
    cases right with
    | none =>
      have h : left.length + 2 * last.toList.length = 8 := fits
      rw [Option.getD_none, List.length_nil]
      omega
    | some right =>
      have h : left.length + right.length + 2 * last.toList.length ≤ 7 := fits
      rw [Option.getD_some]
      omega
  unfold Ipv6Text.value
  dsimp only
  rw [List.length_append, List.length_append, List.length_append, List.length_replicate, hgroups,
    hgroups, hlast]
  omega

/-- Without escapes a text is its value. -/
theorem Encoded.value_plain {p : UInt8 → Prop} (e : Encoded p) (h : e.Plain) :
    e.value = e.text := by
  obtain ⟨text, value, hspells⟩ := e
  unfold Encoded.Plain at h
  dsimp only at h ⊢
  induction hspells with
  | nil => rfl
  | char hc hs ih => exact congrArg _ (ih fun hmem => h (List.mem_cons_of_mem _ hmem))
  | escape => exact absurd List.mem_cons_self h

namespace HttpUri
variable (u : HttpUri)

/-- The URI with a host and a port in digits. -/
def withPort (h : UriHost) (k : ℕ) : HttpUri :=
  { u with
    host := h
    port := some (decimalText k)
    portDigits := fun ds hds => by
      rw [← Option.some.inj hds]
      exact (decimalText_digits k).1 }

theorem withPort_text (h : UriHost) (k : ℕ) : (u.withPort h k).text =
    u.scheme ++ 58 :: 47 :: 47 :: (h.text ++ 58 :: (decimalText k ++ u.rest)) := rfl

theorem withPort_portNumber (h : UriHost) (k : ℕ) : (u.withPort h k).portNumber = k := by
  obtain ⟨c, ds, hds⟩ := List.exists_cons_of_ne_nil (decimalText_digits k).2
  have hvalue := decimal_decimalText k
  have hport : (u.withPort h k).port = some (c :: ds) := congrArg some hds
  rw [hds] at hvalue
  unfold HttpUri.portNumber
  rw [hport]
  exact hvalue

theorem withPort_portRead {h : UriHost} {k : ℕ} (hk : k < 2 ^ 31) :
    (u.withPort h k).PortRead := by
  refine ⟨Or.inr ⟨decimalText k, rfl, (decimalText_digits k).2⟩, ?_⟩
  rw [withPort_portNumber]
  exact hk

theorem comesBack_iff {uri : Uri} {v : HttpUri} (htext : writeUri uri = v.text) (hv : v.Parses) :
    uri.ComesBack ↔ v.parts = uri.parts := by
  unfold Uri.ComesBack
  rw [htext]
  constructor
  · intro h
    obtain ⟨uri₁, hparse, hparts⟩ := h {}
    obtain ⟨uri₂, hparse', hparts'⟩ := hv {}
    obtain rfl := Option.some.inj (Option.some.inj (hparse.symm.trans hparse'))
    exact hparts'.symm.trans hparts
  · intro h
    rw [← h]
    exact hv

/-- What `write_uri` appends to the host. -/
theorem writeUri_rest (hplain : u.Plain) (hstrings : u.Strings) :
    upToNul u.path.value ++ (match u.query.map fun q => upToNul q.value with
      | none => []
      | some query => 63 :: query) = u.rest := by
  rw [upToNul_iff.mpr hstrings.2.1, u.path.value_plain hplain.2.1]
  refine congrArg (u.path.text ++ ·) ?_
  unfold queryText
  cases hquery : u.query with
  | none => rfl
  | some q =>
    show 63 :: upToNul q.value = 63 :: q.text
    rw [upToNul_iff.mpr (hstrings.2.2 q hquery), q.value_plain (hplain.2.2 q hquery)]

theorem withPort_parts {h : UriHost} {k : ℕ} (hname : (u.withPort h k).parts.name = u.parts.name)
    (hip : (u.withPort h k).parts.ip = u.parts.ip) :
    (u.withPort h k).parts = u.parts ↔ k = u.portNumber := by
  constructor
  · intro hparts
    have hport := congrArg UriParts.port hparts
    have hk : (((u.withPort h k).portNumber : ℕ) : ℤ) = u.portNumber := hport
    rw [withPort_portNumber] at hk
    exact Int.ofNat_inj.mp hk
  · intro hk
    have hport : (u.withPort h k).parts.port = u.parts.port := by
      show (((u.withPort h k).portNumber : ℕ) : ℤ) = u.portNumber
      rw [withPort_portNumber, hk]
    have heta : ∀ x : UriParts, x = ⟨x.scheme, x.name, x.ip, x.port, x.path, x.query⟩ :=
      fun x => rfl
    rw [heta (u.withPort h k).parts, hname, hip, hport]
    rfl

theorem portNumber_mod (n : ℕ) : (UInt16.ofInt (n : ℤ)).toNat = n % 65536 := by
  have hvalue : ((n : ℤ) % 2 ^ 16).toNat = n % 65536 := by omega
  rw [UInt16.ofInt, hvalue, UInt16.toNat_ofNat_of_lt' (show _ < 65536 by omega)]

/-- The port of an address has 16 bits. -/
theorem comesBack_address {uri : Uri} {a : Address} {h : UriHost} (hscheme : uri.scheme = u.scheme)
    (hname : uri.name = none) (hhost : uri.host = some a)
    (hrest : uri.path ++ (match uri.query with
      | none => []
      | some query => 63 :: query) = u.rest)
    (haddress : writeAddress a = h.text) (hport : a.port = UInt16.ofInt u.portNumber)
    (hparts : uri.parts = u.parts) (hread : (u.withPort h (u.portNumber % 65536)).HostRead)
    (hstrings : (u.withPort h (u.portNumber % 65536)).Strings)
    (hnames : (u.withPort h (u.portNumber % 65536)).parts.name = u.parts.name)
    (hip : (u.withPort h (u.portNumber % 65536)).parts.ip = u.parts.ip) :
    uri.ComesBack ↔ u.portNumber < 65536 := by
  have htext : writeUri uri = (u.withPort h (u.portNumber % 65536)).text := by
    rw [withPort_text, ← hrest, ← haddress, ← portNumber_mod, ← hport]
    unfold writeUri writeAddressPort
    rw [hname, hhost, hscheme]
    simp only [Option.getD_some, List.append_assoc, List.cons_append]
  have hparses := (u.withPort h (u.portNumber % 65536)).parses_iff.mpr
    ⟨hread, u.withPort_portRead (by omega), hstrings⟩
  rw [comesBack_iff htext hparses, hparts, u.withPort_parts hnames hip]
  omega

/-- A URI begins with a letter, or with a `/` where there has been a scheme. -/
theorem parseUri_rest : parseUri {} u.rest = some none := by
  have hhead := u.rest_head
  unfold parseUri uriFront
  cases hrest : u.rest with
  | nil => rfl
  | cons c data =>
    rw [hrest] at hhead
    rcases hhead c rfl with rfl | rfl <;> rfl

/-- **What comes back** of a URI without escapes whose components have been returned. -/
theorem comesBack_parsed (hplain : u.Plain) (hparses : u.Parses) {last : Uri} {uri : Uri}
    (hparse : parseUri last u.text = some (some uri)) : uri.ComesBack ↔ u.Written := by
  obtain ⟨hhost, hport, hstrings⟩ := u.parses_iff.mp hparses
  obtain ⟨uri', hparse', hparts⟩ := hparses last
  obtain rfl := Option.some.inj (Option.some.inj (hparse.symm.trans hparse'))
  rw [u.parseUri_text last hhost] at hparse
  have huri := Option.some.inj (Option.some.inj hparse)
  have hnumber : u.portRead (schemePort u.scheme last.port) = u.portNumber :=
    u.portRead_iff.mpr hport last.port
  have hrest : uri.path ++ (match uri.query with
      | none => []
      | some query => 63 :: query) = u.rest := by
    rw [← huri]
    exact u.writeUri_rest hplain hstrings
  have hscheme : uri.scheme = u.scheme := by rw [← huri]; rfl
  have hname : uri.name = u.hostString := by rw [← huri]; rfl
  have haddress : uri.host = u.address u.portNumber := by
    rw [← hnumber, ← huri]
    rfl
  unfold Written
  unfold hostString at hname
  unfold address at haddress
  cases hkind : u.host with
  | ipv4 o =>
    rw [hkind] at hname haddress
    refine u.comesBack_address (h := .ipv4 o) hscheme hname haddress hrest (writeIpv4_octets o) rfl
      hparts trivial ⟨fun n hn h => UriHost.noConfusion h, hstrings.2⟩ ?_ ?_
    · unfold parts
      rw [hkind]
      rfl
    · unfold parts
      rw [hkind]
      rfl
  | ipv6 a =>
    rw [hkind] at hname haddress
    by_cases hright : WrittenRight a.value
    · obtain ⟨b, hb, hvalue, htext⟩ := writeIpv6_right a.value_length hright
      refine (u.comesBack_address (h := .ipv6 b) hscheme hname haddress hrest htext rfl hparts hb
        ⟨fun n hn h => UriHost.noConfusion h, hstrings.2⟩ ?_ ?_).trans
          ⟨fun hlt => ⟨hlt, hright⟩, And.left⟩
      · unfold parts
        rw [hkind]
        rfl
      · unfold parts
        rw [hkind]
        exact congrArg (fun ip => some (Ip.v6 ip)) hvalue
    · refine iff_of_false (fun hback => ?_) fun hwritten => hright hwritten.2
      obtain ⟨uri', hparse', -⟩ := hback {}
      have htext : writeUri uri = u.scheme ++ 58 :: 47 :: 47 :: (writeIpv6 a.value ++
          58 :: (decimalText (UInt16.ofInt u.portNumber).toNat ++ u.rest)) := by
        rw [← hrest]
        unfold writeUri writeAddressPort
        rw [hname, haddress, hscheme]
        simp only [Option.getD_some, List.append_assoc, List.cons_append, writeAddress,
          Address.port]
      obtain ⟨⟨s, hs⟩, hnone⟩ := writeIpv6_wrong a.value_length hright
        (58 :: (decimalText (UInt16.ofInt u.portNumber).toNat ++ u.rest))
      rw [hs] at htext hnone
      have hrefused : parseAddress (schemePort u.scheme 0) (91 :: s) = some none := by
        unfold parseAddress
        dsimp only
        rw [hnone]
        rfl
      rw [htext, u.parseUri_refused {} hrefused] at hparse'
      exact absurd (Option.some.inj hparse').symm (Option.some_ne_none uri')
  | name n hn =>
    rw [hkind] at hname haddress
    have hvalue := n.value_plain (hplain.1 n hn hkind)
    dsimp only at hname ⊢
    rw [upToNul_iff.mpr (hstrings.1 n hn hkind), hvalue] at hname
    by_cases hnil : n.text = []
    · -- without a name only the path and the query are written
      refine iff_of_false (fun hback => ?_) (not_not.mpr hnil)
      obtain ⟨uri', hparse', -⟩ := hback {}
      rw [if_pos hnil] at hname
      have htext : writeUri uri = u.rest := by
        rw [← hrest]
        unfold writeUri
        rw [hname, haddress]
        rfl
      rw [htext, u.parseUri_rest] at hparse'
      exact absurd (Option.some.inj hparse').symm (Option.some_ne_none uri')
    · rw [if_neg hnil] at hname
      have hlt := hport.2
      have htext : writeUri uri = (u.withPort u.host u.portNumber).text := by
        rw [withPort_text, ← hrest, hkind]
        have huport : uri.port = u.portNumber := by
          rw [← hnumber, ← huri]
          rfl
        unfold writeUri
        rw [hname, hscheme, huport]
        simp only [Option.getD_some, List.append_assoc, List.cons_append, UriHost.text]
      have hread : (u.withPort u.host u.portNumber).HostRead := by
        unfold HostRead at hhost ⊢
        show match u.host with
          | .ipv4 _ => True
          | .ipv6 a => a.Handled
          | .name n _ => parseIpv4 n.text = none ∧ _
        rw [hkind] at hhost ⊢
        exact ⟨hhost.1, fun h => absurd h (Option.some_ne_none _)⟩
      have hvparses := (u.withPort u.host u.portNumber).parses_iff.mpr
        ⟨hread, u.withPort_portRead hlt, hstrings⟩
      rw [comesBack_iff htext hvparses, hparts, u.withPort_parts rfl rfl]
      exact iff_of_true rfl hnil

/-- **URIs that are parsed and written right.** -/
theorem roundTrips_iff : u.RoundTrips ↔
    u.HostRead ∧ u.PortRead ∧ u.Strings ∧ (u.Plain → u.Written) := by
  unfold RoundTrips
  rw [parses_iff]
  constructor
  · rintro ⟨⟨hhost, hport, hstrings⟩, hback⟩
    refine ⟨hhost, hport, hstrings, fun hplain => ?_⟩
    have hparses := u.parses_iff.mpr ⟨hhost, hport, hstrings⟩
    have hparse := u.parseUri_text {} hhost
    exact (u.comesBack_parsed hplain hparses hparse).mp (hback hplain {} _ hparse)
  · rintro ⟨hhost, hport, hstrings, hwritten⟩
    refine ⟨⟨hhost, hport, hstrings⟩, fun hplain last uri hparse => ?_⟩
    have hparses := u.parses_iff.mpr ⟨hhost, hport, hstrings⟩
    exact (u.comesBack_parsed hplain hparses hparse).mpr (hwritten hplain)

end HttpUri

theorem spells_chars {p : UInt8 → Prop} {s : CString} (h : ∀ c ∈ s, p c) : Spells p s s := by
  induction s with
  | nil => exact Spells.nil
  | cons c s ih =>
    obtain ⟨hc, hs⟩ := List.forall_mem_cons.mp h
    exact Spells.char hc (ih hs)

/-- A text without escapes. -/
def Encoded.ofChars {p : UInt8 → Prop} (s : CString) (h : ∀ c ∈ s, p c) : Encoded p :=
  ⟨s, s, spells_chars h⟩

/-- `http://h/a` -/
def pathUri : HttpUri where
  secure := false
  scheme := chars ['h', 't', 't', 'p']
  host := .name (Encoded.ofChars [104] (by decide)) fun o ho => by
    have hdot : (46 : UInt8) ∈ o.text := List.mem_append_right _ List.mem_cons_self
    rw [← ho] at hdot
    exact absurd hdot (by decide)
  port := none
  path := Encoded.ofChars [47, 97] (by decide)
  query := none
  schemeName := by decide
  portDigits ds h := absurd h.symm (Option.some_ne_none ds)
  pathAbsolute _ h := (Option.some.inj h).symm

/-- The name without a port swallows the path. -/
theorem not_roundTrips : pathUri.text = chars "http://h/a".toList ∧
    parseUri {} pathUri.text = some (some {
      scheme := some (chars ['h', 't', 't', 'p'])
      name := some (chars ['h', '/', 'a'])
      port := 80 }) ∧
    ¬pathUri.RoundTrips := by
  refine ⟨by decide, by decide, fun h => ?_⟩
  have hread := (pathUri.parses_iff.mp h.1).1
  exact absurd (hread.2 rfl) (List.cons_ne_nil _ _)

end SeClient
