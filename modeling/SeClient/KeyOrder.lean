import Mathlib.Data.Set.Basic
import Mathlib.Tactic.Ring
import SeClient.Numerals

/-!
# The order of lists

`compare_keys` of `se_object.c` and the keys of `se_list.c`, by which `insert_se_object` and
`insert_stub` place the items of a list.  An object is what it has in the fields of the keys.
-/

namespace SeClient

/-! ## Insertion by a comparison -/

section Insertion
variable {α : Type} (compare : α → α → ℤ)

/-- `insert_se_object` -/
def insertSeObject (list : List α) (n : α) : List α :=
  let before := fun l => decide (0 < compare n l)
  list.takeWhile before ++ n :: list.dropWhile before

/-- `insert_stub` -/
def insertStub [DecidableEq α] (list : List α) (s : α) : List α :=
  if s ∈ list then list
  else
    let before := fun r => decide (0 ≤ compare s r)
    list.takeWhile before ++ s :: list.dropWhile before

end Insertion

/-! ## Keys -/

/-- The types of keys. -/
inductive KeyType
  | string | anyUri | hexBinary (n : ℕ) | integer (t : XsInteger)
deriving DecidableEq, Repr

/-- The field of a URI: the bytes of the pointer, as far as there is no zero, and the text it points
to. -/
structure UriField where
  pointer : CString
  text : CString
deriving DecidableEq, Repr

/-- What is stored for a key. -/
abbrev KeyType.Value : KeyType → Type
  | .string => CString
  | .anyUri => UriField
  | .hexBinary n => {b : List UInt8 // b.length = n}
  | .integer t => {v : ℤ // t.InRange v}

/-- `Key`: its type, negative for a descending one. -/
structure Key where
  descending : Bool
  type : KeyType
deriving DecidableEq, Repr

/-- What an object has in the fields of its keys. -/
abbrev KeyedObject : List Key → Type
  | [] => Unit
  | k :: ks => k.type.Value × KeyedObject ks

/-- The list types of `se_list_info`. -/
inductive ListType
  | billingPeriodList | billingReadingList | billingReadingSetList
  | consumptionTariffIntervalList | creditRegisterList | customerAccountList
  | customerAgreementList | derControlList | derCurveList | derList | derProgramList
  | demandResponseProgramList | endDeviceControlList | endDeviceList
  | flowReservationRequestList | flowReservationResponseList | functionSetAssignmentsList
  | historicalReadingList | ipAddrList | ipInterfaceList | llInterfaceList | logEventList
  | messagingProgramList | meterReadingList | mirrorUsagePointList | notificationList
  | prepaymentList | projectionReadingList | rplInstanceList | rplSourceRoutesList
  | rateComponentList | readingList | readingSetList | responseList | responseSetList
  | subscriptionList | supplyInterruptionOverrideList | targetReadingList | tariffProfileList
  | textMessageList | timeTariffIntervalList | usagePointList
deriving DecidableEq, Repr

/-- The keys of `se_list_info`. -/
def ListType.keys : ListType → List Key
  -- mRID
  | .functionSetAssignmentsList | .messagingProgramList | .meterReadingList
  | .mirrorUsagePointList | .prepaymentList | .rateComponentList | .responseSetList
  | .tariffProfileList | .usagePointList => [⟨true, .hexBinary 16⟩]
  -- href
  | .derList | .notificationList | .subscriptionList => [⟨false, .anyUri⟩]
  -- interval.start (intervalRequested.start), creationTime, mRID
  | .derControlList | .endDeviceControlList | .flowReservationRequestList
  | .flowReservationResponseList | .timeTariffIntervalList =>
    [⟨false, .integer .long⟩, ⟨true, .integer .long⟩, ⟨true, .hexBinary 16⟩]
  -- interval.start, creationTime, mRID
  | .textMessageList => [⟨true, .integer .long⟩, ⟨true, .integer .long⟩, ⟨true, .hexBinary 16⟩]
  -- timePeriod.start (effectiveTime, creationTime), mRID
  | .billingReadingSetList | .readingSetList | .creditRegisterList | .derCurveList =>
    [⟨true, .integer .long⟩, ⟨true, .hexBinary 16⟩]
  -- customerName (serviceLocation, description), mRID
  | .customerAccountList | .customerAgreementList | .historicalReadingList
  | .projectionReadingList | .targetReadingList => [⟨false, .string⟩, ⟨true, .hexBinary 16⟩]
  -- interval.start, href
  | .billingPeriodList => [⟨false, .integer .long⟩, ⟨false, .anyUri⟩]
  -- timePeriod.start, consumptionBlock, touTier
  | .billingReadingList =>
    [⟨false, .integer .long⟩, ⟨false, .integer .ubyte⟩, ⟨false, .integer .ubyte⟩]
  -- startValue
  | .consumptionTariffIntervalList => [⟨false, .integer .ulong⟩]
  -- primacy, mRID
  | .derProgramList => [⟨false, .integer .ubyte⟩, ⟨true, .hexBinary 16⟩]
  | .demandResponseProgramList => [⟨false, .integer .ubyte⟩, ⟨false, .hexBinary 16⟩]
  -- sFDI, href
  | .endDeviceList => [⟨false, .integer .ulong⟩, ⟨false, .anyUri⟩]
  -- address
  | .ipAddrList => [⟨false, .hexBinary 16⟩]
  -- ifIndex
  | .ipInterfaceList => [⟨false, .integer .uint⟩]
  -- EUI64
  | .llInterfaceList => [⟨false, .hexBinary 8⟩]
  -- createdDateTime, logEventID
  | .logEventList => [⟨false, .integer .long⟩, ⟨false, .integer .ushort⟩]
  -- DODAGid, RPLInstanceID
  | .rplInstanceList => [⟨false, .integer .ubyte⟩, ⟨false, .integer .ubyte⟩]
  -- SourceRoute, DestAddress
  | .rplSourceRoutesList => [⟨false, .hexBinary 16⟩, ⟨false, .hexBinary 16⟩]
  -- localID, consumptionBlock, touTier
  | .readingList => [⟨false, .hexBinary 2⟩, ⟨false, .integer .ubyte⟩, ⟨false, .integer .ubyte⟩]
  -- createdDateTime, endDeviceLFDI
  | .responseList => [⟨true, .integer .long⟩, ⟨false, .hexBinary 20⟩]
  -- interval.start, interval.duration
  | .supplyInterruptionOverrideList => [⟨false, .integer .long⟩, ⟨false, .integer .uint⟩]

/-! ## Comparison -/

/-- `strcmp`, of which the sign counts. -/
def strcmp : CString → CString → ℤ
  | [], [] => 0
  | [], _ :: _ => -1
  | _ :: _, [] => 1
  | c :: s, d :: t => if c < d then -1 else if d < c then 1 else strcmp s t

/-- The loop of `compare_binary`, from the last byte. -/
def compareBytes : List UInt8 → List UInt8 → ℤ
  | a :: s, b :: t => if a < b then -1 else if b < a then 1 else compareBytes s t
  | _, _ => 0

/-- `compare_binary` -/
def compareBinary (a b : List UInt8) : ℤ := compareBytes a.reverse b.reverse

/-- `compare_uint`, and the difference of signed numbers, as an `int`. -/
def compareInteger (t : XsInteger) (x y : ℤ) : ℤ :=
  if t.signed then toInt32 (x - y) else if x < y then -1 else toInt32 (x - y)

/-- The switch of `compare_key`. -/
def compareValue : (t : KeyType) → t.Value → t.Value → ℤ
  | .string, x, y => strcmp x y
  | .anyUri, x, y => strcmp x.pointer y.pointer
  | .hexBinary _, x, y => compareBinary x.val y.val
  | .integer t, x, y => compareInteger t x.val y.val

/-- `compare_key` -/
def compareKey (k : Key) (x y : k.type.Value) : ℤ :=
  if k.descending then compareValue k.type y x else compareValue k.type x y

/-- `compare_keys` -/
def compareKeys : (ks : List Key) → KeyedObject ks → KeyedObject ks → ℤ
  | [], _, _ => 0
  | k :: ks, a, b =>
    let ret := compareKey k a.1 b.1
    if ret ≠ 0 then ret else compareKeys ks a.2 b.2

/-! ## The order of the values -/

/-- The bytes of a text, as numbers. -/
def codes (s : CString) : List ℕ := s.map UInt8.toNat

/-- The number that bytes are, with the most significant byte first. -/
def bigEndian (b : List UInt8) : ℕ := b.foldl (fun v c => v * 256 + c.toNat) 0

/-- The order of values: texts by their bytes, binary values and numbers by value. -/
def valueOrder : (t : KeyType) → t.Value → t.Value → Ordering
  | .string => compareOn codes
  | .anyUri => compareOn fun x : UriField => codes x.text
  | .hexBinary n => compareOn fun x : {b : List UInt8 // b.length = n} => bigEndian x.val
  | .integer t => compareOn fun x : {v : ℤ // t.InRange v} => x.val

/-- The order of a key. -/
def keyOrder (k : Key) (x y : k.type.Value) : Ordering :=
  if k.descending then valueOrder k.type y x else valueOrder k.type x y

/-- The order of objects: by the first key in which they differ. -/
def objectOrder : (ks : List Key) → KeyedObject ks → KeyedObject ks → Ordering
  | [], _, _ => .eq
  | k :: ks, a, b => (keyOrder k a.1 b.1).then (objectOrder ks a.2 b.2)

/-- A result of a comparison has the sign of an order. -/
def Agrees (z : ℤ) (o : Ordering) : Prop := (z < 0 ↔ o = .lt) ∧ (0 < z ↔ o = .gt)

/-- A list is sorted. -/
def SortedBy {α : Type} {ks : List Key} (data : α → KeyedObject ks) (l : List α) : Prop :=
  l.Pairwise fun a b => objectOrder ks (data a) (data b) ≠ .gt

/-- **The order of a list** on a set of objects: `compare_keys` is a total preorder, by the values
of the keys, and what is inserted into a sorted list is placed in order, once. -/
structure OrdersList (ks : List Key) (u : Set (KeyedObject ks)) : Prop where
  byKeys : ∀ a ∈ u, ∀ b ∈ u, Agrees (compareKeys ks a b) (objectOrder ks a b)
  antisymm : ∀ a ∈ u, ∀ b ∈ u, (compareKeys ks b a).sign = -(compareKeys ks a b).sign
  trans : ∀ a ∈ u, ∀ b ∈ u, ∀ c ∈ u, compareKeys ks a b ≤ 0 → compareKeys ks b c ≤ 0 →
    compareKeys ks a c ≤ 0
  object : ∀ {α : Type} (data : α → KeyedObject ks) (l : List α) (n : α),
    (∀ a ∈ n :: l, data a ∈ u) → SortedBy data l →
      SortedBy data (insertSeObject (fun a b => compareKeys ks (data a) (data b)) l n) ∧
        (insertSeObject (fun a b => compareKeys ks (data a) (data b)) l n).Perm (n :: l)
  stub : ∀ {α : Type} [DecidableEq α] (data : α → KeyedObject ks) (l : List α) (s : α),
    (∀ a ∈ s :: l, data a ∈ u) → SortedBy data l →
      SortedBy data (insertStub (fun a b => compareKeys ks (data a) (data b)) l s) ∧
        (insertStub (fun a b => compareKeys ks (data a) (data b)) l s).Perm
          (if s ∈ l then l else s :: l)

/-! ## Where the order is right -/

/-- The values that the field of each key may have. -/
abbrev KeyRanges : List Key → Type
  | [] => Unit
  | k :: ks => {s : Set k.type.Value // s.Nonempty} × KeyRanges ks

/-- The objects with these values. -/
def KeyRanges.objects : (ks : List Key) → KeyRanges ks → Set (KeyedObject ks)
  | [], _ => Set.univ
  | _ :: ks, d => {a | a.1 ∈ d.1.val ∧ a.2 ∈ objects ks d.2}

/-- What `compare_key` makes of the values of a set is their order: numbers differ by less than
`2 ^ 31`, but for a multiple of `2 ^ 32`, binary values compare as they do from their last byte, and
pointers to URIs compare as the texts. -/
def KeyType.Comparable : (t : KeyType) → Set t.Value → Prop
  | .string, _ => True
  | .anyUri, s => ∀ x ∈ s, ∀ y ∈ s,
      compareOn (fun x : UriField => codes x.pointer) x y = compareOn (fun x => codes x.text) x y
  | .hexBinary _, s => ∀ x ∈ s, ∀ y ∈ s, bigEndian x.val < bigEndian y.val →
      bigEndian x.val.reverse < bigEndian y.val.reverse
  | .integer _, s => ∀ x ∈ s, ∀ y ∈ s, y.val < x.val →
      0 < (x.val - y.val) % 2 ^ 32 ∧ (x.val - y.val) % 2 ^ 32 < 2 ^ 31

/-- The values of all keys are comparable. -/
def KeyRanges.Comparable : (ks : List Key) → KeyRanges ks → Prop
  | [], _ => True
  | k :: ks, d => k.type.Comparable d.1.val ∧ Comparable ks d.2

/-! ## Insertion into a sorted list -/

section Place
variable {α : Type} {r : α → α → Prop} {p : α → Bool} {n : α} {l : List α}

/-- What is placed behind what goes before it, and in front of the first that does not, keeps a list
in order. -/
theorem place_sorted (htrans : ∀ a ∈ n :: l, ∀ b ∈ n :: l, ∀ c ∈ n :: l, r a b → r b c → r a c)
    (hbefore : ∀ a ∈ l, p a = true → r a n) (hbehind : ∀ a ∈ l, p a = false → r n a)
    (hl : l.Pairwise r) : (l.takeWhile p ++ n :: l.dropWhile p).Pairwise r := by
  induction l with
  | nil => exact List.pairwise_singleton r n
  | cons a l ih =>
    obtain ⟨ha, hl⟩ := List.pairwise_cons.mp hl
    have hsub : ∀ b ∈ n :: l, b ∈ n :: a :: l := fun b hb =>
      (List.mem_cons.mp hb).elim (fun h => h ▸ List.mem_cons_self)
        fun h => List.mem_cons_of_mem n (List.mem_cons_of_mem a h)
    have ham : a ∈ n :: a :: l := List.mem_cons_of_mem n List.mem_cons_self
    cases hp : p a with
    | true =>
      rw [List.takeWhile_cons_of_pos hp, List.dropWhile_cons_of_pos hp, List.cons_append,
        List.pairwise_cons]
      refine ⟨fun b hb => ?_, ih (fun b hb c hc d hd => htrans b (hsub b hb) c (hsub c hc) d
        (hsub d hd)) (fun b hb => hbefore b (List.mem_cons_of_mem a hb))
        (fun b hb => hbehind b (List.mem_cons_of_mem a hb)) hl⟩
      rcases List.mem_append.mp hb with hb | hb
      · exact ha b ((List.takeWhile_prefix p).subset hb)
      · rcases List.mem_cons.mp hb with rfl | hb
        · exact hbefore a List.mem_cons_self hp
        · exact ha b ((List.dropWhile_suffix p).subset hb)
    | false =>
      have hpa : ¬p a = true := by
        rw [hp]
        exact Bool.false_ne_true
      rw [List.takeWhile_cons_of_neg hpa, List.dropWhile_cons_of_neg hpa, List.nil_append,
        List.pairwise_cons]
      have hna := hbehind a List.mem_cons_self hp
      refine ⟨fun b hb => ?_, List.pairwise_cons.mpr ⟨ha, hl⟩⟩
      rcases List.mem_cons.mp hb with rfl | hb
      · exact hna
      · exact htrans n List.mem_cons_self a ham b (hsub b (List.mem_cons_of_mem n hb)) hna (ha b hb)

theorem place_perm (p : α → Bool) (n : α) (l : List α) :
    (l.takeWhile p ++ n :: l.dropWhile p).Perm (n :: l) := by
  refine List.perm_middle.trans ?_
  rw [List.takeWhile_append_dropWhile]

end Place

/-! ## The order -/

instance (t : KeyType) : Std.TransCmp (valueOrder t) := by
  cases t with
  | string => exact inferInstanceAs (Std.TransCmp (compareOn codes))
  | anyUri => exact inferInstanceAs (Std.TransCmp (compareOn fun x : UriField => codes x.text))
  | hexBinary n =>
    exact inferInstanceAs (Std.TransCmp
      (compareOn fun x : {b : List UInt8 // b.length = n} => bigEndian x.val))
  | integer t =>
    exact inferInstanceAs (Std.TransCmp (compareOn fun x : {v : ℤ // t.InRange v} => x.val))

instance (k : Key) : Std.TransCmp (keyOrder k) := by
  unfold keyOrder
  cases k.descending
  · exact inferInstanceAs (Std.TransCmp fun x y => valueOrder k.type x y)
  · exact inferInstanceAs (Std.TransCmp fun x y => valueOrder k.type y x)

theorem objectOrder_trans (ks : List Key) : Std.TransCmp (objectOrder ks) := by
  induction ks with
  | nil =>
    refine { eq_swap := rfl, isLE_trans := fun _ _ => rfl }
  | cons k ks ih =>
    have hfst : Std.TransCmp fun a b : KeyedObject (k :: ks) => keyOrder k a.1 b.1 :=
      { eq_swap := Std.OrientedCmp.eq_swap, isLE_trans := Std.TransCmp.isLE_trans }
    have hsnd : Std.TransCmp fun a b : KeyedObject (k :: ks) => objectOrder ks a.2 b.2 :=
      { eq_swap := Std.OrientedCmp.eq_swap, isLE_trans := Std.TransCmp.isLE_trans }
    exact inferInstanceAs (Std.TransCmp (compareLex
      (fun a b : KeyedObject (k :: ks) => keyOrder k a.1 b.1) fun a b => objectOrder ks a.2 b.2))

/-! ## Agreement -/

section Agreement
variable {z : ℤ} {o o' : Ordering}

theorem agrees_lt (h : z < 0) : Agrees z .lt := ⟨iff_of_true h rfl, iff_of_false (by omega) nofun⟩

theorem agrees_gt (h : 0 < z) : Agrees z .gt := ⟨iff_of_false (by omega) nofun, iff_of_true h rfl⟩

theorem agrees_eq : Agrees 0 .eq := ⟨iff_of_false (by omega) nofun, iff_of_false (by omega) nofun⟩

theorem Agrees.eq_iff (h : Agrees z o) : z = 0 ↔ o = .eq := by
  obtain ⟨hlt, hgt⟩ := h
  cases o with
  | lt => exact iff_of_false (by have := hlt.mpr rfl; omega) nofun
  | gt => exact iff_of_false (by have := hgt.mpr rfl; omega) nofun
  | eq =>
    refine iff_of_true ?_ rfl
    have hnlt : ¬z < 0 := fun h => nomatch hlt.mp h
    have hngt : ¬0 < z := fun h => nomatch hgt.mp h
    omega

theorem Agrees.le_iff (h : Agrees z o) : z ≤ 0 ↔ o ≠ .gt := by
  rw [ne_eq, ← h.2, not_lt]

theorem Agrees.unique (h : Agrees z o) (h' : Agrees z o') : o = o' := by
  cases o with
  | lt => exact (h'.1.mp (h.1.mpr rfl)).symm
  | gt => exact (h'.2.mp (h.2.mpr rfl)).symm
  | eq => exact (h'.eq_iff.mp (h.eq_iff.mpr rfl)).symm

/-- The comparison of numbers. -/
theorem agrees_compare {x y : ℤ} (hlt : x < y → z < 0) (heq : x = y → z = 0) (hgt : y < x → 0 < z) :
    Agrees z (compare x y) := by
  rcases lt_trichotomy x y with h | h | h
  · rw [compare_lt_iff_lt.mpr h]
    exact agrees_lt (hlt h)
  · rw [compare_eq_iff_eq.mpr h, heq h]
    exact agrees_eq
  · rw [compare_gt_iff_gt.mpr h]
    exact agrees_gt (hgt h)

/-- **`strcmp`** compares the bytes of texts. -/
theorem strcmp_agrees (s t : CString) : Agrees (strcmp s t) (compareOn codes s t) := by
  unfold compareOn codes
  induction s generalizing t with
  | nil =>
    cases t with
    | nil => exact agrees_eq
    | cons d t => exact agrees_lt neg_one_lt_zero
  | cons c s ih =>
    cases t with
    | nil => exact agrees_gt one_pos
    | cons d t =>
      rw [strcmp, List.map_cons, List.map_cons, List.compare_cons_cons]
      split_ifs with hlt hgt
      · rw [compare_lt_iff_lt.mpr (UInt8.lt_iff_toNat_lt.mp hlt)]
        exact agrees_lt (by decide)
      · rw [compare_gt_iff_gt.mpr (UInt8.lt_iff_toNat_lt.mp hgt)]
        exact agrees_gt (by decide)
      · have heq : c.toNat = d.toNat := by
          have h₁ := UInt8.lt_iff_toNat_lt.not.mp hlt
          have h₂ := UInt8.lt_iff_toNat_lt.not.mp hgt
          omega
        rw [compare_eq_iff_eq.mpr heq]
        exact ih t

/-! ## Binary values -/

theorem foldl_bytes (b : List UInt8) (v : ℕ) :
    b.foldl (fun v c => v * 256 + c.toNat) v = v * 256 ^ b.length + bigEndian b := by
  unfold bigEndian
  induction b generalizing v with
  | nil => simp
  | cons c b ih =>
    rw [List.foldl_cons, List.foldl_cons, ih, ih (0 * 256 + c.toNat), List.length_cons, pow_succ']
    ring

theorem bigEndian_cons (c : UInt8) (b : List UInt8) :
    bigEndian (c :: b) = c.toNat * 256 ^ b.length + bigEndian b := by
  have h := foldl_bytes b (0 * 256 + c.toNat)
  rw [zero_mul, zero_add] at h
  unfold bigEndian at h ⊢
  rw [List.foldl_cons, zero_mul, zero_add]
  exact h

theorem bigEndian_lt (b : List UInt8) : bigEndian b < 256 ^ b.length := by
  induction b with
  | nil => decide
  | cons c b ih =>
    rw [bigEndian_cons, List.length_cons, pow_succ']
    have hc : c.toNat + 1 ≤ 256 := c.toNat_lt
    calc c.toNat * 256 ^ b.length + bigEndian b < c.toNat * 256 ^ b.length + 256 ^ b.length :=
          Nat.add_lt_add_left ih _
      _ = (c.toNat + 1) * 256 ^ b.length := by ring
      _ ≤ 256 * 256 ^ b.length := Nat.mul_le_mul_right _ hc

/-- A greater first byte makes a greater value. -/
theorem bigEndian_cons_lt {c d : UInt8} {s t : List UInt8} (hlength : s.length = t.length)
    (h : c < d) : bigEndian (c :: s) < bigEndian (d :: t) := by
  rw [bigEndian_cons, bigEndian_cons, hlength]
  have hs := bigEndian_lt s
  rw [hlength] at hs
  have hcd : c.toNat + 1 ≤ d.toNat := UInt8.lt_iff_toNat_lt.mp h
  calc c.toNat * 256 ^ t.length + bigEndian s < (c.toNat + 1) * 256 ^ t.length := by
        rw [add_mul, one_mul]
        exact Nat.add_lt_add_left hs _
    _ ≤ d.toNat * 256 ^ t.length := Nat.mul_le_mul_right _ hcd
    _ ≤ d.toNat * 256 ^ t.length + bigEndian t := Nat.le_add_right _ _

theorem bigEndian_injective {s t : List UInt8} (hlength : s.length = t.length)
    (h : bigEndian s = bigEndian t) : s = t := by
  induction s generalizing t with
  | nil => exact (List.length_eq_zero_iff.mp hlength.symm).symm
  | cons c s ih =>
    cases t with
    | nil => exact absurd hlength (Nat.succ_ne_zero _)
    | cons d t =>
      have hlength := Nat.succ.inj hlength
      rcases lt_trichotomy c.toNat d.toNat with hlt | heq | hgt
      · have hless := bigEndian_cons_lt hlength (UInt8.lt_iff_toNat_lt.mpr hlt)
        exact absurd h (Nat.ne_of_lt hless)
      · rw [bigEndian_cons, bigEndian_cons, hlength, heq] at h
        rw [ih hlength (Nat.add_left_cancel h), UInt8.toNat_inj.mp heq]
      · have hless := bigEndian_cons_lt hlength.symm (UInt8.lt_iff_toNat_lt.mpr hgt)
        exact absurd h.symm (Nat.ne_of_lt hless)

theorem compareBytes_agrees {s t : List UInt8} (hlength : s.length = t.length) :
    Agrees (compareBytes s t) (compare (bigEndian s) (bigEndian t)) := by
  induction s generalizing t with
  | nil =>
    obtain rfl := List.length_eq_zero_iff.mp hlength.symm
    exact agrees_eq
  | cons c s ih =>
    cases t with
    | nil => exact absurd hlength (Nat.succ_ne_zero _)
    | cons d t =>
      have hlength := Nat.succ.inj hlength
      rw [compareBytes]
      split_ifs with hlt hgt
      · rw [compare_lt_iff_lt.mpr (bigEndian_cons_lt hlength hlt)]
        exact agrees_lt (by decide)
      · rw [compare_gt_iff_gt.mpr (bigEndian_cons_lt hlength.symm hgt)]
        exact agrees_gt (by decide)
      · have heq : c.toNat = d.toNat := by
          have h₁ := UInt8.lt_iff_toNat_lt.not.mp hlt
          have h₂ := UInt8.lt_iff_toNat_lt.not.mp hgt
          omega
        have hcompare : compare (bigEndian (c :: s)) (bigEndian (d :: t)) =
            compare (bigEndian s) (bigEndian t) := by
          rw [bigEndian_cons, bigEndian_cons, hlength, heq]
          rcases lt_trichotomy (bigEndian s) (bigEndian t) with h | h | h
          · rw [compare_lt_iff_lt.mpr h, compare_lt_iff_lt.mpr (Nat.add_lt_add_left h _)]
          · rw [h, compare_eq_iff_eq.mpr rfl, compare_eq_iff_eq.mpr rfl]
          · rw [compare_gt_iff_gt.mpr h, compare_gt_iff_gt.mpr (Nat.add_lt_add_left h _)]
        rw [hcompare]
        exact ih hlength

/-! ## Numbers -/

theorem toInt32_pos_iff {d : ℤ} : 0 < toInt32 d ↔ 0 < d % 2 ^ 32 ∧ d % 2 ^ 32 < 2 ^ 31 := by
  unfold toInt32
  rw [Int.bmod_def]
  norm_num
  omega

theorem toInt32_neg {d : ℤ} (h : 0 < -d % 2 ^ 32 ∧ -d % 2 ^ 32 < 2 ^ 31) : toInt32 d < 0 := by
  unfold toInt32
  rw [Int.bmod_def]
  norm_num at h ⊢
  omega

/-- Numbers compare as they should where the difference is small, but for a multiple of `2 ^ 32`. -/
theorem compareInteger_agrees (t : XsInteger) {x y : ℤ}
    (hgt : y < x → 0 < (x - y) % 2 ^ 32 ∧ (x - y) % 2 ^ 32 < 2 ^ 31)
    (hlt : x < y → 0 < (y - x) % 2 ^ 32 ∧ (y - x) % 2 ^ 32 < 2 ^ 31) :
    Agrees (compareInteger t x y) (compare x y) := by
  have hzero : toInt32 0 = 0 := by decide
  unfold compareInteger
  refine agrees_compare (fun h => ?_) (fun h => ?_) (fun h => ?_)
  · split_ifs
    · have hneg := hlt h
      rw [← neg_sub x y] at hneg
      exact toInt32_neg hneg
    · exact neg_one_lt_zero
  · rw [h, sub_self, hzero, if_neg (lt_irrefl y), ite_self]
  · rw [if_neg (not_lt_of_gt h), ite_self]
    exact toInt32_pos_iff.mpr (hgt h)

/-! ## Keys -/

variable {t : KeyType} {k : Key}

/-- **`compare_key`** orders the values of a set that are comparable. -/
theorem compareValue_agrees_iff (t : KeyType) (s : Set t.Value) :
    (∀ x ∈ s, ∀ y ∈ s, Agrees (compareValue t x y) (valueOrder t x y)) ↔ t.Comparable s := by
  cases t with
  | string => exact iff_of_true (fun x _ y _ => strcmp_agrees x y) trivial
  | anyUri =>
    constructor
    · exact fun h x hx y hy => (strcmp_agrees x.pointer y.pointer).unique (h x hx y hy)
    · rintro h x hx y hy
      have heq := h x hx y hy
      exact (congrArg (Agrees _) heq).mp (strcmp_agrees x.pointer y.pointer)
  | hexBinary n =>
    have hbytes : ∀ x y : {b : List UInt8 // b.length = n},
        Agrees (compareValue (.hexBinary n) x y)
          (compare (bigEndian x.val.reverse) (bigEndian y.val.reverse)) := fun x y =>
      compareBytes_agrees (by rw [List.length_reverse, List.length_reverse, x.2, y.2])
    constructor
    · rintro h x hx y hy hlt
      have heq := (hbytes x y).unique (h x hx y hy)
      exact compare_lt_iff_lt.mp (heq.trans (compare_lt_iff_lt.mpr hlt))
    · rintro h x hx y hy
      have hbytes := hbytes x y
      show Agrees _ (compare (bigEndian x.val) (bigEndian y.val))
      rcases lt_trichotomy (bigEndian x.val) (bigEndian y.val) with hlt | heq | hgt
      · rw [compare_lt_iff_lt.mpr (h x hx y hy hlt)] at hbytes
        rwa [compare_lt_iff_lt.mpr hlt]
      · have hxy := bigEndian_injective (x.2.trans y.2.symm) heq
        rw [hxy, compare_eq_iff_eq.mpr rfl] at hbytes
        rwa [compare_eq_iff_eq.mpr heq]
      · rw [compare_gt_iff_gt.mpr (h y hy x hx hgt)] at hbytes
        rwa [compare_gt_iff_gt.mpr hgt]
  | integer it =>
    constructor
    · rintro h x hx y hy hlt
      have hpos := (h x hx y hy).2.mpr (compare_gt_iff_gt.mpr hlt)
      have hdiff : compareValue (.integer it) x y = toInt32 (x.val - y.val) := by
        show compareInteger it x.val y.val = _
        unfold compareInteger
        rw [if_neg (not_lt_of_gt hlt), ite_self]
      rw [hdiff] at hpos
      exact toInt32_pos_iff.mp hpos
    · exact fun h x hx y hy => compareInteger_agrees it (h x hx y hy) (h y hy x hx)

theorem compareKey_agrees_iff (k : Key) (s : Set k.type.Value) :
    (∀ x ∈ s, ∀ y ∈ s, Agrees (compareKey k x y) (keyOrder k x y)) ↔ k.type.Comparable s := by
  rw [← compareValue_agrees_iff]
  unfold compareKey keyOrder
  cases k.descending
  · exact Iff.rfl
  · exact ⟨fun h x hx y hy => h y hy x hx, fun h x hx y hy => h y hy x hx⟩

/-- A value compares equal to itself. -/
theorem compareValue_self : (t : KeyType) → (x : t.Value) → compareValue t x x = 0
  | .string, x => (strcmp_agrees x x).eq_iff.mpr Std.ReflOrd.compare_self
  | .anyUri, x => (strcmp_agrees x.pointer x.pointer).eq_iff.mpr Std.ReflOrd.compare_self
  | .hexBinary _, _ => (compareBytes_agrees rfl).eq_iff.mpr (compare_eq_iff_eq.mpr rfl)
  | .integer t, x =>
    have hself : ¬x.val < x.val := lt_irrefl x.val
    (compareInteger_agrees t (absurd · hself) (absurd · hself)).eq_iff.mpr
      (compare_eq_iff_eq.mpr rfl)

theorem compareKey_self (k : Key) (x : k.type.Value) : compareKey k x x = 0 := by
  unfold compareKey
  rw [compareValue_self, ite_self]

theorem compareKeys_cons (k : Key) {ks : List Key} (a b : KeyedObject (k :: ks)) :
    compareKeys (k :: ks) a b =
      if compareKey k a.1 b.1 ≠ 0 then compareKey k a.1 b.1 else compareKeys ks a.2 b.2 := rfl

theorem objectOrder_cons (k : Key) {ks : List Key} (a b : KeyedObject (k :: ks)) :
    objectOrder (k :: ks) a b = (keyOrder k a.1 b.1).then (objectOrder ks a.2 b.2) := rfl

theorem compareKeys_self (ks : List Key) (a : KeyedObject ks) : compareKeys ks a a = 0 := by
  induction ks with
  | nil => rfl
  | cons k ks ih =>
    rw [compareKeys_cons, compareKey_self, if_neg (not_not_intro rfl)]
    exact ih a.2

/-- The first key that differs decides. -/
theorem compareKeys_agrees {ks : List Key} {a b : KeyedObject (k :: ks)}
    (hkey : Agrees (compareKey k a.1 b.1) (keyOrder k a.1 b.1))
    (hkeys : Agrees (compareKeys ks a.2 b.2) (objectOrder ks a.2 b.2)) :
    Agrees (compareKeys (k :: ks) a b) (objectOrder (k :: ks) a b) := by
  rw [compareKeys_cons, objectOrder_cons]
  by_cases hzero : compareKey k a.1 b.1 = 0
  · rw [if_neg (not_not_intro hzero), hkey.eq_iff.mp hzero]
    exact hkeys
  · rw [if_pos hzero]
    have hne := hkey.eq_iff.not.mp hzero
    cases horder : keyOrder k a.1 b.1 with
    | eq => exact absurd horder hne
    | _ => rwa [horder] at hkey

theorem KeyRanges.exists_object : (ks : List Key) → (d : KeyRanges ks) → ∃ a, a ∈ objects ks d
  | [], _ => ⟨(), trivial⟩
  | _ :: ks, d =>
    have ⟨x, hx⟩ := d.1.2
    have ⟨a, ha⟩ := exists_object ks d.2
    ⟨(x, a), hx, ha⟩

/-- **`compare_keys`** orders objects by their keys exactly when the values of each key are
comparable. -/
theorem compareKeys_agrees_iff (ks : List Key) (d : KeyRanges ks) :
    (∀ a ∈ KeyRanges.objects ks d, ∀ b ∈ KeyRanges.objects ks d,
      Agrees (compareKeys ks a b) (objectOrder ks a b)) ↔ KeyRanges.Comparable ks d := by
  induction ks with
  | nil => exact iff_of_true (fun _ _ _ _ => agrees_eq) trivial
  | cons k ks ih =>
    constructor
    · rintro h
      constructor
      · -- objects that differ in this key alone
        refine (compareKey_agrees_iff k d.1.val).mp fun x hx y hy => ?_
        obtain ⟨r, hr⟩ := KeyRanges.exists_object ks d.2
        have hpair := h (x, r) ⟨hx, hr⟩ (y, r) ⟨hy, hr⟩
        have := objectOrder_trans ks
        have hself : objectOrder ks r r = .eq := Std.ReflCmp.compare_self
        rw [compareKeys_cons, objectOrder_cons] at hpair
        dsimp only at hpair
        rw [compareKeys_self, hself, Ordering.then_eq] at hpair
        by_cases hzero : compareKey k x y = 0
        · rw [if_neg (not_not_intro hzero)] at hpair
          rwa [hzero]
        · rwa [if_pos hzero] at hpair
      · -- objects that have the same value of this key
        refine (ih d.2).mp fun a ha b hb => ?_
        obtain ⟨x, hx⟩ := d.1.2
        have hpair := h (x, a) ⟨hx, ha⟩ (x, b) ⟨hx, hb⟩
        have hself : keyOrder k x x = .eq := Std.ReflCmp.compare_self
        rw [compareKeys_cons, objectOrder_cons] at hpair
        dsimp only at hpair
        rwa [compareKey_self, if_neg (not_not_intro rfl), hself] at hpair
    · rintro ⟨hkey, hkeys⟩ a ha b hb
      exact compareKeys_agrees ((compareKey_agrees_iff k d.1.val).mpr hkey a.1 ha.1 b.1 hb.1)
        ((ih d.2).mpr hkeys a.2 ha.2 b.2 hb.2)

end Agreement

/-! ## Lists -/

section Lists
variable {ks : List Key} {u : Set (KeyedObject ks)}

/-- A comparison that agrees with the order of the objects is a total preorder and keeps lists in
order. -/
theorem ordersList_of_agrees
    (h : ∀ a ∈ u, ∀ b ∈ u, Agrees (compareKeys ks a b) (objectOrder ks a b)) : OrdersList ks u := by
  have htrans := objectOrder_trans ks
  have hgt : ∀ {a b : KeyedObject ks}, objectOrder ks a b = .gt ↔ objectOrder ks b a = .lt :=
    Std.OrientedCmp.gt_iff_lt
  have hle : ∀ {a b c : KeyedObject ks}, objectOrder ks a b ≠ .gt → objectOrder ks b c ≠ .gt →
      objectOrder ks a c ≠ .gt := by
    simp only [← Ordering.isLE_iff_ne_gt]
    exact Std.TransCmp.isLE_trans
  refine ⟨h, fun a ha b hb => ?_, fun a ha b hb c hc hab hbc => ?_, fun data l n hu hl => ?_,
    fun data l s hu hl => ?_⟩
  · have hab := h a ha b hb
    have hba := h b hb a ha
    rcases lt_trichotomy (compareKeys ks a b) 0 with hneg | hzero | hpos
    · have hback := hba.2.mpr (hgt.mpr (hab.1.mp hneg))
      rw [Int.sign_eq_neg_one_of_neg hneg, Int.sign_eq_one_of_pos hback]
      rfl
    · have hback := hba.eq_iff.mpr (Std.OrientedCmp.eq_comm.mp (hab.eq_iff.mp hzero))
      rw [hzero, hback]
      rfl
    · have hback := hba.1.mpr (hgt.mp (hab.2.mp hpos))
      rw [Int.sign_eq_one_of_pos hpos, Int.sign_eq_neg_one_of_neg hback]
  · exact (h a ha c hc).le_iff.mpr (hle ((h a ha b hb).le_iff.mp hab) ((h b hb c hc).le_iff.mp hbc))
  · refine ⟨place_sorted (fun _ _ _ _ _ _ => hle) (fun a ha hp => ?_) (fun a ha hp => ?_) hl,
      place_perm _ n l⟩
    · have hpos := (h _ (hu n List.mem_cons_self) _ (hu a (List.mem_cons_of_mem n ha))).2.mp
        (of_decide_eq_true hp)
      exact fun hgt' => absurd (hgt.mp hpos |>.symm.trans hgt') (by decide)
    · have hle := le_of_not_gt (of_decide_eq_false hp)
      exact (h _ (hu n List.mem_cons_self) _ (hu a (List.mem_cons_of_mem n ha))).le_iff.mp hle
  · unfold insertStub
    split_ifs with hmem
    · exact ⟨hl, List.Perm.refl l⟩
    · refine ⟨place_sorted (fun _ _ _ _ _ _ => hle) (fun a ha hp => ?_) (fun a ha hp => ?_) hl,
        place_perm _ s l⟩
      · have hagrees := h _ (hu s List.mem_cons_self) _ (hu a (List.mem_cons_of_mem s ha))
        have hnlt := hagrees.1.not.mp (not_lt_of_ge (of_decide_eq_true hp))
        exact fun hgt' => hnlt (hgt.mp hgt')
      · have hagrees := h _ (hu s List.mem_cons_self) _ (hu a (List.mem_cons_of_mem s ha))
        exact hagrees.le_iff.mp (le_of_lt (lt_of_not_ge (of_decide_eq_false hp)))

end Lists

/-- **The order of a list type** is what its keys say, for objects with certain values of the keys,
exactly when the values of each key are comparable. -/
theorem ordersList_iff (type : ListType) (d : KeyRanges type.keys) :
    OrdersList type.keys (KeyRanges.objects type.keys d) ↔ KeyRanges.Comparable type.keys d :=
  (Iff.intro OrdersList.byKeys ordersList_of_agrees).trans (compareKeys_agrees_iff type.keys d)

/-- Two DERControls whose intervals start `2 ^ 31` seconds apart compare the other way. -/
theorem not_ordersList : ¬OrdersList ListType.derControlList.keys Set.univ := by
  intro h
  let mRID : {b : List UInt8 // b.length = 16} := ⟨List.replicate 16 0, rfl⟩
  let created : {v : ℤ // XsInteger.long.InRange v} := ⟨0, by decide⟩
  let late : {v : ℤ // XsInteger.long.InRange v} := ⟨2 ^ 31, by decide⟩
  let a : KeyedObject ListType.derControlList.keys := (created, created, mRID, ())
  let b : KeyedObject ListType.derControlList.keys := (late, created, mRID, ())
  have hagrees := (h.byKeys b trivial a trivial).2.mpr (by decide)
  exact absurd hagrees (by decide)

end SeClient
