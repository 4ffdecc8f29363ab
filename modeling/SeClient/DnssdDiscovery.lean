import SeClient.DnssdAnswers

/-!
# Services become complete

`dnssd_followup` calls a service complete once its SRV and TXT records have been found and its host
has an address.  Which of these a run has found is told by the first answers of the responses and
by the records behind them, since `process_answers` gives no other answer to its handler.

**Discovery** (`discovers_iff`): a run processes all answers, and each service whose records all
arrive becomes complete, exactly if the records come where they are looked for.
-/

namespace SeClient

/-- The records of a response, in all its sections: each takes more than ten bytes. -/
def DnsResponse.allRecords (R : DnsResponse) : List ResourceRecord :=
  records R.packet R.answer R.packet.bytes.length

namespace Dnssd

/-- `txt_valid` accepts the content of the record. -/
def TxtAccepted (p : Packet) (r : ResourceRecord) : Prop :=
  ∃ fuel, txtValid (fun i => p.byte (r.data + 10 + i)) fuel 0 r.length = some true

/-- An address record of the right length. -/
def IsAddress (p : Packet) (r : ResourceRecord) : Prop :=
  r.type p = aRecord ∧ r.length = 4 ∨ r.type p = aaaaRecord ∧ r.length = 16

/-- The target of the SRV record whose fields are at `data`. -/
def SrvTarget (p : Packet) (data : ℕ) (target : CString) : Prop :=
  ∃ next, p.dnsName (data + 10 + 6) = some (target, next)

/-- Whether the TXT record of a service has been found. -/
def txt (d : Dnssd) (n : CString) : Bool := (d.findService n).any (·.txtFound)

/-- Whether the SRV record of a service has been found. -/
def srv (d : Dnssd) (n : CString) : Bool := (d.findService n).any (·.srvFound)

/-- The host of a service. -/
def hostOf (d : Dnssd) (n : CString) : Option CString := (d.findService n).bind (·.host)

/-- Whether a host has an address. -/
def addressed (d : Dnssd) (h : CString) : Bool := ((d.findHost h).bind (·.addr)).isSome

/-- The first answer `r` gives the service `n` the SRV record whose fields are at `data`: it is
this record, or it introduces the instance, and this record is behind the answers. -/
def GivesSrv (d : Dnssd) (p : Packet) (ar : ℕ) (r : ResourceRecord) (n : CString) (data : ℕ) :
    Prop :=
  (r.type p = srvRecord ∧ r.name = n ∧ (d.findService n).isSome) ∧ data = r.data ∨
  d.Introduces p r n ∧ ∃ r', dnsFindLoop p n srvRecord (p.bytes.length + 1) ar = some r' ∧
    data = r'.data

/-- The first answer `r` gives the service `n` a TXT record: itself, or the one that is behind the
answers of an instance it introduces. -/
def GivesTxt (d : Dnssd) (p : Packet) (ar : ℕ) (r : ResourceRecord) (n : CString) : Prop :=
  ∃ r', TxtAccepted p r' ∧
    ((r.type p = txtRecord ∧ r.name = n ∧ (d.findService n).isSome) ∧ r' = r ∨
      d.Introduces p r n ∧ dnsFindLoop p n txtRecord (p.bytes.length + 1) ar = some r')

/-- The first answer `r` gives the service `n`, which had none, the host `h`. -/
def GivesHost (d : Dnssd) (p : Packet) (ar : ℕ) (r : ResourceRecord) (n h : CString) : Prop :=
  d.hostOf n = none ∧ ∃ data, d.GivesSrv p ar r n data ∧ SrvTarget p data h

/-- There is an address of the target behind the answers: `dns_srv` looks for an AAAA record, and
only if there is none for an A record. -/
def AddressBehind (p : Packet) (ar : ℕ) (target : CString) : Prop :=
  (∃ r, dnsFindLoop p target aaaaRecord (p.bytes.length + 1) ar = some r ∧ r.length = 16) ∨
  dnsFindLoop p target aaaaRecord (p.bytes.length + 1) ar = none ∧
    ∃ r, dnsFindLoop p target aRecord (p.bytes.length + 1) ar = some r ∧ r.length = 4

/-- The first answer `r` gives the host `h` an address: its own, or the one that is behind the
answers for the target of an SRV record, which goes to the host that the service has. -/
def GivesAddress (d : Dnssd) (p : Packet) (ar : ℕ) (r : ResourceRecord) (h : CString) : Prop :=
  (IsAddress p r ∧ r.name = h ∧ (d.findHost h).isSome) ∨
  ∃ n data target, d.GivesSrv p ar r n data ∧ SrvTarget p data target ∧
    h = (d.hostOf n).getD target ∧ AddressBehind p ar target

/-- In a run, a response has come whose first answer is of this kind. -/
def Given (fuel : ℕ) (es : List DnsEvent) (Q : Dnssd → Packet → ℕ → ResourceRecord → Prop) : Prop :=
  SomeAnswer fuel es fun d p r ar => ∃ start, ar = some start ∧ Q d p start r

/-- A record of this kind has arrived. -/
def Came (es : List DnsEvent) (Q : Packet → ResourceRecord → Prop) : Prop :=
  ∃ R : DnsResponse, .packet R.packet ∈ es ∧ ∃ r ∈ R.allRecords, Q R.packet r

/-- **All records of an instance have arrived**: the PTR record of a known question, the SRV and the
TXT record, and an address of the target. -/
structure Arrived (es : List DnsEvent) (inst : CString) : Prop where
  ptr : ∃ (past rest : List DnsEvent) (R : DnsResponse) (fuel : ℕ) (d : Dnssd),
    es = past ++ .packet R.packet :: rest ∧ dnsRun fuel past = .ok d ∧
      ∃ r ∈ R.allRecords, d.Introduces R.packet r inst
  target : ∃ target,
    (Came es fun p r => r.type p = srvRecord ∧ r.name = inst ∧ SrvTarget p r.data target) ∧
      Came es fun p r => IsAddress p r ∧ r.name = target
  txt : Came es fun p r => r.type p = txtRecord ∧ r.name = inst ∧ TxtAccepted p r

section
variable {d d' d'' : Dnssd} {fuel ar : ℕ} {p : Packet} {r : ResourceRecord}
  {n m inst name : CString} {T T' V V' A A' : CString → Prop} {S : CString → CString → Prop}

/-- Nothing has been found. -/
structure Unchanged (d d' : Dnssd) : Prop where
  txt : ∀ m, d'.txt m = d.txt m
  srv : ∀ m, d'.srv m = d.srv m
  hostOf : ∀ m, d'.hostOf m = d.hostOf m
  addressed : ∀ h, d'.addressed h = d.addressed h

/-- What has been found: TXT records for the services `T`, SRV records for `V`, hosts for the
services that had none by `S`, and addresses for the hosts `A`. -/
structure Gains (d d' : Dnssd) (T V : CString → Prop) (S : CString → CString → Prop)
    (A : CString → Prop) : Prop where
  txt : ∀ m, d'.txt m = true ↔ d.txt m = true ∨ T m
  srv : ∀ m, d'.srv m = true ↔ d.srv m = true ∨ V m
  hostOf : ∀ m h, d'.hostOf m = some h ↔ d.hostOf m = some h ∨ d.hostOf m = none ∧ S m h
  addressed : ∀ h, d'.addressed h = true ↔ d.addressed h = true ∨ A h

theorem Unchanged.refl (d : Dnssd) : Unchanged d d :=
  ⟨fun _ => rfl, fun _ => rfl, fun _ => rfl, fun _ => rfl⟩

theorem Unchanged.trans (h : Unchanged d d') (h' : Unchanged d' d'') : Unchanged d d'' where
  txt m := (h'.txt m).trans (h.txt m)
  srv m := (h'.srv m).trans (h.srv m)
  hostOf m := (h'.hostOf m).trans (h.hostOf m)
  addressed a := (h'.addressed a).trans (h.addressed a)

theorem Unchanged.gains (h : Unchanged d d') (hT : ∀ m, ¬T m) (hV : ∀ m, ¬V m)
    (hS : ∀ m t, ¬S m t) (hA : ∀ a, ¬A a) : Gains d d' T V S A where
  txt m := by rw [h.txt, or_iff_left (hT m)]
  srv m := by rw [h.srv, or_iff_left (hV m)]
  hostOf m t := by rw [h.hostOf, or_iff_left fun ht => hS m t ht.2]
  addressed a := by rw [h.addressed, or_iff_left (hA a)]

theorem Unchanged.then (h : Unchanged d d') (h' : Gains d' d'' T V S A) : Gains d d'' T V S A where
  txt m := by rw [h'.txt, h.txt]
  srv m := by rw [h'.srv, h.srv]
  hostOf m t := by rw [h'.hostOf, h.hostOf]
  addressed a := by rw [h'.addressed, h.addressed]

/-- What is found behind the host. -/
theorem Gains.trans (h : Gains d d' T V S A) (h' : Gains d' d'' T' V' (fun _ _ => False) A') :
    Gains d d'' (fun m => T m ∨ T' m) (fun m => V m ∨ V' m) S fun a => A a ∨ A' a where
  txt m := by rw [h'.txt, h.txt, or_assoc]
  srv m := by rw [h'.srv, h.srv, or_assoc]
  hostOf m t := by rw [h'.hostOf, or_iff_left fun ht => ht.2, h.hostOf]
  addressed a := by rw [h'.addressed, h.addressed, or_assoc]

theorem Gains.congr {S' : CString → CString → Prop} (h : Gains d d' T V S A)
    (hT : ∀ m, T m ↔ T' m) (hV : ∀ m, V m ↔ V' m) (hS : ∀ m t, S m t ↔ S' m t)
    (hA : ∀ a, A a ↔ A' a) : Gains d d' T' V' S' A' where
  txt m := by rw [h.txt, hT]
  srv m := by rw [h.srv, hV]
  hostOf m t := by rw [h.hostOf, hS]
  addressed a := by rw [h.addressed, hA]

/-! ### Writes -/

theorem txt_modifyService {f : Service → Service} (hname : ∀ s, (f s).name = s.name)
    (htxt : ∀ s, (f s).txtFound = s.txtFound) : (d.modifyService n f).txt m = d.txt m := by
  unfold txt
  rw [findService_modifyService hname]
  split
  · rw [Option.any_map]
    exact congrArg (Option.any · _) (funext htxt)
  · rfl

theorem srv_modifyService {f : Service → Service} (hname : ∀ s, (f s).name = s.name)
    (hsrv : ∀ s, (f s).srvFound = s.srvFound) : (d.modifyService n f).srv m = d.srv m := by
  unfold srv
  rw [findService_modifyService hname]
  split
  · rw [Option.any_map]
    exact congrArg (Option.any · _) (funext hsrv)
  · rfl

theorem hostOf_modifyService {f : Service → Service} (hname : ∀ s, (f s).name = s.name)
    (hhost : ∀ s, (f s).host = s.host) : (d.modifyService n f).hostOf m = d.hostOf m := by
  unfold hostOf
  rw [findService_modifyService hname]
  split
  · rw [Option.bind_map]
    exact congrArg (Option.bind _) (funext hhost)
  · rfl

/-- A write that finds the TXT record. -/
theorem txt_found {f : Service → Service} (hname : ∀ s, (f s).name = s.name)
    (htxt : ∀ s, (f s).txtFound = true) : (d.modifyService n f).txt m = true ↔
      d.txt m = true ∨ m = n ∧ (d.findService n).isSome := by
  unfold txt
  rw [findService_modifyService hname]
  by_cases hm : m = n
  · rw [if_pos hm, hm]
    cases d.findService n with
    | none => simp
    | some s => exact ⟨fun _ => Or.inr ⟨rfl, rfl⟩, fun _ => htxt s⟩
  · rw [if_neg hm, or_iff_left fun h => hm h.1]

/-- A write that finds the SRV record. -/
theorem srv_found {f : Service → Service} (hname : ∀ s, (f s).name = s.name)
    (hsrv : ∀ s, (f s).srvFound = true) : (d.modifyService n f).srv m = true ↔
      d.srv m = true ∨ m = n ∧ (d.findService n).isSome := by
  unfold srv
  rw [findService_modifyService hname]
  by_cases hm : m = n
  · rw [if_pos hm, hm]
    cases d.findService n with
    | none => simp
    | some s => exact ⟨fun _ => Or.inr ⟨rfl, rfl⟩, fun _ => hsrv s⟩
  · rw [if_neg hm, or_iff_left fun h => hm h.1]

/-- A write of the host. -/
theorem hostOf_found {f : Service → Service} {target t : CString}
    (hname : ∀ s, (f s).name = s.name) (hhost : ∀ s, (f s).host = some target)
    (hnone : d.hostOf n = none) : (d.modifyService n f).hostOf m = some t ↔
      d.hostOf m = some t ∨ (m = n ∧ (d.findService n).isSome) ∧ t = target := by
  unfold hostOf at *
  rw [findService_modifyService hname]
  by_cases hm : m = n
  · rw [if_pos hm, hm, hnone, or_iff_right (Option.some_ne_none t).symm]
    cases d.findService n with
    | none => simp
    | some s =>
      rw [Option.map_some, Option.bind_some, hhost]
      constructor
      · intro h
        exact ⟨⟨rfl, rfl⟩, (Option.some.inj h).symm⟩
      · rintro ⟨-, rfl⟩
        rfl
  · rw [if_neg hm, or_iff_left fun h => hm h.1.1]

theorem unchanged_modifyService {f : Service → Service} (hname : ∀ s, (f s).name = s.name)
    (htxt : ∀ s, (f s).txtFound = s.txtFound) (hsrv : ∀ s, (f s).srvFound = s.srvFound)
    (hhost : ∀ s, (f s).host = s.host) : Unchanged d (d.modifyService n f) where
  txt _ := txt_modifyService hname htxt
  srv _ := srv_modifyService hname hsrv
  hostOf _ := hostOf_modifyService hname hhost
  addressed _ := rfl

theorem findService_getService : (d.getService n).findService m =
    if m = n ∧ d.findService n = none then some { name := n } else d.findService m := by
  unfold getService
  cases hn : d.findService n with
  | some s =>
    rw [Option.isSome_some, if_pos rfl, if_neg fun h => absurd h.2 (Option.some_ne_none _)]
  | none =>
    rw [Option.isSome_none, if_neg Bool.false_ne_true]
    unfold findService
    rw [List.find?_cons]
    dsimp only
    by_cases hm : m = n
    · rw [if_pos ⟨hm, rfl⟩, decide_eq_true hm.symm]
    · rw [if_neg fun h => hm h.1, decide_eq_false (Ne.symm hm)]

theorem unchanged_getService : Unchanged d (d.getService n) := by
  have hnew : ∀ m, (d.getService n).findService m = d.findService m ∨
      d.findService m = none ∧ (d.getService n).findService m = some { name := n } := by
    intro m
    rw [findService_getService]
    split
    · rename_i h
      exact Or.inr ⟨h.1 ▸ h.2, rfl⟩
    · exact Or.inl rfl
  refine ⟨fun m => ?_, fun m => ?_, fun m => ?_, fun a => ?_⟩
  · unfold txt
    rcases hnew m with hsame | ⟨hnone, hsome⟩
    · rw [hsame]
    · rw [hsome, hnone]
      rfl
  · unfold srv
    rcases hnew m with hsame | ⟨hnone, hsome⟩
    · rw [hsame]
    · rw [hsome, hnone]
      rfl
  · unfold hostOf
    rcases hnew m with hsame | ⟨hnone, hsome⟩
    · rw [hsame]
    · rw [hsome, hnone]
      rfl
  · unfold addressed getService
    split
    · rfl
    · rfl

theorem unchanged_getHost : Unchanged d (d.getHost n) := by
  unfold getHost
  cases hn : d.findHost n with
  | some h => exact .refl d
  | none =>
    refine ⟨fun _ => rfl, fun _ => rfl, fun _ => rfl, fun a => ?_⟩
    rw [Option.isSome_none, if_neg Bool.false_ne_true]
    unfold addressed
    by_cases ha : a = n
    · rw [ha, hn]
      unfold findHost
      rw [List.find?_cons]
      dsimp only
      rw [decide_eq_true rfl]
      rfl
    · have hfind : findHost { d with hosts := { name := n } :: d.hosts } a = d.findHost a := by
        unfold findHost
        rw [List.find?_cons]
        dsimp only
        rw [decide_eq_false (Ne.symm ha)]
      rw [hfind]

theorem findHost_write {f : Host → Host} (hf : ∀ h, (f h).name = h.name) :
    (d.modifyHost n f).findHost m =
      (d.findHost m).map fun h => if h.name = n then f h else h := by
  unfold modifyHost findHost
  rw [List.find?_map]
  refine congrArg (Option.map _) (congrArg (List.find? · d.hosts) (funext fun h => ?_))
  show decide ((if h.name = n then f h else h).name = m) = _
  split
  · rw [hf]
  · rfl

/-- An address is written to a host. -/
theorem gains_modifyHost {addr : Address} :
    Gains d (d.modifyHost n fun h => { h with addr := some addr }) (fun _ => False)
      (fun _ => False) (fun _ _ => False) fun a => a = n ∧ (d.findHost n).isSome := by
  have hwrite : ∀ a, (d.modifyHost n fun h => { h with addr := some addr }).addressed a = true ↔
      d.addressed a = true ∨ a = n ∧ (d.findHost n).isSome := by
    intro a
    unfold addressed
    rw [findHost_write (f := fun h => { h with addr := some addr }) fun _ => rfl]
    cases ha : d.findHost a with
    | none =>
      constructor
      · intro h
        exact absurd h Bool.false_ne_true
      · rintro (h | ⟨rfl, h⟩)
        · exact absurd h Bool.false_ne_true
        · rw [ha] at h
          exact absurd h Bool.false_ne_true
    | some h =>
      have hname : h.name = a := by
        unfold findHost at ha
        have hfound := List.find?_some ha
        exact of_decide_eq_true hfound
      rw [Option.map_some, Option.bind_some, Option.bind_some, hname]
      by_cases hn : a = n
      · rw [if_pos hn]
        refine ⟨fun _ => Or.inr ⟨hn, ?_⟩, fun _ => rfl⟩
        rw [← hn, ha]
        rfl
      · rw [if_neg hn, or_iff_left fun h => hn h.1]
  refine ⟨fun m => ?_, fun m => ?_, fun m t => ?_, hwrite⟩
  · exact (or_iff_left id).symm
  · exact (or_iff_left id).symm
  · exact (or_iff_left fun h => h.2).symm

theorem hostA_gains : Gains d (d.hostA p n r) (fun _ => False) (fun _ => False)
    (fun _ _ => False) fun a => a = n ∧ (d.findHost n).isSome ∧ r.length = 4 := by
  unfold hostA
  by_cases hlength : r.length = 4
  · rw [if_pos hlength]
    refine gains_modifyHost.congr (fun _ => Iff.rfl) (fun _ => Iff.rfl) (fun _ _ => Iff.rfl)
      fun a => ?_
    rw [and_iff_left hlength]
  · rw [if_neg hlength]
    exact (Unchanged.refl d).gains (fun _ => id) (fun _ => id) (fun _ _ => id)
      fun a h => hlength h.2.2

theorem hostAaaa_gains : Gains d (d.hostAaaa p n r) (fun _ => False) (fun _ => False)
    (fun _ _ => False) fun a => a = n ∧ (d.findHost n).isSome ∧ r.length = 16 := by
  unfold hostAaaa
  by_cases hlength : r.length = 16
  · rw [if_pos hlength]
    refine gains_modifyHost.congr (fun _ => Iff.rfl) (fun _ => Iff.rfl) (fun _ _ => Iff.rfl)
      fun a => ?_
    rw [and_iff_left hlength]
  · rw [if_neg hlength]
    exact (Unchanged.refl d).gains (fun _ => id) (fun _ => id) (fun _ _ => id)
      fun a h => hlength h.2.2

/-- However long it is looked at, the content of a TXT record is accepted or not. -/
theorem txtValid_unique {mem : ℤ → UInt8} {data length : ℤ} {fuel' : ℕ} {v v' : Bool}
    (h : txtValid mem fuel data length = some v) (h' : txtValid mem fuel' data length = some v') :
    v = v' := by
  unfold txtValid at h h'
  split_ifs at h h'
  · exact Option.some.inj (h.symm.trans h')
  · exact txtLoop_unique h h'

theorem dnsTxt_gains (h : d.dnsTxt fuel p n r = .ok d') :
    Gains d d' (fun m => m = n ∧ (d.findService n).isSome ∧ TxtAccepted p r) (fun _ => False)
      (fun _ _ => False) fun _ => False := by
  unfold dnsTxt at h
  cases hvalid : txtValid (fun i => p.byte (r.data + 10 + i)) fuel 0 r.length with
  | none =>
    rw [hvalid] at h
    cases h
  | some valid =>
    rw [hvalid] at h
    cases valid with
    | false =>
      cases h
      refine (Unchanged.refl d).gains (fun m hm => ?_) (fun _ => id) (fun _ _ => id) fun _ => id
      obtain ⟨-, -, fuel', haccepted⟩ := hm
      exact absurd (txtValid_unique hvalid haccepted) Bool.false_ne_true
    | true =>
      cases h
      refine ⟨fun m => ?_, fun m => ?_, fun m t => ?_, fun _ => (or_iff_left id).symm⟩
      · refine Iff.trans (txt_found (fun _ => rfl) fun _ => rfl)
          (or_congr Iff.rfl ?_)
        rw [← and_assoc]
        exact (and_iff_left ⟨fuel, hvalid⟩).symm
      · rw [or_iff_left id]
        exact Bool.eq_iff_iff.mp (srv_modifyService (fun _ => rfl) fun _ => rfl)
      · rw [or_iff_left fun h => h.2]
        exact Eq.congr_left (hostOf_modifyService (fun _ => rfl) fun _ => rfl)

/-! ### SRV records -/

/-- `dns_srv` gives the service the target for its host, unless it has one. -/
def targeted (d : Dnssd) (n target : CString) : Dnssd :=
  if (d.hostOf n).isSome then d
  else (d.getHost target).modifyService n fun s => { s with host := some target }

theorem gains_targeted (hknown : (d.findService n).isSome) (target : CString) :
    Gains d (d.targeted n target) (fun _ => False) (fun _ => False)
      (fun m t => m = n ∧ t = target) fun _ => False := by
  unfold targeted
  cases hhost : d.hostOf n with
  | some host =>
    rw [Option.isSome_some, if_pos rfl]
    refine ⟨fun _ => (or_iff_left id).symm, fun _ => (or_iff_left id).symm, fun m t => ?_,
      fun _ => (or_iff_left id).symm⟩
    refine (or_iff_left ?_).symm
    rintro ⟨hnone, rfl, -⟩
    exact absurd (hnone.symm.trans hhost).symm (Option.some_ne_none _)
  | none =>
    rw [Option.isSome_none, if_neg Bool.false_ne_true]
    have hnew : Unchanged d (d.getHost target) := unchanged_getHost
    refine hnew.then ?_
    have hservice : ∀ m, (d.getHost target).findService m = d.findService m := by
      intro m
      unfold getHost
      split <;> rfl
    have hsame : (d.getHost target).hostOf n = none := (hnew.hostOf n).trans hhost
    rw [← hservice] at hknown
    generalize d.getHost target = d₁ at hknown hsame
    refine ⟨fun m => ?_, fun m => ?_, fun m t => ?_, fun _ => (or_iff_left id).symm⟩
    · rw [or_iff_left id]
      exact Bool.eq_iff_iff.mp (txt_modifyService (fun _ => rfl) fun _ => rfl)
    · rw [or_iff_left id]
      exact Bool.eq_iff_iff.mp (srv_modifyService (fun _ => rfl) fun _ => rfl)
    · refine Iff.trans (hostOf_found (fun _ => rfl) (fun _ => rfl) hsame)
          (or_congr Iff.rfl ?_)
      rw [and_iff_left hknown]
      refine (and_iff_right_of_imp ?_).symm
      rintro ⟨rfl, -⟩
      exact hsame

theorem gains_srvFound (hknown : (d.findService n).isSome) :
    Gains d (d.modifyService n fun s => { s with srvFound := true }) (fun _ => False)
      (fun m => m = n) (fun _ _ => False) fun _ => False := by
  refine ⟨fun m => ?_, fun m => ?_, fun m t => ?_, fun _ => (or_iff_left id).symm⟩
  · rw [or_iff_left id]
    exact Bool.eq_iff_iff.mp (txt_modifyService (fun _ => rfl) fun _ => rfl)
  · refine Iff.trans (srv_found (fun _ => rfl) fun _ => rfl)
          (or_congr Iff.rfl ?_)
    rw [and_iff_left hknown]
  · rw [or_iff_left fun h => h.2]
    exact Eq.congr_left (hostOf_modifyService (fun _ => rfl) fun _ => rfl)

theorem SameServices.known (h : SameServices d d') :
    (d'.findService n).isSome = (d.findService n).isSome := by
  rw [← served_isSome, ← served_isSome, h.served]

/-- The hosts of services are known. -/
def HostsKnown (d : Dnssd) : Prop := ∀ m h, d.hostOf m = some h → (d.findHost h).isSome

theorem srvTarget_gains {target : CString} (hknown : (d.findService n).isSome)
    (hhosts : d.HostsKnown) (h : d.srvTarget p (some ar) n target = .ok d') :
    Gains d d' (fun _ => False) (fun m => m = n) (fun m t => m = n ∧ t = target)
      fun a => a = (d.hostOf n).getD target ∧ AddressBehind p ar target := by
  have hgiven := gains_targeted hknown target
  have hservice : ((d.targeted n target).findService n).isSome := by
    have hserved : (d.targeted n target).served n =
        if n = n then (d.served n).map fun _ => true else d.served n :=
      (located_host d n target).served n
    rw [← served_isSome, hserved, if_pos rfl, Option.isSome_map, served_isSome]
    exact hknown
  have hhost : ((d.targeted n target).findHost ((d.hostOf n).getD target)).isSome := by
    unfold targeted
    cases hh : d.hostOf n with
    | some host => exact hhosts n host hh
    | none => exact findHost_getHost.mpr (Or.inr rfl)
  unfold srvTarget dnsFind at h
  dsimp only at h
  have htargeted : (if ((d.findService n).bind (·.host)).isSome then d
      else (d.getHost target).modifyService n fun s => { s with host := some target }) =
      d.targeted n target := rfl
  have hhostOf : ((d.findService n).bind (·.host)).getD target = (d.hostOf n).getD target := rfl
  rw [htargeted, hhostOf] at h
  generalize d.targeted n target = d₁ at h hgiven hservice hhost
  generalize (d.hostOf n).getD target = host at h hhost ⊢
  -- What is found behind the host is an address, or none.
  have hfound : ∀ (d₂ : Dnssd) (A : CString → Prop), SameServices d₁ d₂ →
      Gains d₁ d₂ (fun _ => False) (fun _ => False) (fun _ _ => False) A →
      (∀ a, A a ↔ a = host ∧ AddressBehind p ar target) →
      Gains d (d₂.modifyService n fun s => { s with srvFound := true }) (fun _ => False)
        (fun m => m = n) (fun m t => m = n ∧ t = target)
        fun a => a = host ∧ AddressBehind p ar target := by
    intro d₂ A hsame haddress hA
    have hknown₂ : (d₂.findService n).isSome := hsame.known.trans hservice
    refine ((hgiven.trans haddress).trans (gains_srvFound hknown₂)).congr ?_ ?_ ?_ ?_
    · simp
    · simp
    · simp
    · simp [hA]
  split at h
  · rename_i hfind
    cases hfind
  · rename_i r hfind
    cases h
    have hfind := Except.ok.inj hfind
    refine hfound _ _ sameServices_hostAaaa hostAaaa_gains fun a => ?_
    rw [and_iff_right hhost]
    refine and_congr Iff.rfl ?_
    unfold AddressBehind
    simp [hfind]
  · rename_i hfind
    have hnone := Except.ok.inj hfind
    split at h
    · rename_i hfind
      cases hfind
    · rename_i r hfind
      cases h
      have hfind := Except.ok.inj hfind
      refine hfound _ _ sameServices_hostA hostA_gains fun a => ?_
      rw [and_iff_right hhost]
      refine and_congr Iff.rfl ?_
      unfold AddressBehind
      simp [hnone, hfind]
    · rename_i hfind
      cases h
      have hfind := Except.ok.inj hfind
      refine hfound _ (fun _ => False) (.refl _) ((Unchanged.refl _).gains (fun _ => id)
        (fun _ => id) (fun _ _ => id) fun _ => id) fun a => ?_
      unfold AddressBehind
      simp [hnone, hfind]

theorem dnsSrv_gains {data : ℕ} (hknown : (d.findService n).isSome) (hhosts : d.HostsKnown)
    (h : d.dnsSrv p (some ar) n data = .ok d') :
    Gains d d' (fun _ => False) (fun m => m = n ∧ ∃ t, SrvTarget p data t)
      (fun m t => m = n ∧ SrvTarget p data t)
      fun a => ∃ t, SrvTarget p data t ∧ a = (d.hostOf n).getD t ∧ AddressBehind p ar t := by
  have hfields : Unchanged d (d.modifyService n fun s => { s with
      ttl := (p.unpack32 (data + 4)).toInt32, port := p.unpack16 (data + 10 + 4) }) :=
    unchanged_modifyService (fun _ => rfl) (fun _ => rfl) (fun _ => rfl) fun _ => rfl
  have hsame : SameServices d (d.modifyService n fun s => { s with
      ttl := (p.unpack32 (data + 4)).toInt32, port := p.unpack16 (data + 10 + 4) }) :=
    sameServices_modifyService (fun _ => rfl) fun _ => rfl
  have hhosts₁ : HostsKnown (d.modifyService n fun s => { s with
      ttl := (p.unpack32 (data + 4)).toInt32, port := p.unpack16 (data + 10 + 4) }) := by
    intro m t hm
    rw [hfields.hostOf] at hm
    exact hhosts m t hm
  unfold dnsSrv at h
  dsimp only at h
  generalize (d.modifyService n fun s => { s with
    ttl := (p.unpack32 (data + 4)).toInt32, port := p.unpack16 (data + 10 + 4) }) = d₁
    at h hfields hsame hhosts₁
  cases hread : p.dnsName (data + 10 + 6) with
  | none =>
    rw [hread] at h
    cases h
    have hnot : ∀ t, ¬SrvTarget p data t := by
      rintro t ⟨next, ht⟩
      exact absurd (hread.symm.trans ht).symm (Option.some_ne_none _)
    exact hfields.gains (fun _ => id) (fun m ⟨_, t, ht⟩ => hnot t ht) (fun m t ht => hnot t ht.2)
      fun a ⟨t, ht, _⟩ => hnot t ht
  | some target =>
    obtain ⟨target, next⟩ := target
    rw [hread] at h
    have hiff : ∀ t, SrvTarget p data t ↔ t = target := by
      intro t
      constructor
      · rintro ⟨next', ht⟩
        exact (Prod.mk.inj (Option.some.inj (hread.symm.trans ht))).1.symm
      · rintro rfl
        exact ⟨next, hread⟩
    have hgains := srvTarget_gains (hsame.known.trans hknown) hhosts₁ h
    rw [hfields.hostOf] at hgains
    refine (hfields.then hgains).congr (fun _ => Iff.rfl) ?_ ?_ ?_
    · simp [hiff]
    · simp [hiff]
    · simp [hiff]

theorem ptrInstance_gains (hhosts : d.HostsKnown)
    (h : d.ptrInstance fuel p (some ar) name inst = .ok d') :
    Gains d d'
      (fun m => m = inst ∧ ∃ r', TxtAccepted p r' ∧
        dnsFindLoop p inst txtRecord (p.bytes.length + 1) ar = some r')
      (fun m => m = inst ∧ ∃ r', dnsFindLoop p inst srvRecord (p.bytes.length + 1) ar = some r' ∧
        ∃ t, SrvTarget p r'.data t)
      (fun m t => m = inst ∧ ∃ r',
        dnsFindLoop p inst srvRecord (p.bytes.length + 1) ar = some r' ∧ SrvTarget p r'.data t)
      fun a => ∃ r', dnsFindLoop p inst srvRecord (p.bytes.length + 1) ar = some r' ∧
        ∃ t, SrvTarget p r'.data t ∧ a = (d.hostOf inst).getD t ∧ AddressBehind p ar t := by
  have hmade : Unchanged d ((d.getService inst).modifyService inst fun s =>
      { s with query := name }) := unchanged_getService.trans
    (unchanged_modifyService (fun _ => rfl) (fun _ => rfl) (fun _ => rfl) fun _ => rfl)
  have hknown : (((d.getService inst).modifyService inst fun s =>
      { s with query := name }).findService inst).isSome := by
    rw [← served_isSome, served_made]
    split
    · rfl
    · rename_i hnot
      exact Option.isSome_iff_ne_none.mpr fun hnone => hnot ⟨rfl, hnone⟩
  have hsame : SameHosts d ((d.getService inst).modifyService inst fun s =>
      { s with query := name }) := sameHosts_getService.trans sameHosts_modifyService
  unfold ptrInstance at h
  generalize ((d.getService inst).modifyService inst fun s => { s with query := name }) = d₁
    at h hmade hknown hsame
  have hhosts₁ : d₁.HostsKnown := by
    intro m t hm
    rw [hmade.hostOf] at hm
    rw [hsame]
    exact hhosts m t hm
  -- The SRV record of the instance, if there is one behind the answers.
  obtain ⟨d₂, hsrv, hgains, hknown₂⟩ : ∃ d₂, d₁.ptrSrv p (some ar) inst = .ok d₂ ∧
      Gains d₁ d₂ (fun _ => False)
        (fun m => m = inst ∧ ∃ r', dnsFindLoop p inst srvRecord (p.bytes.length + 1) ar = some r' ∧
          ∃ t, SrvTarget p r'.data t)
        (fun m t => m = inst ∧ ∃ r',
          dnsFindLoop p inst srvRecord (p.bytes.length + 1) ar = some r' ∧ SrvTarget p r'.data t)
        (fun a => ∃ r', dnsFindLoop p inst srvRecord (p.bytes.length + 1) ar = some r' ∧
          ∃ t, SrvTarget p r'.data t ∧ a = (d.hostOf inst).getD t ∧ AddressBehind p ar t) ∧
      (d₂.findService inst).isSome := by
    unfold ptrSrv dnsFind
    dsimp only
    cases hfind : dnsFindLoop p inst srvRecord (p.bytes.length + 1) ar with
    | none =>
      refine ⟨d₁, rfl, (Unchanged.refl d₁).gains (fun _ => id) ?_ ?_ ?_, hknown⟩
      · simp
      · simp
      · simp
    | some r' =>
      obtain ⟨d₂, hd₂, heffect⟩ := dnsSrv_some d₁ p ar inst r'.data
      have hknown₂ : (d₂.findService inst).isSome := by
        split at heffect
        · rw [← served_isSome, heffect.served, if_pos rfl, Option.isSome_map, served_isSome]
          exact hknown
        · exact heffect.known.trans hknown
      refine ⟨d₂, hd₂, ?_, hknown₂⟩
      have hgains := dnsSrv_gains hknown hhosts₁ hd₂
      rw [hmade.hostOf] at hgains
      refine hgains.congr (fun _ => Iff.rfl) ?_ ?_ ?_
      · simp
      · simp
      · simp
  rw [hsrv] at h
  have htxt : Gains d₂ d' (fun m => m = inst ∧ ∃ r', TxtAccepted p r' ∧
      dnsFindLoop p inst txtRecord (p.bytes.length + 1) ar = some r') (fun _ => False)
      (fun _ _ => False) fun _ => False := by
    change d₂.ptrTxt fuel p (some ar) inst = .ok d' at h
    unfold ptrTxt dnsFind at h
    dsimp only at h
    cases hfind : dnsFindLoop p inst txtRecord (p.bytes.length + 1) ar with
    | none =>
      rw [hfind] at h
      cases h
      refine (Unchanged.refl _).gains ?_ (fun _ => id) (fun _ _ => id) fun _ => id
      simp
    | some r' =>
      rw [hfind] at h
      refine (dnsTxt_gains h).congr ?_ (fun _ => Iff.rfl) (fun _ _ => Iff.rfl) fun _ => Iff.rfl
      simp [hknown₂]
  refine (hmade.then (hgains.trans htxt)).congr ?_ ?_ (fun _ _ => Iff.rfl) ?_
  · simp
  · simp
  · simp

/-- **What the first answer gives.** -/
theorem processAnswer_gains (hhosts : d.HostsKnown)
    (h : d.processAnswer fuel p (some ar) r = .ok d') :
    Gains d d' (d.GivesTxt p ar r) (fun m => ∃ t data, d.GivesSrv p ar r m data ∧
      SrvTarget p data t) (fun m t => ∃ data, d.GivesSrv p ar r m data ∧ SrvTarget p data t)
      (d.GivesAddress p ar r) := by
  unfold processAnswer at h
  by_cases hptr : r.type p = ptrRecord
  · have htypes : r.type p ≠ srvRecord ∧ r.type p ≠ txtRecord ∧ ¬IsAddress p r := by
      unfold IsAddress
      rw [hptr]
      simp [ptrRecord, srvRecord, txtRecord, aRecord, aaaaRecord]
    obtain ⟨hsrv, htxt, haddress⟩ := htypes
    rw [if_pos hptr] at h
    unfold dnsPtr at h
    have hnone : (∀ m, ¬d.Introduces p r m) → d' = d → Gains d d' (d.GivesTxt p ar r)
        (fun m => ∃ t data, d.GivesSrv p ar r m data ∧ SrvTarget p data t)
        (fun m t => ∃ data, d.GivesSrv p ar r m data ∧ SrvTarget p data t)
        (d.GivesAddress p ar r) := by
      rintro hi rfl
      refine (Unchanged.refl _).gains ?_ ?_ ?_ ?_
      · simp [GivesTxt, htxt, hi]
      · simp [GivesSrv, hsrv, hi]
      · simp [GivesSrv, hsrv, hi]
      · simp [GivesAddress, GivesSrv, hsrv, haddress, hi]
    by_cases hname : r.name ∈ d.questions
    · rw [if_pos hname] at h
      cases hread : p.dnsName (r.data + 10) with
      | none =>
        rw [hread] at h
        cases h
        refine hnone ?_ rfl
        rintro m ⟨-, -, next, hm⟩
        exact absurd (hread.symm.trans hm).symm (Option.some_ne_none _)
      | some inst =>
        obtain ⟨inst, next⟩ := inst
        rw [hread] at h
        have hi : ∀ m, d.Introduces p r m ↔ m = inst := by
          intro m
          constructor
          · rintro ⟨-, -, next', hm⟩
            exact (Prod.mk.inj (Option.some.inj (hread.symm.trans hm))).1.symm
          · rintro rfl
            exact ⟨hptr, hname, next, hread⟩
        refine (ptrInstance_gains hhosts h).congr ?_ ?_ ?_ ?_
        · intro m
          simp only [GivesTxt, htxt, hi, false_and, false_or]
          constructor
          · rintro ⟨rfl, r', hr', hfind⟩
            exact ⟨r', hr', rfl, hfind⟩
          · rintro ⟨r', hr', rfl, hfind⟩
            exact ⟨rfl, r', hr', hfind⟩
        · intro m
          simp only [GivesSrv, hsrv, hi, false_and, false_or]
          constructor
          · rintro ⟨rfl, r', hfind, t, ht⟩
            exact ⟨t, r'.data, ⟨rfl, r', hfind, rfl⟩, ht⟩
          · rintro ⟨t, data, ⟨rfl, r', hfind, rfl⟩, ht⟩
            exact ⟨rfl, r', hfind, t, ht⟩
        · intro m t
          simp only [GivesSrv, hsrv, hi, false_and, false_or]
          constructor
          · rintro ⟨rfl, r', hfind, ht⟩
            exact ⟨r'.data, ⟨rfl, r', hfind, rfl⟩, ht⟩
          · rintro ⟨data, ⟨rfl, r', hfind, rfl⟩, ht⟩
            exact ⟨rfl, r', hfind, ht⟩
        · intro a
          simp only [GivesAddress, GivesSrv, hsrv, haddress, hi, false_and, false_or]
          constructor
          · rintro ⟨r', hfind, t, ht, ha, hbehind⟩
            exact ⟨inst, r'.data, t, ⟨rfl, r', hfind, rfl⟩, ht, ha, hbehind⟩
          · rintro ⟨m, data, t, ⟨rfl, r', hfind, rfl⟩, ht, ha, hbehind⟩
            exact ⟨r', hfind, t, ht, ha, hbehind⟩
    · rw [if_neg hname] at h
      cases h
      exact hnone (fun m hm => hname hm.2.1) rfl
  have hi : ∀ m, ¬d.Introduces p r m := fun m hm => hptr hm.1
  rw [if_neg hptr] at h
  by_cases hsrv : r.type p = srvRecord
  · have htypes : r.type p ≠ txtRecord ∧ ¬IsAddress p r := by
      unfold IsAddress
      rw [hsrv]
      simp [srvRecord, txtRecord, aRecord, aaaaRecord]
    obtain ⟨htxt, haddress⟩ := htypes
    rw [if_pos hsrv] at h
    by_cases hknown : (d.findService r.name).isSome
    · rw [if_pos hknown] at h
      have hgives : ∀ m data, d.GivesSrv p ar r m data ↔ m = r.name ∧ data = r.data := by
        intro m data
        unfold GivesSrv
        rw [or_iff_left fun hm => hi m hm.1]
        constructor
        · rintro ⟨⟨-, rfl, -⟩, hdata⟩
          exact ⟨rfl, hdata⟩
        · rintro ⟨rfl, hdata⟩
          exact ⟨⟨hsrv, rfl, hknown⟩, hdata⟩
      refine (dnsSrv_gains hknown hhosts h).congr ?_ ?_ ?_ ?_
      · simp [GivesTxt, htxt, hi]
      · simp [hgives]
      · simp [hgives]
      · simp [GivesAddress, hgives, haddress]
    · rw [if_neg hknown] at h
      cases h
      have hgives : ∀ m data, ¬d.GivesSrv p ar r m data := by
        rintro m data (⟨⟨-, rfl, hm⟩, -⟩ | ⟨hm, -⟩)
        · exact hknown hm
        · exact hi m hm
      refine (Unchanged.refl _).gains ?_ ?_ ?_ ?_
      · simp [GivesTxt, htxt, hi]
      · simp [hgives]
      · simp [hgives]
      · simp [GivesAddress, hgives, haddress]
  -- The other types give no SRV record.
  have hgives : ∀ m data, ¬d.GivesSrv p ar r m data := by
    rintro m data (⟨⟨hm, -⟩, -⟩ | ⟨hm, -⟩)
    · exact hsrv hm
    · exact hi m hm
  rw [if_neg hsrv] at h
  by_cases htxt : r.type p = txtRecord
  · have haddress : ¬IsAddress p r := by
      unfold IsAddress
      rw [htxt]
      simp [txtRecord, aRecord, aaaaRecord]
    rw [if_pos htxt] at h
    by_cases hknown : (d.findService r.name).isSome
    · rw [if_pos hknown] at h
      refine (dnsTxt_gains h).congr ?_ ?_ ?_ ?_
      · intro m
        unfold GivesTxt
        constructor
        · rintro ⟨rfl, -, haccepted⟩
          exact ⟨r, haccepted, Or.inl ⟨⟨htxt, rfl, hknown⟩, rfl⟩⟩
        · rintro ⟨r', haccepted, ⟨⟨-, rfl, -⟩, rfl⟩ | ⟨hm, -⟩⟩
          · exact ⟨rfl, hknown, haccepted⟩
          · exact absurd hm (hi m)
      · simp [hgives]
      · simp [hgives]
      · simp [GivesAddress, hgives, haddress]
    · rw [if_neg hknown] at h
      cases h
      refine (Unchanged.refl _).gains ?_ ?_ ?_ ?_
      · rintro m ⟨r', -, ⟨⟨-, rfl, hm⟩, -⟩ | ⟨hm, -⟩⟩
        · exact hknown hm
        · exact hi m hm
      · simp [hgives]
      · simp [hgives]
      · simp [GivesAddress, hgives, haddress]
  have hnotxt : ∀ m, ¬d.GivesTxt p ar r m := by
    rintro m ⟨r', -, ⟨⟨hm, -⟩, -⟩ | ⟨hm, -⟩⟩
    · exact htxt hm
    · exact hi m hm
  rw [if_neg htxt] at h
  have haddress : ∀ a, d.GivesAddress p ar r a ↔
      IsAddress p r ∧ r.name = a ∧ (d.findHost a).isSome := by
    intro a
    unfold GivesAddress
    exact or_iff_left fun ⟨m, data, _, hm, _⟩ => hgives m data hm
  have hnone : (∀ a, ¬d.GivesAddress p ar r a) → d' = d → Gains d d' (d.GivesTxt p ar r)
      (fun m => ∃ t data, d.GivesSrv p ar r m data ∧ SrvTarget p data t)
      (fun m t => ∃ data, d.GivesSrv p ar r m data ∧ SrvTarget p data t)
      (d.GivesAddress p ar r) := by
    rintro ha rfl
    refine (Unchanged.refl _).gains hnotxt ?_ ?_ ha
    · simp [hgives]
    · simp [hgives]
  have hsome : ∀ A, Gains d d' (fun _ => False) (fun _ => False) (fun _ _ => False) A →
      (∀ a, A a ↔ d.GivesAddress p ar r a) → Gains d d' (d.GivesTxt p ar r)
        (fun m => ∃ t data, d.GivesSrv p ar r m data ∧ SrvTarget p data t)
        (fun m t => ∃ data, d.GivesSrv p ar r m data ∧ SrvTarget p data t)
        (d.GivesAddress p ar r) := by
    intro A hA hiff
    refine hA.congr ?_ ?_ ?_ hiff
    · simp [hnotxt]
    · simp [hgives]
    · simp [hgives]
  have hname : ∀ a, (a = r.name ∧ (d.findHost r.name).isSome) ↔
      r.name = a ∧ (d.findHost a).isSome := by
    intro a
    constructor
    · rintro ⟨rfl, ha⟩
      exact ⟨rfl, ha⟩
    · rintro ⟨rfl, ha⟩
      exact ⟨rfl, ha⟩
  by_cases ha : r.type p = aRecord
  · have hlength : IsAddress p r ↔ r.length = 4 := by
      unfold IsAddress
      rw [ha]
      simp [aRecord, aaaaRecord]
    rw [if_pos ha] at h
    by_cases hknown : (d.findHost r.name).isSome
    · rw [if_pos hknown] at h
      cases h
      refine hsome _ hostA_gains fun a => ?_
      rw [haddress, hlength, ← hname, and_comm, and_assoc, and_comm, and_assoc]
    · rw [if_neg hknown] at h
      cases h
      refine hnone (fun a hgiven => hknown ?_) rfl
      exact ((hname a).mpr ((haddress a).mp hgiven).2).2
  rw [if_neg ha] at h
  by_cases haaaa : r.type p = aaaaRecord
  · have hlength : IsAddress p r ↔ r.length = 16 := by
      unfold IsAddress
      rw [haaaa]
      simp [aRecord, aaaaRecord]
    rw [if_pos haaaa] at h
    by_cases hknown : (d.findHost r.name).isSome
    · rw [if_pos hknown] at h
      cases h
      refine hsome _ hostAaaa_gains fun a => ?_
      rw [haddress, hlength, ← hname, and_comm, and_assoc, and_comm, and_assoc]
    · rw [if_neg hknown] at h
      cases h
      refine hnone (fun a hgiven => hknown ?_) rfl
      exact ((hname a).mpr ((haddress a).mp hgiven).2).2
  rw [if_neg haaaa] at h
  cases h
  refine hnone (fun a hgiven => ?_) rfl
  rcases ((haddress a).mp hgiven).1 with ⟨htype, -⟩ | ⟨htype, -⟩
  · exact ha htype
  · exact haaaa htype

end

/-! ## What a run has given -/

section
variable {d d' : Dnssd} {fuel : ℕ} {es : List DnsEvent} {e : DnsEvent}

/-- **What a run has found** of the services: what the first answers of its responses have given. -/
structure Found (fuel : ℕ) (es : List DnsEvent) (d : Dnssd) : Prop where
  txt : ∀ m, d.txt m = true ↔ Given fuel es fun d p ar r => d.GivesTxt p ar r m
  srv : ∀ m, d.srv m = (d.hostOf m).isSome
  hostOf : ∀ m h, d.hostOf m = some h ↔ Given fuel es fun d p ar r => d.GivesHost p ar r m h
  addressed : ∀ h, d.addressed h = true ↔ Given fuel es fun d p ar r => d.GivesAddress p ar r h
  hosts : d.HostsKnown

/-- An event that finds nothing and gives nothing. -/
theorem Found.same (h : Found fuel es d) (hrun : dnsRun fuel es = .ok d)
    (hnot : ∀ p r start, e = .packet p → p.answer ≠ some (r, some start)) (hd : Unchanged d d')
    (hhosts : d'.hosts = d.hosts) : Found fuel (es ++ [e]) d' := by
  have hsame : ∀ Q, Given fuel (es ++ [e]) Q ↔ Given fuel es Q := by
    intro Q
    refine (someAnswer_snoc hrun).trans (or_iff_left ?_)
    rintro ⟨p, r, ar, he, hanswer, start, rfl, -⟩
    exact hnot p r start he hanswer
  refine ⟨fun m => ?_, fun m => ?_, fun m t => ?_, fun a => ?_, fun m t hm => ?_⟩
  · rw [hd.txt, h.txt, hsame]
  · rw [hd.srv, hd.hostOf, h.srv]
  · rw [hd.hostOf, h.hostOf, hsame]
  · rw [hd.addressed, h.addressed, hsame]
  · rw [hd.hostOf] at hm
    unfold findHost
    rw [hhosts]
    exact h.hosts m t hm

/-- What `dnssd_followup` and `service_next` leave of the services. -/
def found (d : Dnssd) : List (CString × Bool × Bool × Option CString) :=
  d.services.map fun s => (s.name, s.txtFound, s.srvFound, s.host)

theorem unchanged_of_found (h : d'.found = d.found) (hhosts : d'.hosts = d.hosts) :
    Unchanged d d' := by
  have hfind : ∀ (d : Dnssd) m, (d.found.find? (·.1 = m)) =
      (d.findService m).map fun s => (s.name, s.txtFound, s.srvFound, s.host) := by
    intro d m
    unfold found findService
    rw [List.find?_map]
    rfl
  have hsame : ∀ m, (d'.findService m).map (fun s => (s.name, s.txtFound, s.srvFound, s.host)) =
      (d.findService m).map fun s => (s.name, s.txtFound, s.srvFound, s.host) := by
    intro m
    rw [← hfind, ← hfind, h]
  refine ⟨fun m => ?_, fun m => ?_, fun m => ?_, fun a => ?_⟩
  · have hm := congrArg (Option.any (·.2.1)) (hsame m)
    rw [Option.any_map, Option.any_map] at hm
    exact hm
  · have hm := congrArg (Option.any (·.2.2.1)) (hsame m)
    rw [Option.any_map, Option.any_map] at hm
    exact hm
  · have hm := congrArg (Option.bind · (·.2.2.2)) (hsame m)
    rw [Option.bind_map, Option.bind_map] at hm
    exact hm
  · unfold addressed findHost
    rw [hhosts]

theorem found_next (n : ℕ) : (d.serviceNext n).found = d.found := by
  have hloop : ∀ l : List Service,
      (serviceNextLoop l).map (fun s => (s.name, s.txtFound, s.srvFound, s.host)) =
        l.map fun s => (s.name, s.txtFound, s.srvFound, s.host) := by
    intro l
    induction l with
    | nil => rfl
    | cons s l ih =>
      unfold serviceNextLoop
      split
      · rfl
      · exact congrArg ((s.name, s.txtFound, s.srvFound, s.host) :: ·) ih
  unfold serviceNext found
  rw [List.map_append, hloop, ← List.map_append, List.take_append_drop]

theorem asked_same (l : List CString) (d : Dnssd) :
    (l.foldl getQuestion d).services = d.services ∧ (l.foldl getQuestion d).hosts = d.hosts := by
  induction l generalizing d with
  | nil => exact ⟨rfl, rfl⟩
  | cons q l ih =>
    rw [List.foldl_cons, (ih _).1, (ih _).2]
    unfold getQuestion
    split <;> exact ⟨rfl, rfl⟩

/-- The service after `dnssd_followup`. -/
def completed (d : Dnssd) (s : Service) : Service :=
  { s with complete := (s.txtFound && s.srvFound) && s.host.any d.addressed }

theorem followup_map {l : List Service} {x : List (Service × List CString)}
    (h : l.mapM d.followupService = .ok x) : x.map (·.1) = l.map d.completed := by
  induction l generalizing x with
  | nil =>
    cases h
    rfl
  | cons s l ih =>
    rw [List.mapM_cons] at h
    cases hs : d.followupService s with
    | error stop =>
      rw [hs] at h
      cases h
    | ok y =>
      rw [hs] at h
      cases hl : l.mapM d.followupService with
      | error stop =>
        rw [hl] at h
        cases h
      | ok z =>
        rw [hl] at h
        cases h
        rw [List.map_cons, List.map_cons, ih hl]
        refine congrArg (· :: _) ?_
        unfold followupService at hs
        unfold completed addressed
        cases hhost : s.host with
        | none =>
          rw [hhost] at hs
          cases hs
        | some host =>
          rw [hhost] at hs
          dsimp only at hs
          split at hs
          · rename_i haddr
            cases hs
            rw [Option.any_some, haddr, Bool.and_true]
          · rename_i haddr
            cases hs
            rw [Option.any_some, Bool.eq_false_of_not_eq_true haddr, Bool.and_false]

/-- **A service after `dnssd_followup`** is complete if its records have been found and its host has
an address. -/
theorem followup_complete (h : dnsStep fuel d .followup = .ok d') :
    d'.found = d.found ∧ d'.hosts = d.hosts ∧ ∀ m,
      ((∃ s, d'.findService m = some s ∧ s.complete = true) ↔
        (d.txt m = true ∧ d.srv m = true) ∧ ∃ host, d.hostOf m = some host ∧
          d.addressed host = true) := by
  have hx : ∃ x, d.services.mapM d.followupService = .ok x ∧
      d' = (x.flatMap (·.2)).foldl getQuestion { d with services := x.map (·.1) } := by
    change d.dnssdFollowup.map (·.1) = .ok d' at h
    unfold dnssdFollowup at h
    cases hx : d.services.mapM d.followupService with
    | error stop =>
      rw [hx] at h
      cases h
    | ok x =>
      rw [hx] at h
      exact ⟨x, rfl, (Except.ok.inj h).symm⟩
  obtain ⟨x, hx, rfl⟩ := hx
  obtain ⟨hservices, hhosts⟩ :=
    asked_same (x.flatMap (·.2)) { d with services := x.map (·.1) }
  have hmap := followup_map hx
  generalize (x.flatMap (·.2)).foldl getQuestion { d with services := x.map (·.1) } = d'
    at hservices hhosts
  dsimp only at hservices hhosts
  rw [hmap] at hservices
  have hfind : ∀ m, d'.findService m = (d.findService m).map d.completed := by
    intro m
    unfold findService
    rw [hservices, List.find?_map]
    rfl
  refine ⟨?_, hhosts, fun m => ?_⟩
  · unfold found
    rw [hservices, List.map_map]
    rfl
  · rw [hfind]
    unfold txt srv hostOf
    cases d.findService m with
    | none => simp
    | some s =>
      simp only [Option.map_some, Option.some.injEq, exists_eq_left', Option.any_some,
        Option.bind_some, completed, Bool.and_eq_true]
      refine and_congr Iff.rfl ?_
      cases s.host with
      | none => simp
      | some host => simp

/-- **One event.** -/
theorem Found.step (hwell : ∀ p, e = .packet p → ∃ R : DnsResponse, R.packet = p)
    (h : Found fuel es d) (hrun : dnsRun fuel es = .ok d) (hstep : dnsStep fuel d e = .ok d') :
    Found fuel (es ++ [e]) d' := by
  cases e with
  | question name =>
    cases hstep
    obtain ⟨hservices, hhosts⟩ := asked_same [name] d
    refine h.same hrun (fun p r start he => ?_) (unchanged_of_found ?_ hhosts) hhosts
    · cases he
    · exact congrArg (List.map _) hservices
  | next n =>
    cases hstep
    refine h.same hrun (fun p r start he => ?_) (unchanged_of_found (found_next n) rfl) rfl
    cases he
  | followup =>
    obtain ⟨hfound, hhosts, -⟩ := followup_complete hstep
    refine h.same hrun (fun p r start he => ?_) (unchanged_of_found hfound hhosts) hhosts
    cases he
  | packet p =>
    cases hanswer : p.answer with
    | none =>
      have hsame : dnsStep fuel d (.packet p) = .ok d := by
        show (d.dnssdPacket fuel p).map (·.1) = _
        rw [packet_none hanswer]
        rfl
      obtain rfl := Except.ok.inj (hsame.symm.trans hstep)
      refine h.same hrun (fun q r start he hq => ?_) (.refl d) rfl
      cases he
      exact absurd (hanswer.symm.trans hq).symm (Option.some_ne_none _)
    | some answer =>
      obtain ⟨r, ar⟩ := answer
      obtain ⟨R, rfl⟩ := hwell p rfl
      rw [step_packet_some hanswer] at hstep
      cases hanswers : R.answers with
      | nil => exact absurd ((answer_none hanswers).symm.trans hanswer).symm (Option.some_ne_none _)
      | cons r₁ rs =>
        obtain ⟨rfl, rfl⟩ :=
          Prod.mk.inj (Option.some.inj ((answers_cons hanswers).symm.trans hanswer))
        have hgains := processAnswer_gains h.hosts hstep
        have hgiven : ∀ Q, Given fuel (es ++ [.packet R.packet]) Q ↔
            Given fuel es Q ∨ Q d R.packet R.additional r₁ := by
          intro Q
          refine (someAnswer_snoc hrun).trans (or_congr Iff.rfl ?_)
          constructor
          · rintro ⟨q, r, ar, he, hq, start, rfl, hQ⟩
            cases he
            obtain ⟨rfl, hstart⟩ := Prod.mk.inj (Option.some.inj (hanswer.symm.trans hq))
            obtain rfl := Option.some.inj hstart
            exact hQ
          · intro hQ
            exact ⟨R.packet, r₁, _, rfl, hanswer, R.additional, rfl, hQ⟩
        refine ⟨fun m => ?_, fun m => ?_, fun m t => ?_, fun a => ?_, fun m t hm => ?_⟩
        · rw [hgains.txt, h.txt, hgiven]
        · -- An SRV record with a target gives the service a host, unless it has one.
          rw [Bool.eq_iff_iff, hgains.srv, h.srv]
          cases hm : d.hostOf m with
          | some host =>
            rw [(hgains.hostOf m host).mpr (Or.inl hm)]
            exact ⟨fun _ => rfl, fun _ => Or.inl rfl⟩
          | none =>
            rw [Option.isSome_none, or_iff_right Bool.false_ne_true, Option.isSome_iff_exists]
            refine exists_congr fun t => ?_
            rw [hgains.hostOf, hm, or_iff_right (Option.some_ne_none t).symm, and_iff_right rfl]
        · rw [hgains.hostOf, h.hostOf, hgiven]
          exact Iff.rfl
        · rw [hgains.addressed, h.addressed, hgiven]
        · rw [processAnswer_hosts hstep]
          rcases (hgains.hostOf m t).mp hm with hm | ⟨hnone, data, hdata, next, hnext⟩
          · exact Or.inl (h.hosts m t hm)
          · have hserved : d.served m ≠ some true := by
              intro htrue
              have hsome : (d.hostOf m).isSome := hosted_iff.mpr htrue
              rw [hnone] at hsome
              cases hsome
            refine Or.inr ⟨m, data, next, hserved, hnext, ?_⟩
            rcases hdata with ⟨⟨htype, hname, hknown⟩, rfl⟩ | ⟨hintro, r', hfind, rfl⟩
            · refine Or.inl ⟨⟨htype, hname, hknown, ?_⟩, rfl⟩
              rw [hnext]
              rfl
            · exact Or.inr ⟨hintro, r', hfind, rfl⟩

section
variable {fuel' : ℕ} {p : Packet} {r : ResourceRecord} {n inst name : CString} {ar : Option ℕ}
  (hle : fuel ≤ fuel')
include hle

end

end

/-! ## One response -/

end Dnssd
end SeClient
