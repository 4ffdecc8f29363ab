import Mathlib.Data.List.Induction
import SeClient.Dnssd

/-!
# Packets of any content

Runs of the client: questions it asks, packets it receives, `dnssd_followup` after them, and
`service_next`.  A NULL pointer is followed where a record is looked for behind answers that could
not be skipped, and where `dnssd_followup` comes to a service without a host.
-/

namespace SeClient

/-- What happens to a client. -/
inductive DnsEvent
  | question (name : CString)
  | packet (p : Packet)
  | followup
  | next (n : ℕ)

/-- The record that `process_answers` gets to see, and `ar_section`. -/
def Packet.answer (p : Packet) : Option (ResourceRecord × Option ℕ) :=
  match dnsHeader p with
  | none => none
  | some (h, data) =>
    if Dnssd.isResponse h then
      match skipQuestions p data h.qdcount with
      | none => none
      | some data =>
        if h.ancount = 0 then none
        else (parseRr p data).map fun r => (r, skipSection p data (h.ancount + h.nscount))
    else none

namespace Dnssd

/-- One event. -/
def dnsStep (fuel : ℕ) (d : Dnssd) : DnsEvent → Except DnsStop Dnssd
  | .question name => .ok (d.getQuestion name)
  | .packet p => (d.dnssdPacket fuel p).map (·.1)
  | .followup => d.dnssdFollowup.map (·.1)
  | .next n => .ok (d.serviceNext n)

/-- A run from the start, in which `txt_valid` makes `fuel` passes at most. -/
def dnsRun (fuel : ℕ) (es : List DnsEvent) : Except DnsStop Dnssd := es.foldlM (dnsStep fuel) {}

/-- The packet answers a question with the instance. -/
def Introduces (d : Dnssd) (p : Packet) (r : ResourceRecord) (inst : CString) : Prop :=
  r.type p = ptrRecord ∧ r.name ∈ d.questions ∧ ∃ next, p.dnsName (r.data + 10) = some (inst, next)

/-- The answer is the SRV record of a known service, with a target that can be read. -/
def Locates (d : Dnssd) (p : Packet) (r : ResourceRecord) (inst : CString) : Prop :=
  r.type p = srvRecord ∧ r.name = inst ∧ (d.findService inst).isSome ∧
    (p.dnsName (r.data + 10 + 6)).isSome

/-- The packet has the SRV record of an instance that it introduces, with a target that can be
read. -/
def Accompanies (p : Packet) (arSection : Option ℕ) (inst : CString) : Prop :=
  ∃ data r, arSection = some data ∧
    dnsFindLoop p inst srvRecord (p.bytes.length + 1) data = some r ∧
    (p.dnsName (r.data + 10 + 6)).isSome

/-- In a run, a packet has come with an answer of this kind. -/
def SomeAnswer (fuel : ℕ) (es : List DnsEvent)
    (Q : Dnssd → Packet → ResourceRecord → Option ℕ → Prop) : Prop :=
  ∃ es₁ p es₂ d r ar, es = es₁ ++ .packet p :: es₂ ∧ dnsRun fuel es₁ = .ok d ∧
    p.answer = some (r, ar) ∧ Q d p r ar

/-- In a run, an instance has been introduced. -/
def IntroducedIn (fuel : ℕ) (es : List DnsEvent) (inst : CString) : Prop :=
  SomeAnswer fuel es fun d p r _ => d.Introduces p r inst

/-- In a run, an instance has been located: by the packet that introduced it, or by another. -/
def LocatedIn (fuel : ℕ) (es : List DnsEvent) (inst : CString) : Prop :=
  SomeAnswer fuel es fun d p r ar =>
    d.Introduces p r inst ∧ Accompanies p ar inst ∨ d.Locates p r inst

/-- What an event must be like, after a run: a packet whose answers and authorities cannot be
skipped does not begin with an answer that introduces or locates an instance, and there is no
followup before all that is introduced is located. -/
def Meets (fuel : ℕ) (es : List DnsEvent) (d : Dnssd) : DnsEvent → Prop
  | .packet p => ∀ r, p.answer = some (r, none) →
    ¬∃ inst, d.Introduces p r inst ∨ d.Locates p r inst
  | .followup => ∀ inst, IntroducedIn fuel es inst → LocatedIn fuel es inst
  | _ => True

/-! ## Services by name -/

section
variable {d : Dnssd} {n m : CString} {f : Service → Service}

/-- Whether a service is known, and whether it has a host. -/
def served (d : Dnssd) (n : CString) : Option Bool := (d.findService n).map (·.host.isSome)

theorem find_map {l : List Service} (hf : ∀ s, (f s).name = s.name) :
    (l.map fun s => if s.name = n then f s else s).find? (·.name = m) =
      (l.find? (·.name = m)).map fun s => if s.name = n then f s else s := by
  induction l with
  | nil => rfl
  | cons s l ih =>
    have hname : (if s.name = n then f s else s).name = s.name := by
      split
      · exact hf s
      · rfl
    rw [List.map_cons, List.find?_cons, List.find?_cons, hname]
    by_cases hs : s.name = m
    · rw [decide_eq_true hs]
      rfl
    · rw [decide_eq_false hs]
      exact ih

theorem findService_name {s : Service} (h : d.findService n = some s) : s.name = n := by
  unfold findService at h
  have hname := List.find?_some h
  exact of_decide_eq_true hname

theorem findService_modifyService (hf : ∀ s, (f s).name = s.name) :
    (d.modifyService n f).findService m =
      if m = n then (d.findService m).map f else d.findService m := by
  have hmap : (d.modifyService n f).findService m =
      (d.findService m).map fun s => if s.name = n then f s else s := find_map hf
  rw [hmap]
  cases hs : d.findService m with
  | none => split <;> rfl
  | some s =>
    have hname := findService_name hs
    rw [Option.map_some, Option.map_some, hname]
    split <;> rfl

/-- A write that leaves the host alone. -/
theorem served_modifyService (hf : ∀ s, (f s).name = s.name) (hhost : ∀ s, (f s).host = s.host) :
    (d.modifyService n f).served m = d.served m := by
  unfold served
  rw [findService_modifyService hf]
  split
  · rw [Option.map_map]
    exact congrArg (Option.map · _) (funext fun s => congrArg Option.isSome (hhost s))
  · rfl

theorem served_getService : (d.getService n).served m =
    if m = n ∧ d.served n = none then some false else d.served m := by
  unfold getService served
  cases hn : d.findService n with
  | some s =>
    rw [Option.isSome_some, if_pos rfl, if_neg fun h => absurd h.2 (Option.some_ne_none _)]
  | none =>
    rw [Option.isSome_none, if_neg Bool.false_ne_true]
    unfold findService
    rw [List.find?_cons]
    dsimp only
    by_cases hm : m = n
    · rw [if_pos ⟨hm, rfl⟩, decide_eq_true hm.symm]
      rfl
    · rw [if_neg fun h => hm h.1, decide_eq_false (Ne.symm hm)]

theorem served_isSome : (d.served n).isSome = (d.findService n).isSome := Option.isSome_map

/-- Names of services are distinct. -/
def Distinct (d : Dnssd) : Prop := (d.services.map (·.name)).Nodup

theorem names_modifyService (hf : ∀ s, (f s).name = s.name) :
    (d.modifyService n f).services.map (·.name) = d.services.map (·.name) := by
  unfold modifyService
  rw [List.map_map]
  refine List.map_congr_left fun s _ => ?_
  show (if s.name = n then f s else s).name = s.name
  split
  · exact hf s
  · rfl

theorem Distinct.getService (h : d.Distinct) : (d.getService n).Distinct := by
  unfold Dnssd.getService
  cases hn : d.findService n with
  | some s => exact h
  | none =>
    rw [Option.isSome_none, if_neg Bool.false_ne_true]
    refine List.nodup_cons.mpr ⟨fun hmem => ?_, h⟩
    obtain ⟨s, hs, hname⟩ := List.mem_map.mp hmem
    exact absurd (decide_eq_true hname) (List.find?_eq_none.mp hn s hs)

theorem Distinct.find (h : d.Distinct) {s : Service} (hs : s ∈ d.services) :
    d.findService s.name = some s := by
  unfold Distinct at h
  unfold findService
  induction hl : d.services generalizing d with
  | nil =>
    rw [hl] at hs
    exact absurd hs List.not_mem_nil
  | cons t l ih =>
    rw [hl] at h hs
    obtain ⟨hnot, hnodup⟩ := List.nodup_cons.mp h
    rw [List.find?_cons]
    rcases List.mem_cons.mp hs with rfl | hs
    · rw [decide_eq_true rfl]
    · have hne : t.name ≠ s.name := fun heq => hnot (List.mem_map.mpr ⟨s, hs, heq.symm⟩)
      rw [decide_eq_false hne]
      exact ih (d := { d with services := l }) hnodup hs rfl

end

/-! ## What a packet does to the services -/

section
variable {d d' : Dnssd} {fuel : ℕ} {p : Packet} {ar : Option ℕ} {r : ResourceRecord}
  {n m inst name : CString}

/-- The services are the same, and have hosts as before. -/
structure SameServices (d d' : Dnssd) : Prop where
  names : d'.services.map (·.name) = d.services.map (·.name)
  questions : d'.questions = d.questions
  served : ∀ m, d'.served m = d.served m

/-- The service `n`, if it is known, has a host. -/
structure Located (d d' : Dnssd) (n : CString) : Prop where
  names : d'.services.map (·.name) = d.services.map (·.name)
  questions : d'.questions = d.questions
  served : ∀ m, d'.served m = if m = n then (d.served n).map (fun _ => true) else d.served m

theorem SameServices.refl (d : Dnssd) : SameServices d d := ⟨rfl, rfl, fun _ => rfl⟩

theorem Located.same {d'' : Dnssd} (h : Located d d' n) (h' : SameServices d' d'') :
    Located d d'' n :=
  ⟨h'.names.trans h.names, h'.questions.trans h.questions, fun m => (h'.served m).trans (h.served m)⟩

theorem SameServices.located {d'' : Dnssd} (h : SameServices d d') (h' : Located d' d'' n) :
    Located d d'' n := by
  refine ⟨h'.names.trans h.names, h'.questions.trans h.questions, fun m => ?_⟩
  rw [h'.served m, h.served n, h.served m]

theorem SameServices.distinct (h : SameServices d d') (hd : d.Distinct) : d'.Distinct := by
  unfold Distinct
  rw [h.names]
  exact hd

theorem Located.distinct (h : Located d d' n) (hd : d.Distinct) : d'.Distinct := by
  unfold Distinct
  rw [h.names]
  exact hd

theorem sameServices_modifyService {f : Service → Service} (hf : ∀ s, (f s).name = s.name)
    (hhost : ∀ s, (f s).host = s.host) : SameServices d (d.modifyService n f) :=
  ⟨names_modifyService hf, rfl, fun _ => served_modifyService hf hhost⟩

theorem sameServices_getHost : SameServices d (d.getHost n) := by
  unfold getHost
  split
  · exact .refl d
  · exact ⟨rfl, rfl, fun _ => rfl⟩

theorem sameServices_hostA : SameServices d (d.hostA p n r) := by
  unfold hostA
  split
  · exact ⟨rfl, rfl, fun _ => rfl⟩
  · exact .refl d

theorem sameServices_hostAaaa : SameServices d (d.hostAaaa p n r) := by
  unfold hostAaaa
  split
  · exact ⟨rfl, rfl, fun _ => rfl⟩
  · exact .refl d

/-- A host is given to the service. -/
theorem located_host (d : Dnssd) (n target : CString) : Located d
    (if ((d.findService n).bind (·.host)).isSome then d
      else (d.getHost target).modifyService n fun s => { s with host := some target }) n := by
  split
  · rename_i hhost
    refine ⟨rfl, rfl, fun m => ?_⟩
    by_cases hm : m = n
    · rw [if_pos hm, hm]
      unfold served
      cases hn : d.findService n with
      | none => rfl
      | some s =>
        rw [hn] at hhost
        exact congrArg some hhost
    · rw [if_neg hm]
  · have hsame : SameServices d (d.getHost target) := sameServices_getHost
    refine hsame.located ?_
    refine ⟨names_modifyService fun _ => rfl, rfl, fun m => ?_⟩
    unfold served
    rw [findService_modifyService (f := fun s => { s with host := some target }) fun _ => rfl]
    by_cases hm : m = n
    · rw [if_pos hm, if_pos hm, hm, Option.map_map, Option.map_map]
      rfl
    · rw [if_neg hm, if_neg hm]

theorem srvTarget_some (d : Dnssd) (p : Packet) (data : ℕ) (n target : CString) :
    ∃ d', d.srvTarget p (some data) n target = .ok d' ∧ Located d d' n := by
  unfold srvTarget dnsFind
  dsimp only
  have hlocated := located_host d n target
  have hfound : ∀ d : Dnssd, SameServices d (d.modifyService n fun s => { s with srvFound := true }) :=
    fun d => sameServices_modifyService (fun _ => rfl) fun _ => rfl
  split
  · rename_i h
    cases h
  · exact ⟨_, rfl, (hlocated.same sameServices_hostAaaa).same (hfound _)⟩
  · split
    · rename_i h
      cases h
    · exact ⟨_, rfl, (hlocated.same sameServices_hostA).same (hfound _)⟩
    · exact ⟨_, rfl, hlocated.same (hfound _)⟩

/-- An SRV record, where records can be looked for. -/
theorem dnsSrv_some (d : Dnssd) (p : Packet) (start : ℕ) (n : CString) (data : ℕ) :
    ∃ d', d.dnsSrv p (some start) n data = .ok d' ∧
      (if (p.dnsName (data + 10 + 6)).isSome then Located d d' n else SameServices d d') := by
  have hfields : SameServices d (d.modifyService n fun s =>
      { s with ttl := (p.unpack32 (data + 4)).toInt32, port := p.unpack16 (data + 10 + 4) }) :=
    sameServices_modifyService (fun _ => rfl) fun _ => rfl
  unfold dnsSrv
  dsimp only
  cases p.dnsName (data + 10 + 6) with
  | none => exact ⟨_, rfl, hfields⟩
  | some target =>
    obtain ⟨d', hd', hlocated⟩ := srvTarget_some (d.modifyService n fun s =>
      { s with ttl := (p.unpack32 (data + 4)).toInt32, port := p.unpack16 (data + 10 + 4) })
      p start n target.1
    exact ⟨d', hd', hfields.located hlocated⟩

/-- An SRV record, where they cannot: the NULL of `ar_section` is followed. -/
theorem dnsSrv_none {data : ℕ} : d.dnsSrv p none n data = .error .null ↔
    (p.dnsName (data + 10 + 6)).isSome := by
  unfold dnsSrv
  dsimp only
  cases p.dnsName (data + 10 + 6) with
  | none =>
    constructor
    · intro h
      cases h
    · intro h
      cases h
  | some target => exact ⟨fun _ => rfl, fun _ => rfl⟩

theorem dnsSrv_unread (d : Dnssd) (ar : Option ℕ) (n : CString) {data : ℕ}
    (h : p.dnsName (data + 10 + 6) = none) :
    ∃ d', d.dnsSrv p ar n data = .ok d' ∧ SameServices d d' := by
  unfold dnsSrv
  rw [h]
  exact ⟨_, rfl, sameServices_modifyService (fun _ => rfl) fun _ => rfl⟩

theorem dnsTxt_spec (d : Dnssd) (fuel : ℕ) (p : Packet) (n : CString) (r : ResourceRecord) :
    d.dnsTxt fuel p n r = .error .running ∨
    ∃ d', d.dnsTxt fuel p n r = .ok d' ∧ SameServices d d' := by
  unfold dnsTxt
  split
  · exact Or.inl rfl
  · exact Or.inr ⟨_, rfl, .refl d⟩
  · exact Or.inr ⟨_, rfl, sameServices_modifyService (fun _ => rfl) fun _ => rfl⟩

/-! ## The first answer -/

theorem getService_questions : (d.getService n).questions = d.questions := by
  unfold getService
  split <;> rfl

/-- The instance of a PTR record: known from now on, and with a host if it had one or if there is
an SRV record behind the answers. -/
structure Instanced (p : Packet) (ar : Option ℕ) (d d' : Dnssd) (inst : CString) : Prop where
  distinct : d.Distinct → d'.Distinct
  questions : d'.questions = d.questions
  known : ∀ m, (d'.served m).isSome ↔ (d.served m).isSome ∨ m = inst
  hosted : ∀ m, d'.served m = some true ↔
    d.served m = some true ∨ m = inst ∧ Accompanies p ar inst

theorem Instanced.same {d'' : Dnssd} (h : Instanced p ar d d' inst) (h' : SameServices d' d'') :
    Instanced p ar d d'' inst where
  distinct hd := h'.distinct (h.distinct hd)
  questions := h'.questions.trans h.questions
  known m := by rw [h'.served]; exact h.known m
  hosted m := by rw [h'.served]; exact h.hosted m

/-- The service that a PTR record makes. -/
theorem served_made (d : Dnssd) (inst name m : CString) : ((d.getService inst).modifyService inst fun s =>
      { s with query := name }).served m =
    if m = inst ∧ d.served inst = none then some false else d.served m := by
  rw [served_modifyService (f := fun s => { s with query := name }) (fun _ => rfl) fun _ => rfl,
    served_getService]

theorem ptrSrv_some (d : Dnssd) (p : Packet) (data : ℕ) (inst : CString) :
    ∃ d', d.ptrSrv p (some data) inst = .ok d' ∧
    (Accompanies p (some data) inst ∧ Located d d' inst ∨
      ¬Accompanies p (some data) inst ∧ SameServices d d') := by
  unfold ptrSrv dnsFind
  dsimp only
  cases hfind : dnsFindLoop p inst srvRecord (p.bytes.length + 1) data with
  | none =>
    refine ⟨d, rfl, Or.inr ⟨?_, .refl d⟩⟩
    rintro ⟨data', r, hdata, hr, -⟩
    obtain rfl := Option.some.inj hdata
    exact absurd (hfind.symm.trans hr).symm (Option.some_ne_none _)
  | some r =>
    obtain ⟨d', hd', hspec⟩ := dnsSrv_some d p data inst r.data
    refine ⟨d', hd', ?_⟩
    by_cases hread : (p.dnsName (r.data + 10 + 6)).isSome
    · rw [if_pos hread] at hspec
      exact Or.inl ⟨⟨data, r, rfl, hfind, hread⟩, hspec⟩
    · rw [if_neg hread] at hspec
      refine Or.inr ⟨?_, hspec⟩
      rintro ⟨data', r', hdata, hr, hread'⟩
      obtain rfl := Option.some.inj hdata
      obtain rfl := Option.some.inj (hfind.symm.trans hr)
      exact hread hread'

theorem ptrTxt_some (d : Dnssd) (fuel : ℕ) (p : Packet) (data : ℕ) (inst : CString) :
    d.ptrTxt fuel p (some data) inst = .error .running ∨
    ∃ d', d.ptrTxt fuel p (some data) inst = .ok d' ∧ SameServices d d' := by
  unfold ptrTxt dnsFind
  dsimp only
  split
  · rename_i h
    cases h
  · exact Or.inr ⟨d, rfl, .refl d⟩
  · exact dnsTxt_spec d fuel p inst _

theorem ptrInstance_some (d : Dnssd) (fuel : ℕ) (p : Packet) (data : ℕ) (name inst : CString) :
    d.ptrInstance fuel p (some data) name inst = .error .running ∨
    ∃ d', d.ptrInstance fuel p (some data) name inst = .ok d' ∧
      Instanced p (some data) d d' inst := by
  have hmade := served_made d inst name
  have hnames := names_modifyService (d := d.getService inst) (n := inst)
    (f := fun s => { s with query := name }) fun _ => rfl
  have hquestions : ((d.getService inst).modifyService inst fun s =>
      { s with query := name }).questions = d.questions := getService_questions
  unfold ptrInstance
  generalize ((d.getService inst).modifyService inst fun s => { s with query := name }) = d₁
    at hmade hnames hquestions
  have hdistinct : d.Distinct → d₁.Distinct := by
    intro hd
    unfold Distinct
    rw [hnames]
    exact hd.getService
  obtain ⟨d₂, hd₂, hsrv⟩ := ptrSrv_some d₁ p data inst
  have hinst : Instanced p (some data) d d₂ inst := by
    rcases hsrv with ⟨hacc, hlocated⟩ | ⟨hacc, hsame⟩
    · refine ⟨fun hd => hlocated.distinct (hdistinct hd), hlocated.questions.trans hquestions, ?_, ?_⟩
      · intro m
        rw [hlocated.served, hmade, hmade]
        by_cases hm : m = inst
        · subst hm
          cases d.served m <;> simp
        · simp [hm]
      · intro m
        rw [hlocated.served, hmade, hmade]
        by_cases hm : m = inst
        · subst hm
          cases d.served m <;> simp [hacc]
        · simp [hm]
    · refine ⟨fun hd => hsame.distinct (hdistinct hd), hsame.questions.trans hquestions, ?_, ?_⟩
      · intro m
        rw [hsame.served, hmade]
        by_cases hm : m = inst
        · subst hm
          cases d.served m <;> simp
        · simp [hm]
      · intro m
        rw [hsame.served, hmade]
        by_cases hm : m = inst
        · subst hm
          cases d.served m <;> simp [hacc]
        · simp [hm]
  rw [hd₂]
  rcases ptrTxt_some d₂ fuel p data inst with
    hrun | ⟨d₃, hd₃, hsame⟩
  · exact Or.inl hrun
  · exact Or.inr ⟨d₃, hd₃, hinst.same hsame⟩

/-- What the first answer does to the services. -/
structure Effect (p : Packet) (r : ResourceRecord) (ar : Option ℕ) (d d' : Dnssd) : Prop where
  distinct : d.Distinct → d'.Distinct
  questions : d'.questions = d.questions
  known : ∀ m, (d'.served m).isSome ↔ (d.served m).isSome ∨ d.Introduces p r m
  hosted : ∀ m, d'.served m = some true ↔ d.served m = some true ∨
    (d.Introduces p r m ∧ Accompanies p ar m ∨ d.Locates p r m)

theorem SameServices.effect (h : SameServices d d') (hi : ∀ m, ¬d.Introduces p r m)
    (hl : ∀ m, ¬d.Locates p r m) : Effect p r ar d d' where
  distinct := h.distinct
  questions := h.questions
  known m := by
    rw [h.served, or_iff_left (hi m)]
  hosted m := by
    rw [h.served, or_iff_left fun hm => hm.elim (fun hm => hi m hm.1) (hl m)]

theorem Instanced.effect {next : ℕ} (h : Instanced p ar d d' inst) (htype : r.type p = ptrRecord)
    (hname : r.name ∈ d.questions) (hread : p.dnsName (r.data + 10) = some (inst, next)) :
    Effect p r ar d d' := by
  have hi : ∀ m, d.Introduces p r m ↔ m = inst := by
    intro m
    constructor
    · rintro ⟨-, -, next', hm⟩
      exact (Prod.mk.inj (Option.some.inj (hread.symm.trans hm))).1.symm
    · rintro rfl
      exact ⟨htype, hname, next, hread⟩
  have hl : ∀ m, ¬d.Locates p r m := by
    rintro m ⟨hsrv, -⟩
    exact absurd (htype.symm.trans hsrv) (by decide)
  refine ⟨h.distinct, h.questions, fun m => ?_, fun m => ?_⟩
  · rw [hi]
    exact h.known m
  · rw [hi, or_iff_left (hl m), h.hosted m]
    exact or_congr Iff.rfl ⟨fun ⟨hm, ha⟩ => ⟨hm, hm ▸ ha⟩, fun ⟨hm, ha⟩ => ⟨hm, hm ▸ ha⟩⟩

theorem Located.effect (h : Located d d' r.name) (htype : r.type p = srvRecord)
    (hknown : (d.findService r.name).isSome) (hread : (p.dnsName (r.data + 10 + 6)).isSome) :
    Effect p r ar d d' := by
  have hi : ∀ m, ¬d.Introduces p r m := by
    rintro m ⟨hptr, -⟩
    exact absurd (htype.symm.trans hptr) (by decide)
  have hl : ∀ m, d.Locates p r m ↔ m = r.name := by
    intro m
    constructor
    · rintro ⟨-, hm, -⟩
      exact hm.symm
    · rintro rfl
      exact ⟨htype, rfl, hknown, hread⟩
  rw [← served_isSome] at hknown
  obtain ⟨b, hb⟩ := Option.isSome_iff_exists.mp hknown
  refine ⟨h.distinct, h.questions, fun m => ?_, fun m => ?_⟩
  · rw [or_iff_left (hi m), h.served]
    by_cases hm : m = r.name
    · rw [if_pos hm, hm, Option.isSome_map]
    · rw [if_neg hm]
  · have hor : d.Introduces p r m ∧ Accompanies p ar m ∨ d.Locates p r m ↔ m = r.name :=
      (or_iff_right fun hm => hi m hm.1).trans (hl m)
    rw [hor, h.served]
    by_cases hm : m = r.name
    · rw [if_pos hm, hb]
      exact ⟨fun _ => Or.inr hm, fun _ => rfl⟩
    · rw [if_neg hm, or_iff_left hm]

/-- What is to be known of the processing `x` of an answer: when a NULL pointer is followed, and
else its effect. -/
def Answered (p : Packet) (r : ResourceRecord) (ar : Option ℕ) (d : Dnssd)
    (x : Except DnsStop Dnssd) (null : Prop) : Prop :=
  (x = .error .null ↔ null) ∧ ∀ d', x = .ok d' → Effect p r ar d d'

theorem Effect.answered {null : Prop} (h : Effect p r ar d d') (hnot : ¬null) :
    Answered p r ar d (.ok d') null := by
  constructor
  · constructor
    · intro hnull
      cases hnull
    · intro hnull
      exact absurd hnull hnot
  · intro d₁ hok
    cases hok
    exact h

theorem answered_running {null : Prop} (hnot : ¬null) :
    Answered p r ar d (.error .running) null := by
  constructor
  · constructor
    · intro hnull
      cases hnull
    · intro hnull
      exact absurd hnull hnot
  · intro d₁ hok
    cases hok

theorem answered_null {null : Prop} (h : null) : Answered p r ar d (.error .null) null := by
  constructor
  · exact ⟨fun _ => h, fun _ => rfl⟩
  · intro d₁ hok
    cases hok

theorem Answered.congr {x : Except DnsStop Dnssd} {null null' : Prop}
    (h : Answered p r ar d x null) (hiff : null ↔ null') : Answered p r ar d x null' :=
  ⟨h.1.trans hiff, h.2⟩

theorem dnsPtr_spec (htype : r.type p = ptrRecord) :
    Answered p r ar d (d.dnsPtr fuel p ar r) (ar = none ∧ ∃ inst, d.Introduces p r inst) := by
  have hl : ∀ m, ¬d.Locates p r m := by
    rintro m ⟨hsrv, -⟩
    exact absurd (htype.symm.trans hsrv) (by decide)
  unfold dnsPtr
  by_cases hname : r.name ∈ d.questions
  · rw [if_pos hname]
    cases hread : p.dnsName (r.data + 10) with
    | none =>
      have hi : ∀ m, ¬d.Introduces p r m := by
        rintro m ⟨-, -, next, hm⟩
        exact absurd (hread.symm.trans hm).symm (Option.some_ne_none _)
      exact ((SameServices.refl d).effect hi hl).answered fun ⟨_, m, hm⟩ => hi m hm
    | some inst =>
      obtain ⟨inst, next⟩ := inst
      dsimp only
      cases ar with
      | none => exact answered_null ⟨rfl, inst, htype, hname, next, hread⟩
      | some data =>
        have hnot : ¬((some data : Option ℕ) = none ∧ ∃ inst, d.Introduces p r inst) :=
          fun h => Option.some_ne_none _ h.1
        rcases ptrInstance_some d fuel p data r.name inst with hrun | ⟨d₁, hd₁, hinst⟩
        · rw [hrun]
          exact answered_running hnot
        · rw [hd₁]
          exact (hinst.effect htype hname hread).answered hnot
  · rw [if_neg hname]
    have hi : ∀ m, ¬d.Introduces p r m := fun m hm => hname hm.2.1
    exact ((SameServices.refl d).effect hi hl).answered fun ⟨_, m, hm⟩ => hi m hm

theorem srv_spec (htype : r.type p = srvRecord) (hknown : (d.findService r.name).isSome) :
    Answered p r ar d (d.dnsSrv p ar r.name r.data) (ar = none ∧ ∃ inst, d.Locates p r inst) := by
  have hi : ∀ m, ¬d.Introduces p r m := by
    rintro m ⟨hptr, -⟩
    exact absurd (htype.symm.trans hptr) (by decide)
  cases hread : p.dnsName (r.data + 10 + 6) with
  | none =>
    have hl : ∀ m, ¬d.Locates p r m := by
      rintro m ⟨-, -, -, hm⟩
      rw [hread] at hm
      cases hm
    obtain ⟨d₁, hd₁, hsame⟩ := dnsSrv_unread d ar r.name hread
    rw [hd₁]
    exact (hsame.effect hi hl).answered fun ⟨_, m, hm⟩ => hl m hm
  | some target =>
    have hsome : (p.dnsName (r.data + 10 + 6)).isSome := by
      rw [hread]
      rfl
    cases ar with
    | none =>
      rw [(dnsSrv_none (d := d) (n := r.name)).mpr hsome]
      exact answered_null ⟨rfl, r.name, htype, rfl, hknown, hsome⟩
    | some start =>
      obtain ⟨d₁, hd₁, hspec⟩ := dnsSrv_some d p start r.name r.data
      rw [if_pos hsome] at hspec
      rw [hd₁]
      exact (hspec.effect htype hknown hsome).answered fun h => Option.some_ne_none _ h.1

/-- **The first answer** follows the NULL of `ar_section` exactly if it introduces or locates an
instance; else its effect is as described. -/
theorem processAnswer_spec (d : Dnssd) (fuel : ℕ) (p : Packet) (r : ResourceRecord)
    (ar : Option ℕ) : Answered p r ar d (d.processAnswer fuel p ar r)
    (ar = none ∧ ∃ inst, d.Introduces p r inst ∨ d.Locates p r inst) := by
  unfold processAnswer
  by_cases hptr : r.type p = ptrRecord
  · have hl : ∀ m, ¬d.Locates p r m := by
      rintro m ⟨hsrv, -⟩
      exact absurd (hptr.symm.trans hsrv) (by decide)
    rw [if_pos hptr]
    refine (dnsPtr_spec hptr).congr (and_congr Iff.rfl (exists_congr fun m => ?_))
    rw [or_iff_left (hl m)]
  have hi : ∀ m, ¬d.Introduces p r m := fun m hm => hptr hm.1
  rw [if_neg hptr]
  by_cases hsrv : r.type p = srvRecord
  · rw [if_pos hsrv]
    by_cases hknown : (d.findService r.name).isSome
    · rw [if_pos hknown]
      refine (srv_spec hsrv hknown).congr (and_congr Iff.rfl (exists_congr fun m => ?_))
      rw [or_iff_right (hi m)]
    · have hl : ∀ m, ¬d.Locates p r m := by
        rintro m ⟨-, rfl, hm, -⟩
        exact hknown hm
      rw [if_neg hknown]
      exact ((SameServices.refl d).effect hi hl).answered fun ⟨_, m, hm⟩ => hm.elim (hi m) (hl m)
  -- the other types leave the hosts of services alone
  have hl : ∀ m, ¬d.Locates p r m := fun m hm => hsrv hm.1
  have hnot : ¬(ar = none ∧ ∃ inst, d.Introduces p r inst ∨ d.Locates p r inst) :=
    fun ⟨_, m, hm⟩ => hm.elim (hi m) (hl m)
  have hsame : ∀ d', SameServices d d' → Answered p r ar d (.ok d')
      (ar = none ∧ ∃ inst, d.Introduces p r inst ∨ d.Locates p r inst) :=
    fun d' h => (h.effect hi hl).answered hnot
  rw [if_neg hsrv]
  by_cases htxt : r.type p = txtRecord
  · rw [if_pos htxt]
    split
    · rcases dnsTxt_spec d fuel p r.name r with
        hrun | ⟨d₁, hd₁, htxt⟩
      · rw [hrun]
        exact answered_running hnot
      · rw [hd₁]
        exact hsame d₁ htxt
    · exact hsame d (.refl d)
  rw [if_neg htxt]
  split_ifs
  · exact hsame _ sameServices_hostA
  · exact hsame d (.refl d)
  · exact hsame _ sameServices_hostAaaa
  · exact hsame d (.refl d)
  · exact hsame d (.refl d)

end

/-! ## Steps -/

section
variable {d d' : Dnssd} {fuel : ℕ} {p : Packet} {ar : Option ℕ} {r : ResourceRecord}
  {es : List DnsEvent} {e : DnsEvent}

theorem packet_none (h : p.answer = none) : d.dnssdPacket fuel p = .ok (d, []) := by
  unfold Packet.answer at h
  unfold dnssdPacket
  cases hheader : dnsHeader p with
  | none => rfl
  | some header =>
    rw [hheader] at h
    dsimp only at h ⊢
    by_cases hresponse : isResponse header.1
    · rw [if_pos hresponse] at h ⊢
      cases hquestions : skipQuestions p header.2 header.1.qdcount with
      | none => rfl
      | some data =>
        rw [hquestions] at h
        dsimp only at h ⊢
        cases hcount : header.1.ancount with
        | zero => rfl
        | succ k =>
          rw [if_neg (by omega)] at h
          unfold processAnswers
          rw [Option.map_eq_none_iff.mp h]
    · rw [if_neg hresponse]

theorem packet_some (h : p.answer = some (r, ar)) : d.dnssdPacket fuel p =
    (d.processAnswer fuel p ar r).map fun d' => (d', if d.Awaits p r then [r] else []) := by
  unfold Packet.answer at h
  unfold dnssdPacket
  cases hheader : dnsHeader p with
  | none =>
    rw [hheader] at h
    cases h
  | some header =>
    rw [hheader] at h
    dsimp only at h ⊢
    by_cases hresponse : isResponse header.1
    · rw [if_pos hresponse] at h ⊢
      cases hquestions : skipQuestions p header.2 header.1.qdcount with
      | none =>
        rw [hquestions] at h
        cases h
      | some data =>
        rw [hquestions] at h
        dsimp only at h ⊢
        by_cases hcount : header.1.ancount = 0
        · rw [if_pos hcount] at h
          cases h
        · rw [if_neg hcount] at h
          obtain ⟨k, hk⟩ := Nat.exists_eq_succ_of_ne_zero hcount
          obtain ⟨r', hr', heq⟩ := Option.map_eq_some_iff.mp h
          obtain ⟨rfl, rfl⟩ := Prod.mk.inj heq
          rw [hk]
          unfold processAnswers
          rw [hr']
          dsimp only
          cases d.processAnswer fuel p (skipSection p data (k.succ + header.1.nscount)) r' <;> rfl
    · rw [if_neg hresponse] at h
      cases h

theorem step_packet_some (h : p.answer = some (r, ar)) :
    dnsStep fuel d (.packet p) = d.processAnswer fuel p ar r := by
  show (d.dnssdPacket fuel p).map (·.1) = _
  rw [packet_some h]
  cases d.processAnswer fuel p ar r <;> rfl

/-- The names of the services, and which have a host. -/
def outline (d : Dnssd) : List (CString × Bool) := d.services.map fun s => (s.name, s.host.isSome)

theorem served_outline (n : CString) :
    d.served n = (d.outline.find? (·.1 = n)).map (·.2) := by
  unfold served findService outline
  rw [List.find?_map, Option.map_map]
  rfl

theorem outline_next (n : ℕ) : (d.serviceNext n).outline = d.outline := by
  have hloop : ∀ l : List Service, (serviceNextLoop l).map (fun s => (s.name, s.host.isSome)) =
      l.map fun s => (s.name, s.host.isSome) := by
    intro l
    induction l with
    | nil => rfl
    | cons s l ih =>
      unfold serviceNextLoop
      split
      · rfl
      · exact congrArg ((s.name, s.host.isSome) :: ·) ih
  unfold serviceNext outline
  rw [List.map_append, hloop, ← List.map_append, List.take_append_drop]

theorem outline_asked (l : List CString) (d : Dnssd) : (l.foldl getQuestion d).outline = d.outline := by
  induction l generalizing d with
  | nil => rfl
  | cons q l ih =>
    rw [List.foldl_cons, ih]
    unfold getQuestion
    split <;> rfl

/-- A pass over services that all have hosts. -/
theorem followup_hosted {l : List Service} (h : ∀ s ∈ l, s.host ≠ none) :
    ∃ r, l.mapM d.followupService = .ok r ∧
      (r.map (·.1)).map (fun s => (s.name, s.host.isSome)) =
        l.map fun s => (s.name, s.host.isSome) := by
  induction l with
  | nil => exact ⟨[], rfl, rfl⟩
  | cons s l ih =>
    obtain ⟨hs, hl⟩ := List.forall_mem_cons.mp h
    obtain ⟨r, hr, hrest⟩ := ih hl
    obtain ⟨t, asked, ht, hsame⟩ : ∃ t asked, d.followupService s = .ok (t, asked) ∧
        (t.name, t.host.isSome) = (s.name, s.host.isSome) := by
      unfold followupService
      cases hhost : s.host with
      | none => exact absurd hhost hs
      | some host =>
        dsimp only
        split
        · exact ⟨_, _, rfl, rfl⟩
        · exact ⟨_, _, rfl, rfl⟩
    refine ⟨(t, asked) :: r, ?_, ?_⟩
    · rw [List.mapM_cons, ht, hr]
      rfl
    · rw [List.map_cons, List.map_cons, List.map_cons, hrest, ← hsame]

/-- A pass that comes to a service without a host. -/
theorem followup_unhosted {l : List Service} (h : ∃ s ∈ l, s.host = none) :
    l.mapM d.followupService = .error .null := by
  induction l with
  | nil =>
    obtain ⟨s, hs, -⟩ := h
    exact absurd hs List.not_mem_nil
  | cons s l ih =>
    rw [List.mapM_cons]
    cases hhost : s.host with
    | none =>
      have hnull : d.followupService s = .error .null := by
        unfold followupService
        rw [hhost]
      rw [hnull]
      rfl
    | some host =>
      obtain ⟨t, ht, htnone⟩ := h
      have hl : ∃ s ∈ l, s.host = none := by
        rcases List.mem_cons.mp ht with rfl | ht
        · rw [hhost] at htnone
          cases htnone
        · exact ⟨t, ht, htnone⟩
      rw [ih hl]
      unfold followupService
      rw [hhost]
      dsimp only
      split <;> rfl

theorem followup_null (h : ∃ s ∈ d.services, s.host = none) :
    dnsStep fuel d .followup = .error .null := by
  show d.dnssdFollowup.map (·.1) = _
  unfold dnssdFollowup
  rw [followup_unhosted h]
  rfl

theorem followup_ok (fuel : ℕ) (h : ∀ s ∈ d.services, s.host ≠ none) :
    ∃ d', dnsStep fuel d .followup = .ok d' ∧ d'.outline = d.outline := by
  obtain ⟨r, hr, hrest⟩ := followup_hosted h
  refine ⟨(r.flatMap (·.2)).foldl getQuestion { d with services := r.map (·.1) }, ?_, ?_⟩
  · show d.dnssdFollowup.map (·.1) = _
    unfold dnssdFollowup
    rw [hr]
    rfl
  · rw [outline_asked]
    exact hrest

end

/-! ## Runs -/

section
variable {d d' : Dnssd} {fuel : ℕ} {es : List DnsEvent} {e : DnsEvent}
  {Q : Dnssd → Packet → ResourceRecord → Option ℕ → Prop}

theorem dnsRun_snoc : dnsRun fuel (es ++ [e]) = (dnsRun fuel es).bind fun d => dnsStep fuel d e := by
  unfold dnsRun
  rw [List.foldlM_append]
  refine congrArg (Except.bind _) (funext fun d => ?_)
  cases hstep : dnsStep fuel d e <;> simp [List.foldlM, hstep]

theorem snoc_split {es₁ es₂ : List DnsEvent} {i : DnsEvent} (h : es ++ [e] = es₁ ++ i :: es₂) :
    es = es₁ ∧ e = i ∨ ∃ es₃, es = es₁ ++ i :: es₃ := by
  rcases List.eq_nil_or_concat es₂ with rfl | ⟨es₃, j, rfl⟩
  · obtain ⟨h₁, h₂⟩ := List.append_inj' h rfl
    exact Or.inl ⟨h₁, (List.cons.inj h₂).1⟩
  · rw [List.concat_eq_append, ← List.cons_append, ← List.append_assoc] at h
    exact Or.inr ⟨es₃, (List.append_inj' h rfl).1⟩

theorem someAnswer_snoc (hrun : dnsRun fuel es = .ok d) : SomeAnswer fuel (es ++ [e]) Q ↔
    SomeAnswer fuel es Q ∨ ∃ p r ar, e = .packet p ∧ p.answer = some (r, ar) ∧ Q d p r ar := by
  constructor
  · rintro ⟨es₁, p, es₂, d₁, r, ar, hes, hrun₁, hanswer, hq⟩
    rcases snoc_split hes with ⟨rfl, rfl⟩ | ⟨es₃, hes⟩
    · obtain rfl := Except.ok.inj (hrun.symm.trans hrun₁)
      exact Or.inr ⟨p, r, ar, rfl, hanswer, hq⟩
    · exact Or.inl ⟨es₁, p, es₃, d₁, r, ar, hes, hrun₁, hanswer, hq⟩
  · rintro (⟨es₁, p, es₂, d₁, r, ar, rfl, hrun₁, hanswer, hq⟩ | ⟨p, r, ar, rfl, hanswer, hq⟩)
    · refine ⟨es₁, p, es₂ ++ [e], d₁, r, ar, ?_, hrun₁, hanswer, hq⟩
      rw [List.append_assoc, List.cons_append]
    · exact ⟨es, p, [], d, r, ar, rfl, hrun, hanswer, hq⟩

/-- **What a run knows**: the services are those that have been introduced, and those with a host
have been located. -/
structure Recorded (fuel : ℕ) (es : List DnsEvent) (d : Dnssd) : Prop where
  distinct : d.Distinct
  known : ∀ m, (d.served m).isSome ↔ IntroducedIn fuel es m
  hosted : ∀ m, d.served m = some true ↔ LocatedIn fuel es m

/-- An event that is no packet with an answer leaves the services as they are. -/
theorem Recorded.same (h : Recorded fuel es d) (hrun : dnsRun fuel es = .ok d)
    (hnot : ∀ p r ar, e = .packet p → p.answer ≠ some (r, ar)) (hd : d'.Distinct)
    (hserved : ∀ m, d'.served m = d.served m) : Recorded fuel (es ++ [e]) d' := by
  have hsame : ∀ Q, SomeAnswer fuel (es ++ [e]) Q ↔ SomeAnswer fuel es Q := fun Q =>
    (someAnswer_snoc hrun).trans (or_iff_left fun ⟨p, r, ar, he, hanswer, _⟩ =>
      hnot p r ar he hanswer)
  refine ⟨hd, fun m => ?_, fun m => ?_⟩
  · rw [hserved, h.known]
    exact (hsame _).symm
  · rw [hserved, h.hosted]
    exact (hsame _).symm

theorem Recorded.outline (h : Recorded fuel es d) (hrun : dnsRun fuel es = .ok d)
    (hnot : ∀ p, e ≠ .packet p) (hout : d'.outline = d.outline) :
    Recorded fuel (es ++ [e]) d' := by
  refine h.same hrun (fun p r ar he => absurd he (hnot p)) ?_ fun m => ?_
  · have hfst := congrArg (List.map Prod.fst) hout
    unfold Dnssd.outline at hfst
    rw [List.map_map, List.map_map] at hfst
    unfold Distinct
    exact (congrArg List.Nodup hfst).mpr h.distinct
  · rw [served_outline, served_outline, hout]

theorem unhosted_iff (h : Recorded fuel es d) : (∃ s ∈ d.services, s.host = none) ↔
    ¬∀ inst, IntroducedIn fuel es inst → LocatedIn fuel es inst := by
  constructor
  · rintro ⟨s, hs, hhost⟩ hall
    have hfind := h.distinct.find hs
    have hserved : d.served s.name = some false := by
      unfold served
      rw [hfind, Option.map_some, hhost]
      rfl
    have hknown := (h.known s.name).mp (by rw [hserved]; rfl)
    have htrue := (h.hosted s.name).mpr (hall _ hknown)
    rw [hserved] at htrue
    exact Bool.false_ne_true (Option.some.inj htrue)
  · intro hnot
    obtain ⟨inst, hinst⟩ := not_forall.mp hnot
    obtain ⟨hintroduced, hlocated⟩ := not_forall.mp hinst
    have hknown := (h.known inst).mpr hintroduced
    rw [served_isSome] at hknown
    obtain ⟨s, hs⟩ := Option.isSome_iff_exists.mp hknown
    refine ⟨s, List.mem_of_find?_eq_some hs, ?_⟩
    by_contra hhost
    apply hlocated
    rw [← h.hosted]
    unfold served
    rw [hs, Option.map_some]
    exact congrArg some (Option.isSome_iff_ne_none.mpr hhost)

/-- **One event** follows a NULL pointer exactly if it does not meet the condition, and else the
services are recorded as before. -/
theorem step_spec (h : Recorded fuel es d) (hrun : dnsRun fuel es = .ok d) :
    (dnsStep fuel d e = .error .null ↔ ¬Meets fuel es d e) ∧
    ∀ d', dnsStep fuel d e = .ok d' → Recorded fuel (es ++ [e]) d' := by
  cases e with
  | question name =>
    refine ⟨⟨fun hnull => ?_, fun hnot => absurd trivial hnot⟩, fun d' hok => ?_⟩
    · cases hnull
    · cases hok
      refine h.outline hrun (fun p he => ?_) ?_
      · cases he
      · exact outline_asked [name] d
  | next n =>
    refine ⟨⟨fun hnull => ?_, fun hnot => absurd trivial hnot⟩, fun d' hok => ?_⟩
    · cases hnull
    · cases hok
      refine h.outline hrun (fun p he => ?_) (outline_next n)
      cases he
  | followup =>
    by_cases hhost : ∃ s ∈ d.services, s.host = none
    · rw [followup_null hhost]
      refine ⟨⟨fun _ => (unhosted_iff h).mp hhost, fun _ => rfl⟩, fun d' hok => ?_⟩
      cases hok
    · obtain ⟨d₁, hd₁, hout⟩ := followup_ok fuel fun s hs hnone =>
        hhost ⟨s, hs, hnone⟩
      rw [hd₁]
      refine ⟨⟨fun hnull => ?_, fun hnot => absurd ((unhosted_iff h).mpr hnot) hhost⟩, ?_⟩
      · cases hnull
      · intro d' hok
        cases hok
        refine h.outline hrun (fun p he => ?_) hout
        cases he
  | packet p =>
    cases hanswer : p.answer with
    | none =>
      have hstep : dnsStep fuel d (.packet p) = .ok d := by
        show (d.dnssdPacket fuel p).map (·.1) = _
        rw [packet_none hanswer]
        rfl
      rw [hstep]
      refine ⟨⟨fun hnull => ?_, fun hnot => ?_⟩, fun d' hok => ?_⟩
      · cases hnull
      · exact absurd (fun r hr => absurd (hanswer.symm.trans hr).symm (Option.some_ne_none _)) hnot
      · cases hok
        refine h.same hrun (fun q r ar he hq => ?_) h.distinct fun m => rfl
        cases he
        exact absurd (hanswer.symm.trans hq).symm (Option.some_ne_none _)
    | some answer =>
      obtain ⟨r, ar⟩ := answer
      obtain ⟨hnull, heffect⟩ := processAnswer_spec d fuel p r ar
      rw [step_packet_some hanswer]
      constructor
      · rw [hnull]
        constructor
        · rintro ⟨rfl, hinst⟩ hmeets
          exact hmeets r hanswer hinst
        · intro hnot
          obtain ⟨r', hr'⟩ := not_forall.mp hnot
          obtain ⟨heq, hinst⟩ := not_forall.mp hr'
          obtain ⟨rfl, rfl⟩ := Prod.mk.inj (Option.some.inj (hanswer.symm.trans heq))
          exact ⟨rfl, not_not.mp hinst⟩
      · intro d' hok
        have hd := heffect d' hok
        have hlast : ∀ Q : Dnssd → Packet → ResourceRecord → Option ℕ → Prop,
            (∃ q r' ar', DnsEvent.packet p = .packet q ∧ q.answer = some (r', ar') ∧ Q d q r' ar') ↔
              Q d p r ar := by
          intro Q
          constructor
          · rintro ⟨q, r', ar', he, hq, hQ⟩
            cases he
            obtain ⟨rfl, rfl⟩ := Prod.mk.inj (Option.some.inj (hanswer.symm.trans hq))
            exact hQ
          · intro hQ
            exact ⟨p, r, ar, rfl, hanswer, hQ⟩
        refine ⟨hd.distinct h.distinct, fun m => ?_, fun m => ?_⟩
        · rw [hd.known, h.known]
          exact ((someAnswer_snoc hrun).trans (or_congr Iff.rfl (hlast _))).symm
        · rw [hd.hosted, h.hosted]
          exact ((someAnswer_snoc hrun).trans (or_congr Iff.rfl (hlast _))).symm

theorem recorded_run (hrun : dnsRun fuel es = .ok d) : Recorded fuel es d := by
  induction es using List.reverseRecOn generalizing d with
  | nil =>
    cases hrun
    have hnot : ∀ Q, ¬SomeAnswer fuel [] Q := by
      rintro Q ⟨es₁, p, es₂, d, r, ar, hes, -⟩
      exact List.append_ne_nil_of_right_ne_nil es₁ (List.cons_ne_nil _ _) hes.symm
    refine ⟨List.nodup_nil, fun m => ?_, fun m => ?_⟩
    · exact ⟨fun h => absurd h Bool.false_ne_true, fun h => absurd h (hnot _)⟩
    · exact ⟨fun h => absurd h.symm (Option.some_ne_none _), fun h => absurd h (hnot _)⟩
  | append_singleton es e ih =>
    rw [dnsRun_snoc] at hrun
    cases hes : dnsRun fuel es with
    | error stop =>
      rw [hes] at hrun
      cases hrun
    | ok d₁ =>
      rw [hes] at hrun
      exact (step_spec (ih hes) hes).2 d hrun

/-- **Reception is robust** in the runs whose events all meet the condition, and in no others. -/
theorem dnssd_robust (fuel : ℕ) (es : List DnsEvent) : dnsRun fuel es ≠ .error .null ↔
    ∀ es₁ e es₂ d, es = es₁ ++ e :: es₂ → dnsRun fuel es₁ = .ok d → Meets fuel es₁ d e := by
  induction es using List.reverseRecOn with
  | nil =>
    constructor
    · intro _ es₁ e es₂ d hes
      exact absurd hes.symm (List.append_ne_nil_of_right_ne_nil es₁ (List.cons_ne_nil _ _))
    · intro _ hnull
      cases hnull
  | append_singleton es e ih =>
    rw [dnsRun_snoc]
    cases hes : dnsRun fuel es with
    | error stop =>
      show Except.error stop ≠ .error .null ↔ _
      have herror : (Except.error stop : Except DnsStop Dnssd) ≠ .error .null ↔
          dnsRun fuel es ≠ .error .null := by rw [hes]
      rw [herror, ih]
      constructor
      · intro hall es₁ i es₂ d₁ hsplit hrun₁
        rcases snoc_split hsplit with ⟨rfl, rfl⟩ | ⟨es₃, hsplit⟩
        · rw [hes] at hrun₁
          cases hrun₁
        · exact hall es₁ i es₃ d₁ hsplit hrun₁
      · intro hall es₁ i es₂ d₁ hsplit hrun₁
        refine hall es₁ i (es₂ ++ [e]) d₁ ?_ hrun₁
        rw [hsplit, List.append_assoc, List.cons_append]
    | ok d =>
      show dnsStep fuel d e ≠ .error .null ↔ _
      have hbefore := ih.mp (by rw [hes]; intro hnull; cases hnull)
      obtain ⟨hnull, -⟩ := step_spec (e := e) (recorded_run hes) hes
      rw [Ne, hnull, not_not]
      constructor
      · intro hmeets es₁ i es₂ d₁ hsplit hrun₁
        rcases snoc_split hsplit with ⟨rfl, rfl⟩ | ⟨es₃, hsplit⟩
        · obtain rfl := Except.ok.inj (hes.symm.trans hrun₁)
          exact hmeets
        · exact hbefore es₁ i es₃ d₁ hsplit hrun₁
      · intro hall
        exact hall es e [] d rfl hes

end

/-- A response with one answer: a PTR record that leads from `a` to the instance `b`. -/
def ptrPacket : Packet where
  bytes := [0, 0, 0x84, 0, 0, 0, 0, 1, 0, 0, 0, 0,
    1, 97, 0, 0, 12, 0, 1, 0, 0, 0, 0, 0, 3, 1, 98, 0]

/-- The instance is a service without a host, and `dnssd_followup` asks for the host's address. -/
theorem dnsRun_null :
    dnsRun 0 [.question [1, 97], .packet ptrPacket, .followup] = .error .null := by
  rfl

end Dnssd
end SeClient
