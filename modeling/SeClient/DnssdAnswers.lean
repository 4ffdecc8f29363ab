import SeClient.DnssdReception

/-!
# The answers of a response

`process_answers` is to give every answer to its handler.  The records of a well-formed response
are known in front, and the handlers can be called one after the other.
-/

namespace SeClient

/-- The records of a section, as far as they can be read. -/
def records (p : Packet) (data : ℕ) : ℕ → List ResourceRecord
  | 0 => []
  | count + 1 =>
    match parseRr p data with
    | none => []
    | some r => r :: records p r.next count

/-- **A well-formed response**: a standard response without an error, whose questions, answers and
authorities can be read.  `additional` is where they end. -/
structure DnsResponse where
  packet : Packet
  header : DnsHeader
  data : ℕ
  answer : ℕ
  additional : ℕ
  header_eq : dnsHeader packet = some (header, data)
  response : Dnssd.isResponse header = true
  questions : skipQuestions packet data header.qdcount = some answer
  sections : skipSection packet answer (header.ancount + header.nscount) = some additional

/-- The answers. -/
def DnsResponse.answers (R : DnsResponse) : List ResourceRecord :=
  records R.packet R.answer R.header.ancount

namespace Dnssd

/-- A host of that name is new with the answer `r`: the target of a service that had no host. -/
def NewHost (d : Dnssd) (p : Packet) (ar : ℕ) (r : ResourceRecord) (host : CString) : Prop :=
  ∃ inst data next, d.served inst ≠ some true ∧ p.dnsName (data + 10 + 6) = some (host, next) ∧
    (d.Locates p r inst ∧ data = r.data ∨
      d.Introduces p r inst ∧
        ∃ srv, dnsFindLoop p inst srvRecord (p.bytes.length + 1) ar = some srv ∧ data = srv.data)

section
variable {d d' : Dnssd} {fuel : ℕ} {p : Packet} {ar : Option ℕ} {r : ResourceRecord}
  {n m inst name : CString}

theorem findHost_getHost : ((d.getHost n).findHost m).isSome ↔ (d.findHost m).isSome ∨ m = n := by
  unfold getHost
  by_cases hn : (d.findHost n).isSome
  · rw [if_pos hn]
    constructor
    · exact Or.inl
    · rintro (h | rfl)
      · exact h
      · exact hn
  · rw [if_neg hn]
    unfold findHost
    rw [List.find?_cons]
    dsimp only
    by_cases hm : m = n
    · rw [decide_eq_true hm.symm]
      exact ⟨fun _ => Or.inr hm, fun _ => rfl⟩
    · rw [decide_eq_false (Ne.symm hm), or_iff_left hm]

/-- A write that keeps the name keeps the hosts known. -/
theorem findHost_modifyHost {f : Host → Host} (hf : ∀ h, (f h).name = h.name) :
    ((d.modifyHost n f).findHost m).isSome = (d.findHost m).isSome := by
  unfold modifyHost findHost
  rw [List.find?_map, Option.isSome_map]
  congr 2
  funext h
  show decide ((if h.name = n then f h else h).name = m) = _
  split
  · rw [hf]
  · rfl

/-- The same hosts are known. -/
def SameHosts (d d' : Dnssd) : Prop := ∀ m, (d'.findHost m).isSome = (d.findHost m).isSome

theorem SameHosts.refl (d : Dnssd) : SameHosts d d := fun _ => rfl

theorem SameHosts.trans {d'' : Dnssd} (h : SameHosts d d') (h' : SameHosts d' d'') :
    SameHosts d d'' := fun m => (h' m).trans (h m)

theorem sameHosts_modifyService {f : Service → Service} : SameHosts d (d.modifyService n f) :=
  fun _ => rfl

theorem sameHosts_getService : SameHosts d (d.getService n) := by
  unfold getService
  split <;> exact fun _ => rfl

theorem sameHosts_hostA : SameHosts d (d.hostA p n r) := by
  unfold hostA
  split
  · exact fun m => findHost_modifyHost fun _ => rfl
  · exact .refl d

theorem sameHosts_hostAaaa : SameHosts d (d.hostAaaa p n r) := by
  unfold hostAaaa
  split
  · exact fun m => findHost_modifyHost fun _ => rfl
  · exact .refl d

/-- What an SRV record of the service `n` adds to the hosts. -/
def AddsHost (d d' : Dnssd) (p : Packet) (n : CString) (data : ℕ) : Prop :=
  ∀ m, (d'.findHost m).isSome ↔ (d.findHost m).isSome ∨
    d.served n ≠ some true ∧ ∃ next, p.dnsName (data + 10 + 6) = some (m, next)

theorem hosted_iff : ((d.findService n).bind (·.host)).isSome ↔ d.served n = some true := by
  unfold served
  cases d.findService n with
  | none =>
    exact ⟨fun h => absurd h Bool.false_ne_true, fun h => absurd h.symm (Option.some_ne_none _)⟩
  | some s => exact ⟨fun h => congrArg some h, fun h => Option.some.inj h⟩

theorem srvTarget_hosts {start : ℕ} {target : CString}
    (h : d.srvTarget p (some start) n target = .ok d') (m : CString) :
    (d'.findHost m).isSome ↔ (d.findHost m).isSome ∨ d.served n ≠ some true ∧ m = target := by
  have hgiven : ((if ((d.findService n).bind (·.host)).isSome then d
      else (d.getHost target).modifyService n fun s => { s with host := some target }).findHost
        m).isSome ↔ (d.findHost m).isSome ∨ d.served n ≠ some true ∧ m = target := by
    by_cases hhost : ((d.findService n).bind (·.host)).isSome
    · rw [if_pos hhost, or_iff_left fun h => h.1 (hosted_iff.mp hhost)]
    · rw [if_neg hhost]
      refine (findHost_getHost (d := d) (n := target) (m := m)).trans (or_congr Iff.rfl ?_)
      exact ⟨fun h => ⟨fun htrue => hhost (hosted_iff.mpr htrue), h⟩, fun h => h.2⟩
  unfold srvTarget dnsFind at h
  dsimp only at h
  generalize (if ((d.findService n).bind (·.host)).isSome then d
    else (d.getHost target).modifyService n fun s => { s with host := some target }) = d₁
    at h hgiven
  rw [← hgiven]
  split at h
  · rename_i hfind
    cases hfind
  · cases h
    exact Bool.eq_iff_iff.mp ((sameHosts_hostAaaa.trans sameHosts_modifyService) m)
  · split at h
    · rename_i hfind
      cases hfind
    · cases h
      exact Bool.eq_iff_iff.mp ((sameHosts_hostA.trans sameHosts_modifyService) m)
    · cases h
      exact Iff.rfl

theorem dnsSrv_hosts {data start : ℕ} (h : d.dnsSrv p (some start) n data = .ok d') :
    AddsHost d d' p n data := by
  intro m
  unfold dnsSrv at h
  dsimp only at h
  cases hread : p.dnsName (data + 10 + 6) with
  | none =>
    rw [hread] at h
    cases h
    rw [or_iff_left fun ⟨_, next, hm⟩ => absurd hm.symm (Option.some_ne_none _)]
    exact Iff.rfl
  | some target =>
    rw [hread] at h
    have hserved : (d.modifyService n fun s => { s with
        ttl := (p.unpack32 (data + 4)).toInt32, port := p.unpack16 (data + 10 + 4) }).served n =
        d.served n := served_modifyService (fun _ => rfl) fun _ => rfl
    have hhosts := srvTarget_hosts h m
    rw [hserved] at hhosts
    refine hhosts.trans (or_congr Iff.rfl (and_congr Iff.rfl ?_))
    constructor
    · rintro rfl
      exact ⟨target.2, rfl⟩
    · rintro ⟨next, hm⟩
      exact (Prod.mk.inj (Option.some.inj hm)).1.symm

theorem dnsTxt_hosts (h : d.dnsTxt fuel p n r = .ok d') : SameHosts d d' := by
  unfold dnsTxt at h
  split at h
  · cases h
  · cases h
    exact .refl d
  · cases h
    exact sameHosts_modifyService

theorem ptrInstance_hosts {start : ℕ} (h : d.ptrInstance fuel p (some start) name inst = .ok d')
    (m : CString) : (d'.findHost m).isSome ↔ (d.findHost m).isSome ∨
      d.served inst ≠ some true ∧ ∃ srv next,
        dnsFindLoop p inst srvRecord (p.bytes.length + 1) start = some srv ∧
        p.dnsName (srv.data + 10 + 6) = some (m, next) := by
  have hmade := served_made d inst name inst
  have hsame : SameHosts d ((d.getService inst).modifyService inst fun s =>
      { s with query := name }) := sameHosts_getService.trans sameHosts_modifyService
  unfold ptrInstance at h
  generalize ((d.getService inst).modifyService inst fun s => { s with query := name }) = d₁
    at h hmade hsame
  have hserved : d₁.served inst ≠ some true ↔ d.served inst ≠ some true := by
    rw [hmade]
    split
    · rename_i hnone
      rw [hnone.2]
      exact ⟨fun _ h => absurd h.symm (Option.some_ne_none _), fun _ h =>
        absurd (Option.some.inj h) Bool.false_ne_true⟩
    · exact Iff.rfl
  have htxt : ∀ d₂ : Dnssd, d₂.ptrTxt fuel p (some start) inst = .ok d' → SameHosts d₂ d' := by
    intro d₂ hd₂
    unfold ptrTxt dnsFind at hd₂
    dsimp only at hd₂
    split at hd₂
    · cases hd₂
    · cases hd₂
      exact .refl _
    · exact dnsTxt_hosts hd₂
  unfold ptrSrv dnsFind at h
  dsimp only at h
  cases hfind : dnsFindLoop p inst srvRecord (p.bytes.length + 1) start with
  | none =>
    rw [hfind] at h
    rw [htxt d₁ h m, hsame m, or_iff_left]
    rintro ⟨-, srv, next, hsrv, -⟩
    exact absurd hsrv.symm (Option.some_ne_none _)
  | some srv =>
    rw [hfind] at h
    dsimp only at h
    cases hsrv : d₁.dnsSrv p (some start) inst srv.data with
    | error e =>
      rw [hsrv] at h
      cases h
    | ok d₂ =>
      rw [hsrv] at h
      rw [htxt d₂ h m, dnsSrv_hosts hsrv m, hsame m, hserved]
      refine or_congr Iff.rfl (and_congr Iff.rfl ?_)
      constructor
      · rintro ⟨next, hnext⟩
        exact ⟨srv, next, rfl, hnext⟩
      · rintro ⟨srv', next, hsrv', hnext⟩
        obtain rfl := Option.some.inj hsrv'
        exact ⟨next, hnext⟩

/-- **The hosts after the first answer.** -/
theorem processAnswer_hosts {start : ℕ} (h : d.processAnswer fuel p (some start) r = .ok d')
    (m : CString) :
    (d'.findHost m).isSome ↔ (d.findHost m).isSome ∨ d.NewHost p start r m := by
  unfold processAnswer at h
  have hsame : (∀ inst, ¬d.Introduces p r inst) → (∀ inst, ¬d.Locates p r inst) →
      SameHosts d d' →
        ((d'.findHost m).isSome ↔ (d.findHost m).isSome ∨ d.NewHost p start r m) := by
    intro hi hl hd
    rw [hd m, or_iff_left]
    rintro ⟨inst, data, next, -, -, ⟨hloc, -⟩ | ⟨hint, -⟩⟩
    · exact hl inst hloc
    · exact hi inst hint
  by_cases hptr : r.type p = ptrRecord
  · have hl : ∀ inst, ¬d.Locates p r inst := by
      rintro inst ⟨hsrv, -⟩
      exact absurd (hptr.symm.trans hsrv) (by decide)
    rw [if_pos hptr] at h
    unfold dnsPtr at h
    by_cases hname : r.name ∈ d.questions
    · rw [if_pos hname] at h
      cases hread : p.dnsName (r.data + 10) with
      | none =>
        rw [hread] at h
        cases h
        refine hsame ?_ hl (.refl d)
        rintro inst ⟨-, -, next, hinst⟩
        exact absurd (hread.symm.trans hinst).symm (Option.some_ne_none _)
      | some inst =>
        obtain ⟨inst, next⟩ := inst
        rw [hread] at h
        rw [ptrInstance_hosts h m]
        refine or_congr Iff.rfl ?_
        constructor
        · rintro ⟨hserved, srv, next', hsrv, hm⟩
          exact ⟨inst, srv.data, next', hserved, hm,
            Or.inr ⟨⟨hptr, hname, next, hread⟩, srv, hsrv, rfl⟩⟩
        · rintro ⟨inst', data, next', hserved, hm, ⟨hloc, -⟩ | ⟨⟨-, -, k, hk⟩, srv, hsrv, rfl⟩⟩
          · exact absurd hloc (hl inst')
          · obtain ⟨rfl, -⟩ := Prod.mk.inj (Option.some.inj (hread.symm.trans hk))
            exact ⟨hserved, srv, next', hsrv, hm⟩
    · rw [if_neg hname] at h
      cases h
      exact hsame (fun inst hinst => hname hinst.2.1) hl (.refl d)
  have hi : ∀ inst, ¬d.Introduces p r inst := fun inst hinst => hptr hinst.1
  rw [if_neg hptr] at h
  by_cases hsrv : r.type p = srvRecord
  · rw [if_pos hsrv] at h
    by_cases hknown : (d.findService r.name).isSome
    · rw [if_pos hknown] at h
      rw [dnsSrv_hosts h m]
      refine or_congr Iff.rfl ?_
      constructor
      · rintro ⟨hserved, next, hnext⟩
        refine ⟨r.name, r.data, next, hserved, hnext, Or.inl ⟨⟨hsrv, rfl, hknown, ?_⟩, rfl⟩⟩
        rw [hnext]
        rfl
      · rintro ⟨inst, data, next, hserved, hnext, ⟨⟨-, rfl, -⟩, rfl⟩ | ⟨hint, -⟩⟩
        · exact ⟨hserved, next, hnext⟩
        · exact absurd hint (hi inst)
    · rw [if_neg hknown] at h
      cases h
      refine hsame hi ?_ (.refl d)
      rintro inst ⟨-, rfl, hinst, -⟩
      exact hknown hinst
  have hl : ∀ inst, ¬d.Locates p r inst := fun inst hinst => hsrv hinst.1
  rw [if_neg hsrv] at h
  by_cases htxt : r.type p = txtRecord
  · rw [if_pos htxt] at h
    split at h
    · exact hsame hi hl (dnsTxt_hosts h)
    · cases h
      exact hsame hi hl (.refl d)
  rw [if_neg htxt] at h
  split_ifs at h
  · cases h
    exact hsame hi hl sameHosts_hostA
  · cases h
    exact hsame hi hl (.refl d)
  · cases h
    exact hsame hi hl sameHosts_hostAaaa
  · cases h
    exact hsame hi hl (.refl d)
  · cases h
    exact hsame hi hl (.refl d)

/-! ## The handlers return -/

end

section
variable {d : Dnssd} {R : DnsResponse} {fuel : ℕ} {r : ResourceRecord} {rs : List ResourceRecord}

theorem answer_none (h : R.answers = []) : R.packet.answer = none := by
  unfold Packet.answer
  rw [R.header_eq]
  dsimp only
  rw [if_pos R.response, R.questions]
  dsimp only
  have hsections := R.sections
  unfold DnsResponse.answers at h
  cases hcount : R.header.ancount with
  | zero => rfl
  | succ k =>
    rw [hcount] at h hsections
    rw [Nat.succ_add] at hsections
    unfold records at h
    unfold skipSection at hsections
    cases hrr : parseRr R.packet R.answer with
    | none =>
      rw [hrr] at hsections
      cases hsections
    | some r =>
      rw [hrr] at h
      cases h

theorem answers_cons (h : R.answers = r :: rs) :
    R.packet.answer = some (r, some R.additional) := by
  unfold Packet.answer
  rw [R.header_eq]
  dsimp only
  rw [if_pos R.response, R.questions]
  dsimp only
  unfold DnsResponse.answers at h
  rw [R.sections]
  cases hcount : R.header.ancount with
  | zero =>
    rw [hcount] at h
    cases h
  | succ k =>
    rw [hcount] at h
    unfold records at h
    rw [if_neg (Nat.succ_ne_zero k)]
    cases hrr : parseRr R.packet R.answer with
    | none =>
      rw [hrr] at h
      cases h
    | some r' =>
      rw [hrr] at h
      obtain ⟨rfl, -⟩ := List.cons.inj h
      rfl

end

end Dnssd
end SeClient
