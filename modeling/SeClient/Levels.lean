import SeClient.Database
import SeClient.Propagation

/-!
# Resources on levels

A page of a list is processed by recursions over the dependents of the Stubs it brings.  They
return where the resources of the servers lie on levels, each above those that depend on it, and
the items of the page and the links that are taken lead upwards.
-/

namespace SeClient
open Transition

/-- The level of every resource, and the objects it may hold. -/
structure Levels where
  level : ConnId → Name → ℕ
  holds : ConnId → Name → SeObject → Prop
  /-- An event takes over the status of a later object. -/
  status : ∀ {conn : ConnId} {name : Name} {old new : SeObject}, holds conn name old →
    holds conn name new → holds conn name { old with currentStatus := new.currentStatus }

namespace Core

/-- The level of a Stub. -/
def levelOf (L : Levels) (c : Core) (x : StubId) : ℕ := L.level (c.stub x).conn (c.stub x).name

/-- **The resources lie on levels.**  The Stubs of a name are found in its chain, each depends on
Stubs below it only, and holds what it may. -/
structure Orderly (L : Levels) (c : Core) : Prop where
  chains : ∃ chains, c.directory.Chains chains
  below : ∀ x, ∀ d ∈ (c.stub x).deps, d < c.freshStub ∧ c.levelOf L d < c.levelOf L x
  reqs : ∀ x, (c.stub x).reqs.Nodup
  list : ∀ x, (c.stub x).list.Nodup
  data : ∀ x obj, (c.stub x).data = some obj → L.holds (c.stub x).conn (c.stub x).name obj

end Core

namespace Core
variable {c c' c'' : Core} {L : Levels} {s d r x : StubId} {cl : Client} {fuel : ℕ}
  {f : Stub → Stub}

/-! ## What is left alone -/

/-- The database, and the objects and totals of the Stubs, are the same. -/
structure SameRecords (c c' : Core) : Prop where
  directory : c'.directory = c.directory
  data : ∀ x, (c'.stub x).data = (c.stub x).data
  all : ∀ x, (c'.stub x).all = (c.stub x).all

namespace SameRecords

theorem refl (c : Core) : SameRecords c c := ⟨rfl, fun _ => rfl, fun _ => rfl⟩

theorem trans (h : SameRecords c c') (h' : SameRecords c' c'') : SameRecords c c'' where
  directory := h'.directory.trans h.directory
  data x := (h'.data x).trans (h.data x)
  all x := (h'.all x).trans (h.all x)

theorem of_stub (hdirectory : c'.directory = c.directory) (hstub : c'.stub = c.stub) :
    SameRecords c c' :=
  ⟨hdirectory, fun x => by rw [hstub], fun x => by rw [hstub]⟩

theorem modifyStub (hname : (f (c.stub s)).name = (c.stub s).name)
    (hconn : (f (c.stub s)).conn = (c.stub s).conn) (hdata : (f (c.stub s)).data = (c.stub s).data)
    (hall : (f (c.stub s)).all = (c.stub s).all) : SameRecords c (c.modifyStub s f) where
  directory := directory_modifyStub hname hconn
  data := congrFun (modifyStub_field c s f Stub.data hdata)
  all := congrFun (modifyStub_field c s f Stub.all hall)

theorem insertEvent {data : EventData} {type : EventType} {time : Int} :
    SameRecords c (c.insertEvent data type time) := by
  refine of_stub directory_insertEvent ?_
  unfold Core.insertEvent
  dsimp only
  split <;> rfl

theorem addDep : SameRecords c (c.addDep r d) := by
  unfold Core.addDep
  exact (modifyStub rfl rfl rfl rfl).trans (modifyStub rfl rfl rfl rfl)

theorem newDep {d : Option StubId} {flag : BitVec 32} : SameRecords c (c.newDep r d flag) := by
  cases d with
  | none => exact refl c
  | some d =>
    unfold Core.newDep
    exact addDep.trans ((modifyStub rfl rfl rfl rfl).trans (modifyStub rfl rfl rfl rfl))

theorem removeReqs {reqs : List StubId} : SameRecords c (c.removeReqs s reqs) := by
  unfold Core.removeReqs
  induction reqs generalizing c with
  | nil => exact refl c
  | cons r reqs ih =>
    rw [List.foldl_cons]
    refine trans ?_ ih
    unfold removeReq
    dsimp only
    split
    · exact (modifyStub rfl rfl rfl rfl).trans insertEvent
    · exact modifyStub rfl rfl rfl rfl

theorem depReset (h : Core.depReset fuel c s = some c') : SameRecords c c' := by
  induction fuel generalizing c s c' with
  | zero => cases h
  | succ fuel ih =>
    rw [depReset_succ] at h
    refine foldlM_preserves (J := SameRecords c) h ?_ (modifyStub rfl rfl rfl rfl)
    intro c₁ d c₂ _ h₁ h₂
    refine (h₁.trans ?_).trans (ih h₂)
    unfold unmeetReq
    split
    · exact modifyStub rfl rfl rfl rfl
    · exact modifyStub rfl rfl rfl rfl

theorem callCompletion : SameRecords c (c.callCompletion s) := by
  unfold Core.callCompletion
  split
  · split
    · exact refl c
    · exact of_stub rfl rfl
  · exact refl c

theorem meetReq : SameRecords c (c.meetReq cl s d).1 := by
  unfold Core.meetReq
  split
  · dsimp only
    exact modifyStub rfl rfl rfl rfl
  · dsimp only
    exact modifyStub rfl rfl rfl rfl

theorem dropOldReqs : SameRecords c (c.dropOldReqs d) := by
  unfold Core.dropOldReqs
  split
  · exact refl c
  · exact removeReqs.trans (modifyStub rfl rfl rfl rfl)

theorem depCompleteLoop {next : Core → StubId → Option Core}
    (hnext : ∀ c d c', next c d = some c' → SameRecords c c') {ds : List StubId}
    (h : Core.depCompleteLoop cl next s c ds = some c') : SameRecords c c' := by
  induction ds generalizing c with
  | nil =>
    obtain rfl := Option.some.inj h
    exact refl c
  | cons d ds ih =>
    rw [Core.depCompleteLoop] at h
    split at h
    · exact ih h
    · dsimp only at h
      split at h
      · cases h
      · rename_i c₁ hpass
        split at h
        · cases h
        · have hmeet : SameRecords c (Core.meetReq cl c s d).1 := meetReq
          refine hmeet.trans (trans ?_ (ih h))
          split at hpass
          · exact dropOldReqs.trans (hnext _ _ _ hpass)
          · obtain rfl := Option.some.inj hpass
            exact refl _

theorem depComplete (h : Core.depComplete cl fuel c s = some c') : SameRecords c c' := by
  induction fuel generalizing c s c' with
  | zero => cases h
  | succ fuel ih =>
    rw [Core.depComplete] at h
    have hmark : SameRecords (c.callCompletion s) ((c.callCompletion s).modifyStub s fun t =>
        { t with complete := true }) := modifyStub rfl rfl rfl rfl
    exact callCompletion.trans (hmark.trans (depCompleteLoop (fun _ _ _ => ih) h))

theorem getSeq {offset count : Int} : SameRecords c (c.getSeq s offset count) := of_stub rfl rfl

theorem pollResource : SameRecords c (c.pollResource s) := by
  unfold Core.pollResource
  dsimp only
  split
  · exact refl c
  · split
    · exact (modifyStub rfl rfl rfl rfl).trans insertEvent
    · exact refl c

end SameRecords

/-! ## The recursions settle -/

theorem depReset_mono (h : depReset fuel c s = some c') : depReset (fuel + 1) c s = some c' := by
  induction fuel generalizing c s c' with
  | zero => cases h
  | succ fuel ih =>
    rw [depReset_succ] at h ⊢
    exact foldlM_mono (fun _ _ _ => ih) h

/-- `dep_reset` settles where no Stub depends on itself. -/
theorem depReset_settles (h : Acc (fun d s => d ∈ (c.stub s).deps) s) :
    ∃ c', Settles (fun fuel => depReset fuel c s) c' := by
  obtain ⟨n, hn⟩ := depReset_returns h
  obtain ⟨c', hc'⟩ := Option.isSome_iff_exists.mp (hn n le_rfl c fun _ => rfl)
  exact ⟨c', Settles.of_mono (fun _ _ => depReset_mono) hc'⟩

theorem updateResource_settles (h : Acc (fun d s => d ∈ (c.stub s).deps) s) :
    ∃ c', Settles (fun fuel => c.updateResource fuel s) c' := by
  by_cases hbusy : (c.stub s).status < 0
  · exact ⟨c, 0, fun _ _ => if_pos hbusy⟩
  · have heq : ∀ fuel, c.updateResource fuel s = _ := fun fuel => if_neg hbusy
    dsimp only at heq
    rw [funext heq]
    generalize hc₁ : (if (c.stub s).all ≠ 0 then c.modifyStub s fun t => { t with offset := 0 }
      else c) = c₁
    generalize hc₂ : (c₁.modifyStub s fun t => { t with list := t.reqs, reqs := [] }) = c₂
    have hdeps : ∀ x, (c₂.stub x).deps = (c.stub x).deps := by
      intro x
      subst hc₂
      rw [congrFun (modifyStub_field c₁ s _ Stub.deps rfl) x]
      subst hc₁
      split
      · exact congrFun (modifyStub_field c s _ Stub.deps rfl) x
      · rfl
    simp only [← hdeps] at h
    obtain ⟨c₃, hc₃⟩ : ∃ c₃, Settles (fun fuel =>
        if (c₂.stub s).status ≠ 0 ∧ seEvent (c₂.type s) = false then depReset fuel c₂ s
        else some (c₂.modifyStub s fun t => { t with complete := false })) c₃ := by
      split
      · exact depReset_settles h
      · exact ⟨_, Settles.const _⟩
    exact ⟨_, hc₃.map _⟩

/-- An update of a resource that was retrieved returns only where no Stub depends on itself. -/
theorem acc_of_updateResource (hstatus : 0 < (c.stub s).status) (htype : seEvent (c.type s) = false)
    (h : c.updateResource fuel s = some c') : Acc (fun d s => d ∈ (c.stub s).deps) s := by
  unfold updateResource at h
  rw [if_neg (not_lt.mpr hstatus.le)] at h
  obtain ⟨c₃, hreset, -⟩ := Option.map_eq_some_iff.mp h
  generalize hc₁ : (if (c.stub s).all ≠ 0 then c.modifyStub s fun t => { t with offset := 0 }
    else c) = c₁ at hreset
  have hsame : ∀ {α : Type} (p : Stub → α), (∀ t n, p { t with offset := n } = p t) →
      (∀ t l m, p { t with list := l, reqs := m } = p t) → ∀ x,
        p ((c₁.modifyStub s fun t => { t with list := t.reqs, reqs := [] }).stub x) =
          p (c.stub x) := by
    intro α p hoffset hlist x
    rw [congrFun (modifyStub_field c₁ s _ p (hlist _ _ _)) x]
    subst hc₁
    split
    · exact congrFun (modifyStub_field c s _ p (hoffset _ _)) x
    · rfl
  have hstatus₂ := hsame Stub.status (fun _ _ => rfl) (fun _ _ _ => rfl) s
  have htype₂ := hsame Stub.type (fun _ _ => rfl) (fun _ _ _ => rfl) s
  have hdeps := hsame Stub.deps (fun _ _ => rfl) (fun _ _ _ => rfl)
  rw [if_pos ⟨by rw [hstatus₂]; exact hstatus.ne', by unfold Core.type; rw [htype₂]; exact htype⟩]
    at hreset
  exact acc_of_depReset (Option.isSome_iff_exists.mpr ⟨c₃, hreset⟩) hdeps

theorem depCompleteLoop_mono {next next' : Core → StubId → Option Core}
    (hnext : ∀ c d c', next c d = some c' → next' c d = some c') {ds : List StubId}
    (h : depCompleteLoop cl next s c ds = some c') : depCompleteLoop cl next' s c ds = some c' := by
  induction ds generalizing c with
  | nil => exact h
  | cons d ds ih =>
    rw [depCompleteLoop] at h ⊢
    by_cases hd : d ∉ (c.stub s).deps
    · rw [if_pos hd] at h ⊢
      exact ih h
    · rw [if_neg hd] at h ⊢
      dsimp only at h ⊢
      cases hmeet : (meetReq cl c s d).2 with
      | false =>
        rw [hmeet] at h
        simp only [Bool.false_eq_true, if_false] at h ⊢
        by_cases hkeep : d ∉ ((meetReq cl c s d).1.stub s).deps
        · rw [if_pos hkeep] at h
          cases h
        · rw [if_neg hkeep] at h ⊢
          exact ih h
      | true =>
        rw [hmeet] at h
        simp only [if_true] at h ⊢
        cases hpass : next ((meetReq cl c s d).1.dropOldReqs d) d with
        | none =>
          rw [hpass] at h
          cases h
        | some c₁ =>
          rw [hpass] at h
          rw [hnext _ _ _ hpass]
          dsimp only at h ⊢
          by_cases hkeep : d ∉ (c₁.stub s).deps
          · rw [if_pos hkeep] at h
            cases h
          · rw [if_neg hkeep] at h ⊢
            exact ih h

theorem depComplete_mono (h : depComplete cl fuel c s = some c') :
    depComplete cl (fuel + 1) c s = some c' := by
  induction fuel generalizing c s c' with
  | zero => cases h
  | succ fuel ih =>
    rw [depComplete] at h ⊢
    exact depCompleteLoop_mono (fun _ _ _ => ih) h

/-- The search in a chain settles. -/
theorem findConn_settles {conn : ConnId} {l : List StubId} {h : Option StubId}
    (hl : Chain.Linked c.stubNext h l) : ∃ r, Settles (fun fuel => c.findConn conn fuel h) r := by
  induction l generalizing h with
  | nil =>
    rw [Chain.linked_nil] at hl
    refine ⟨none, 1, fun fuel hfuel => ?_⟩
    obtain ⟨fuel, rfl⟩ : ∃ k, fuel = k + 1 := ⟨fuel - 1, by omega⟩
    rw [hl]
    rfl
  | cons a l ih =>
    obtain ⟨rfl, hl⟩ := hl
    obtain ⟨r, n, hn⟩ := ih hl
    by_cases hconn : (c.stub a).conn = conn
    · refine ⟨some a, 1, fun fuel hfuel => ?_⟩
      obtain ⟨fuel, rfl⟩ : ∃ k, fuel = k + 1 := ⟨fuel - 1, by omega⟩
      exact if_pos hconn
    · refine ⟨r, n + 1, fun fuel hfuel => ?_⟩
      obtain ⟨fuel, rfl⟩ : ∃ k, fuel = k + 1 := ⟨fuel - 1, by omega⟩
      exact (if_neg hconn).trans (hn fuel (by omega))

theorem depReset_within {G : StubId → List StubId} (hw : c.web.Within G)
    (h : depReset fuel c s = some c') : c'.web.Within G := by
  induction fuel generalizing c s c' with
  | zero => cases h
  | succ fuel ih =>
    rw [depReset_succ] at h
    refine foldlM_preserves (J := fun c => c.web.Within G) h ?_ ?_
    · intro c₁ d c₂ _ h₁ h₂
      refine ih ?_ h₂
      unfold unmeetReq
      split
      · have hweb : (c₁.modifyStub d fun t => { t with reqs := t.reqs.erase s }).web =
            c₁.web.set d fun t => { t with reqs := t.reqs.erase s } := web_modifyStub_eq rfl
        rw [hweb]
        exact h₁.set (h₁.deps d) ((h₁.reqs d).erase s) (h₁.list d)
      · rw [web_modifyStub_of_ties rfl]
        exact h₁
    · rw [web_modifyStub_of_ties rfl]
      exact hw

/-! ## What keeps the resources on levels -/

namespace Orderly

theorem wellFounded (h : c.Orderly L) : WellFounded fun d s => d ∈ (c.stub s).deps :=
  Subrelation.wf (fun {d s} hd => (h.below s d hd).2) (InvImage.wf (c.levelOf L) Nat.lt_wfRel.wf)

theorem within (h : c.Orderly L) : c.web.Within fun x => (c.stub x).deps :=
  ⟨fun _ _ hy => hy, h.reqs, h.list⟩

theorem grounded (h : c.Orderly L) : c.web.Grounded := ⟨h.wellFounded, h.within⟩

/-- A change of the web that adds no dependent, or one that is below. -/
theorem of_within {G : StubId → List StubId} (h : c.Orderly L)
    (hdirectory : c'.directory = c.directory)
    (hdata : ∀ x obj, (c'.stub x).data = some obj →
      L.holds (c.stub x).conn (c.stub x).name obj) (hwithin : c'.web.Within G)
    (hbelow : ∀ x, ∀ d ∈ G x, d < c.freshStub ∧ c.levelOf L d < c.levelOf L x) :
    c'.Orderly L := by
  have hname : ∀ x, (c'.stub x).name = (c.stub x).name :=
    fun x => congrFun (congrArg Directory.name hdirectory) x
  have hconn : ∀ x, (c'.stub x).conn = (c.stub x).conn :=
    fun x => congrFun (congrArg Directory.conn hdirectory) x
  have hlevel : ∀ x, c'.levelOf L x = c.levelOf L x := fun x => by
    unfold levelOf
    rw [hname, hconn]
  have hfresh : c'.freshStub = c.freshStub := congrArg Directory.fresh hdirectory
  constructor
  · rw [hdirectory]
    exact h.chains
  · intro x d hd
    rw [hlevel, hlevel, hfresh]
    exact hbelow x d (hwithin.deps x d hd)
  · exact hwithin.reqs
  · exact hwithin.list
  · intro x obj hobj
    rw [hname, hconn]
    exact hdata x obj hobj

theorem of_same {G : StubId → List StubId} (h : c.Orderly L) (hsame : SameRecords c c')
    (hwithin : c'.web.Within G)
    (hbelow : ∀ x, ∀ d ∈ G x, d < c.freshStub ∧ c.levelOf L d < c.levelOf L x) :
    c'.Orderly L :=
  h.of_within hsame.directory (fun x obj hobj => h.data x obj (hsame.data x ▸ hobj)) hwithin hbelow

/-- A change of the fields that are no ties. -/
theorem modifyStub (h : c.Orderly L) (hname : (f (c.stub s)).name = (c.stub s).name)
    (hconn : (f (c.stub s)).conn = (c.stub s).conn)
    (hdata : ∀ obj, (f (c.stub s)).data = some obj → L.holds (c.stub s).conn (c.stub s).name obj)
    (hties : (f (c.stub s)).ties = (c.stub s).ties) : (c.modifyStub s f).Orderly L := by
  refine h.of_within (directory_modifyStub hname hconn) (fun x obj hobj => ?_)
    (web_modifyStub_of_ties hties ▸ h.within) h.below
  by_cases hx : x = s
  · subst hx
    rw [modifyStub_same] at hobj
    exact hdata obj hobj
  · rw [modifyStub_of_ne _ _ hx] at hobj
    exact h.data x obj hobj

theorem depReset (h : c.Orderly L) (s : StubId) :
    ∃ c', Settles (fun fuel => Core.depReset fuel c s) c' ∧ c'.Orderly L ∧ SameRecords c c' := by
  obtain ⟨n, hn⟩ := depReset_returns (h.wellFounded.apply s)
  obtain ⟨c', hc'⟩ := Option.isSome_iff_exists.mp (hn n le_rfl c fun _ => rfl)
  have hsame := SameRecords.depReset hc'
  exact ⟨c', Settles.of_mono (fun _ _ => depReset_mono) hc',
    h.of_same hsame (depReset_within h.within hc') h.below, hsame⟩

theorem depComplete (h : c.Orderly L) (cl : Client) (s : StubId) :
    ∃ c', Settles (fun fuel => Core.depComplete cl fuel c s) c' ∧ c'.Orderly L ∧
      SameRecords c c' := by
  obtain ⟨n, hn⟩ := @depComplete_returns cl _ h.wellFounded s
  obtain ⟨c', hc', hcompletes⟩ := hn n le_rfl c h.within
  have hsame := SameRecords.depComplete hc'
  exact ⟨c', Settles.of_mono (fun _ _ => depComplete_mono) hc',
    h.of_same hsame hcompletes.within h.below, hsame⟩

/-- A link to a resource above. -/
theorem addDep (h : c.Orderly L) (hr : r < c.freshStub) (hlevel : c.levelOf L r < c.levelOf L d) :
    (c.addDep r d).Orderly L := by
  refine h.of_same SameRecords.addDep (G := fun x => if x = d then r :: (c.stub x).deps
    else (c.stub x).deps) ?_ fun x y hy => ?_
  · rw [web_addDep]
    refine (Web.Step.link r d).within (h.within.mono fun x y hy => ?_) fun d' r' he => ?_
    · split
      · exact List.mem_cons_of_mem _ hy
      · exact hy
    · obtain ⟨rfl, rfl⟩ := Prod.mk.inj (Option.some.inj he)
      rw [if_pos rfl]
      exact List.mem_cons_self
  · split at hy
    · rename_i hx
      subst hx
      rcases List.mem_cons.mp hy with rfl | hy
      · exact ⟨hr, hlevel⟩
      · exact h.below x y hy
    · exact h.below x y hy

theorem getSeq {offset count : Int} (h : c.Orderly L) : (c.getSeq s offset count).Orderly L :=
  h.of_same SameRecords.getSeq ⟨fun _ _ hy => hy, h.reqs, h.list⟩ h.below

theorem requests (h : c.Orderly L) (rs : List HttpRequest) :
    ({ c with requests := rs } : Core).Orderly L :=
  ⟨h.chains, h.below, h.reqs, h.list, h.data⟩

theorem pollResource (h : c.Orderly L) : (c.pollResource s).Orderly L :=
  h.of_same SameRecords.pollResource ((pollResource_web (c := c)).symm ▸ h.within) h.below

/-- An update returns. -/
theorem updateResource (h : c.Orderly L) (s : StubId) :
    ∃ c', Settles (fun fuel => c.updateResource fuel s) c' ∧ c'.Orderly L ∧ SameRecords c c' := by
  by_cases hbusy : (c.stub s).status < 0
  · exact ⟨c, ⟨0, fun _ _ => if_pos hbusy⟩, h, SameRecords.refl c⟩
  · have heq : ∀ fuel, c.updateResource fuel s = _ := fun fuel => if_neg hbusy
    dsimp only at heq
    rw [funext heq]
    generalize hc₁ : (if (c.stub s).all ≠ 0 then c.modifyStub s fun t => { t with offset := 0 }
      else c) = c₁
    have hoffset : c₁.Orderly L ∧ SameRecords c c₁ := by
      subst hc₁
      split
      · exact ⟨h.modifyStub rfl rfl (h.data s) rfl, SameRecords.modifyStub rfl rfl rfl rfl⟩
      · exact ⟨h, SameRecords.refl c⟩
    generalize hc₂ : (c₁.modifyStub s fun t => { t with list := t.reqs, reqs := [] }) = c₂
    have hlist : c₂.Orderly L ∧ SameRecords c₁ c₂ := by
      subst hc₂
      have hsame : SameRecords c₁
          (c₁.modifyStub s fun t => { t with list := t.reqs, reqs := [] }) :=
        SameRecords.modifyStub rfl rfl rfl rfl
      have hweb : (c₁.modifyStub s fun t => { t with list := t.reqs, reqs := [] }).web =
          c₁.web.set s fun t => { t with list := t.reqs, reqs := [] } := web_modifyStub_eq rfl
      refine ⟨hoffset.1.of_same hsame (hweb ▸ ?_) hoffset.1.below, hsame⟩
      exact hoffset.1.within.set (fun _ hy => hy) List.nodup_nil (hoffset.1.reqs s)
    have hreset : ∃ c₃, Settles (fun fuel => if (c₂.stub s).status ≠ 0 ∧ seEvent (c₂.type s) = false
        then Core.depReset fuel c₂ s
        else some (c₂.modifyStub s fun t => { t with complete := false })) c₃ ∧ c₃.Orderly L ∧
          SameRecords c₂ c₃ := by
      split
      · exact hlist.1.depReset s
      · exact ⟨_, Settles.const _, hlist.1.modifyStub rfl rfl (hlist.1.data s) rfl,
          SameRecords.modifyStub rfl rfl rfl rfl⟩
    obtain ⟨c₃, hsettles, h₃, hsame₃⟩ := hreset
    have hstatus : (c₃.modifyStub s fun t => { t with status := -1 }).Orderly L := by
      refine h₃.of_same (SameRecords.modifyStub rfl rfl rfl rfl) ?_ h₃.below
      have hweb : (c₃.modifyStub s fun t => { t with status := -1 }).web =
          c₃.web.set s fun t => { t with status := -1 } := web_modifyStub_eq rfl
      rw [hweb]
      exact h₃.within.set (h₃.within.deps s) (h₃.reqs s) (h₃.list s)
    have hsame : SameRecords c₃ (c₃.modifyStub s fun t => { t with status := -1 }) :=
      SameRecords.modifyStub rfl rfl rfl rfl
    refine ⟨_, hsettles.map fun c => (c.modifyStub s fun t => { t with status := -1 }).getSeq s 0
      ((c.modifyStub s fun t => { t with status := -1 }).stub s).all.toInt, hstatus.getSeq, ?_⟩
    exact hoffset.2.trans (hlist.2.trans (hsame₃.trans (hsame.trans SameRecords.getSeq)))

/-- A new Stub on its level. -/
theorem newStub {name : Name} {type : SeType} {conn : ConnId} (h : c.Orderly L)
    (hstub : c'.stub = (c.newStub name type conn).stub) (hfresh : c'.freshStub = c.freshStub + 1)
    (hchains : ∃ chains, c'.directory.Chains chains) : c'.Orderly L := by
  have hold : ∀ x, x ≠ c.freshStub → c'.stub x = c.stub x := fun x hx => by
    rw [hstub, newStub_stub, if_neg hx]
  have hnew : c'.stub c.freshStub =
      { name, type, info := findListInfo type, conn, pollRate := 900 } := by
    rw [hstub, newStub_stub, if_pos rfl]
  constructor
  · exact hchains
  · intro x d hd
    by_cases hx : x = c.freshStub
    · subst hx
      rw [hnew] at hd
      exact absurd hd List.not_mem_nil
    · rw [hold x hx] at hd
      obtain ⟨hlt, hlevel⟩ := h.below x d hd
      unfold levelOf at hlevel ⊢
      rw [hold x hx, hold d (Nat.ne_of_lt hlt), hfresh]
      exact ⟨Nat.lt_succ_of_lt hlt, hlevel⟩
  · intro x
    by_cases hx : x = c.freshStub
    · subst hx
      rw [hnew]
      exact List.nodup_nil
    · rw [hold x hx]
      exact h.reqs x
  · intro x
    by_cases hx : x = c.freshStub
    · subst hx
      rw [hnew]
      exact List.nodup_nil
    · rw [hold x hx]
      exact h.list x
  · intro x obj hobj
    by_cases hx : x = c.freshStub
    · subst hx
      rw [hnew] at hobj
      cases hobj
    · rw [hold x hx] at hobj ⊢
      exact h.data x obj hobj

/-- `find_stub` settles. -/
theorem findStub (h : c.Orderly L) (name : Name) (conn : ConnId) :
    ∃ r, Settles (fun fuel => c.findStub fuel name conn) r := by
  obtain ⟨chains, hchains⟩ := h.chains
  unfold Core.findStub
  cases hhead : c.findResource name with
  | none => exact ⟨_, Settles.const _⟩
  | some head =>
    have hl : Chain.Linked c.stubNext (some head) (chains name) := hhead ▸ hchains.linked name
    obtain ⟨r, hr⟩ := @findConn_settles c conn _ _ hl
    exact ⟨_, hr.map fun s => (some head, s)⟩

/-- A new Stub, or the one there is. -/
theorem getStub (h : c.Orderly L) (name : Name) (type : SeType) (conn : ConnId) :
    ∃ c' d, Settles (fun fuel => c.getStub fuel name type conn) (c', d) ∧ c'.Orderly L ∧
      d < c'.freshStub ∧ (c'.stub d).name = name ∧ (c'.stub d).conn = conn ∧
      (c' = c ∨ c'.freshStub = c.freshStub + 1 ∧ c'.stub = (c.newStub name type conn).stub) := by
  obtain ⟨⟨head, found⟩, hfind⟩ := h.findStub name conn
  have hsettles : ∃ c' d, Settles (fun fuel => c.getStub fuel name type conn) (c', d) ∧
      (c' = c ∨ c'.freshStub = c.freshStub + 1 ∧ c'.stub = (c.newStub name type conn).stub) := by
    unfold Core.getStub
    cases found with
    | some found => exact ⟨_, _, hfind.bind (Settles.const (c, found)), .inl rfl⟩
    | none =>
      cases head with
      | some head => exact ⟨_, _, hfind.bind (Settles.const _), .inr ⟨rfl, rfl⟩⟩
      | none => exact ⟨_, _, hfind.bind (Settles.const _), .inr ⟨rfl, rfl⟩⟩
  obtain ⟨c', d, hget, hcase⟩ := hsettles
  obtain ⟨chains, hchains⟩ := h.chains
  obtain ⟨n, hn⟩ := hget
  have hget := hn n le_rfl
  refine ⟨c', d, ⟨n, hn⟩, ?_⟩
  rcases getStub_directory hget with ⟨rfl, head, hhead, fuel, hconn⟩ | ⟨rfl, hdirectory, hnone⟩
  · -- the Stub is in the chain of its name
    have hl : Chain.Linked c'.stubNext (some head) (chains name) := hhead ▸ hchains.linked name
    obtain ⟨hmem, hconn⟩ := findConn_some hl hconn
    exact ⟨h, hchains.fresh name d hmem, hchains.name name d hmem, hconn, .inl rfl⟩
  · have hchains' : ∃ chains, c'.directory.Chains chains := by
      rw [hdirectory]
      exact ⟨_, hchains.add (hchains.conn_ne hnone)⟩
    have hname : (c'.stub c.freshStub).name = name :=
      (congrFun (congrArg Directory.name hdirectory) c.freshStub).trans (Function.update_self ..)
    have hconn : (c'.stub c.freshStub).conn = conn :=
      (congrFun (congrArg Directory.conn hdirectory) c.freshStub).trans (Function.update_self ..)
    have hfresh : c'.freshStub = c.freshStub + 1 := congrArg Directory.fresh hdirectory
    rcases hcase with rfl | ⟨_, hstub⟩
    · exact absurd hfresh (Nat.ne_of_lt (Nat.lt_succ_self _))
    · exact ⟨h.newStub hstub hfresh hchains', hfresh ▸ Nat.lt_succ_self _, hname, hconn,
        .inr ⟨hfresh, hstub⟩⟩

end Orderly

/-! ## What a page sets off -/

/-- The Stubs there were are there under their names, and the total of `s` is what it was. -/
structure Grows (s : StubId) (c c' : Core) : Prop where
  fresh : c.freshStub ≤ c'.freshStub
  name : ∀ x < c.freshStub, (c'.stub x).name = (c.stub x).name
  conn : ∀ x < c.freshStub, (c'.stub x).conn = (c.stub x).conn
  all : (c'.stub s).all = (c.stub s).all

namespace Grows

theorem refl (s : StubId) (c : Core) : Grows s c c :=
  ⟨le_rfl, fun _ _ => rfl, fun _ _ => rfl, rfl⟩

theorem trans (h : Grows s c c') (h' : Grows s c' c'') : Grows s c c'' where
  fresh := h.fresh.trans h'.fresh
  name x hx := (h'.name x (hx.trans_le h.fresh)).trans (h.name x hx)
  conn x hx := (h'.conn x (hx.trans_le h.fresh)).trans (h.conn x hx)
  all := h'.all.trans h.all

/-- A change that leaves the names and the total alone. -/
theorem of_directory (h : c'.directory = c.directory) (hall : (c'.stub s).all = (c.stub s).all) :
    Grows s c c' where
  fresh := le_of_eq (congrArg Directory.fresh h).symm
  name x _ := congrFun (congrArg Directory.name h) x
  conn x _ := congrFun (congrArg Directory.conn h) x
  all := hall

theorem of_same (h : SameRecords c c') : Grows s c c' := of_directory h.directory (h.all s)

theorem levelOf (h : Grows s c c') (hx : x < c.freshStub) : c'.levelOf L x = c.levelOf L x := by
  unfold Core.levelOf
  rw [h.name x hx, h.conn x hx]

end Grows

/-- The call returns, and the resources lie on levels again. -/
def Finishes (L : Levels) (s : StubId) (c : Core) (f : ℕ → Option Core) : Prop :=
  ∃ c', Settles f c' ∧ c'.Orderly L ∧ Grows s c c'

theorem Finishes.const (h : c'.Orderly L) (hgrows : Grows s c c') :
    Finishes L s c fun _ => some c' := ⟨c', Settles.const c', h, hgrows⟩

theorem Finishes.bind {f : ℕ → Option Core} {g : ℕ → Core → Option Core} (hf : Finishes L s c f)
    (hg : ∀ c', c'.Orderly L → Grows s c c' → Finishes L s c' fun fuel => g fuel c') :
    Finishes L s c fun fuel => (f fuel).bind (g fuel) := by
  obtain ⟨c', hsettles, hc', hgrows⟩ := hf
  obtain ⟨c'', hsettles', hc'', hgrows'⟩ := hg c' hc' hgrows
  exact ⟨c'', hsettles.bind hsettles', hc'', hgrows.trans hgrows'⟩

theorem Finishes.foldlM {α : Type} {f : ℕ → Core → α → Option Core} {l : List α}
    (hc : c.Orderly L) (hf : ∀ c' : Core, ∀ a ∈ l, c'.Orderly L → Grows s c c' →
      Finishes L s c' fun fuel => f fuel c' a) :
    Finishes L s c fun fuel => l.foldlM (f fuel) c := by
  induction l generalizing c with
  | nil => exact Finishes.const hc (Grows.refl s c)
  | cons a l ih =>
    simp only [List.foldlM_cons, Option.bind_eq_bind]
    refine (hf c a List.mem_cons_self hc (Grows.refl s c)).bind fun c' hc' hgrows => ?_
    exact ih hc' fun c'' b hb hc'' hgrows' =>
      hf c'' b (List.mem_cons_of_mem _ hb) hc'' (hgrows.trans hgrows')

end Core
end SeClient
