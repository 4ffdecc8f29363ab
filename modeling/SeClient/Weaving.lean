import SeClient.Web

/-!
# What each function does to the web

Every function of `retrieve.c` leaves the web as a sequence of moves does.  `Leads`
collects the functions that run while a response is processed: whatever they do are inner
moves, so they take no request off a queue and store no status.
-/

namespace SeClient
open Transition

namespace Core
variable {c c' c'' : Core} {s r d : StubId} {cl : Client} {fuel : Nat}

/-! ## Single moves -/

theorem web_addDep : (c.addDep r d).web = c.web.link r d := by
  unfold addDep
  dsimp only
  rw [web_modifyStub_of_ties rfl]
  exact web_modifyStub_eq rfl

theorem web_removeReq : (c.removeReq s r).web =
    c.web.set r fun t => { t with deps := t.deps.erase s } := by
  unfold removeReq
  dsimp only
  split
  · rw [web_insertEvent]; exact web_modifyStub_eq rfl
  · exact web_modifyStub_eq rfl

theorem web_removeReqs (rs : List StubId) : (c.removeReqs s rs).web = c.web.sever s rs := by
  induction rs generalizing c with
  | nil => rfl
  | cons r rs ih =>
    change ((c.removeReq s r).removeReqs s rs).web = _
    rw [ih, web_removeReq]
    rfl

theorem web_deleteReqs : (c.deleteReqs s).web = c.web.release s := by
  have hlist : ((c.removeReqs s (c.stub s).reqs).stub s).list = (c.stub s).list := by
    change ((c.removeReqs s (c.stub s).reqs).web.ties s).list = _
    rw [web_removeReqs]
    exact (Web.sever_frame (x := s) c.web s (c.stub s).reqs).2.1
  unfold deleteReqs
  dsimp only
  rw [hlist, web_modifyStub_eq (g := fun t => { t with reqs := [], list := [] }) rfl,
    web_removeReqs, web_removeReqs]
  unfold Web.release Web.sever
  rw [List.foldl_append]
  rfl

theorem web_removeDeps (ds : List StubId) : (c.removeDeps s ds).web =
    ds.foldl (fun w t => w.set t fun u =>
      if u.status < 0 then { u with list := u.list.erase s }
      else { u with reqs := u.reqs.erase s }) c.web := by
  unfold removeDeps
  induction ds generalizing c with
  | nil => rfl
  | cons d ds ih =>
    rw [List.foldl_cons, List.foldl_cons, ih]
    congr 1
    split
    · rename_i h
      refine web_modifyStub_eq ?_
      rw [if_pos (show (c.stub d).ties.status < 0 from h)]
      rfl
    · rename_i h
      refine web_modifyStub_eq ?_
      rw [if_neg (show ¬ (c.stub d).ties.status < 0 from h)]
      rfl

theorem web_dropOldReqs : (c.dropOldReqs d).web = c.web ∧ (c.stub d).list = [] ∨
    (c.dropOldReqs d).web = c.web.dropOld d := by
  unfold dropOldReqs
  by_cases h : (c.stub d).list = []
  · rw [if_pos h]; exact Or.inl ⟨rfl, h⟩
  · rw [if_neg h]
    refine Or.inr ?_
    dsimp only
    rw [web_modifyStub_eq (g := fun t => { t with list := [] }) rfl, web_removeReqs]
    rfl

theorem web_getSeq (offset count : Int) : ∃ q : HttpRequest, q.method = .get ∧
    q.context = some s ∧ (c.getSeq s offset count).web = c.web.ask q :=
  ⟨_, rfl, rfl, rfl⟩

/-! ## Inner moves -/

/-- The web changes by inner moves. -/
def Leads (c c' : Core) : Prop :=
  ∃ ms : List Move, Run Web.Step c.web ms c'.web ∧ ∀ m ∈ ms, m.inner = true

theorem Leads.of_web (h : c'.web = c.web) : Leads c c' :=
  ⟨[], h ▸ Run.nil, fun _ hm => absurd hm List.not_mem_nil⟩

theorem Leads.refl (c : Core) : Leads c c := Leads.of_web rfl

theorem Leads.trans (h : Leads c c') (h' : Leads c' c'') : Leads c c'' := by
  obtain ⟨ms, hrun, hms⟩ := h
  obtain ⟨ms', hrun', hms'⟩ := h'
  refine ⟨ms ++ ms', hrun.trans hrun', fun m hm => ?_⟩
  exact (List.mem_append.mp hm).elim (hms m) (hms' m)

theorem Leads.step {m : Move} (h : Web.Step c.web m c'.web) (hm : m.inner = true) :
    Leads c c' :=
  ⟨[m], Run.single h, fun _ hx => List.mem_singleton.mp hx ▸ hm⟩

/-- A change that keeps the ties of the Stub. -/
theorem Leads.modifyStub {f : Stub → Stub} (h : (f (c.stub s)).ties = (c.stub s).ties) :
    Leads c (c.modifyStub s f) :=
  Leads.of_web (web_modifyStub_of_ties h)

/-- A loop whose passes all lead on leads on. -/
theorem Leads.foldlM {α : Type} {f : Core → α → Option Core} {l : List α}
    (h : l.foldlM f c = some c') (hstep : ∀ c a c', a ∈ l → f c a = some c' → Leads c c') :
    Leads c c' :=
  foldlM_preserves (J := Leads c) h
    (fun b a b' ha hb hf => hb.trans (hstep b a b' ha hf)) (Leads.refl c)

theorem addDep_leads (r d : StubId) : Leads c (c.addDep r d) :=
  Leads.step (web_addDep ▸ Web.Step.link r d) rfl

theorem newDep_leads {d : Option StubId} {flag : BitVec 32} : Leads c (c.newDep r d flag) := by
  cases d with
  | none => exact Leads.refl c
  | some d =>
    unfold newDep
    exact (addDep_leads r d).trans ((Leads.modifyStub rfl).trans (Leads.modifyStub rfl))

theorem getStub_leads {name : Name} {type : SeType} {conn : ConnId}
    (h : c.getStub fuel name type conn = some (c', s)) : Leads c c' := by
  unfold getStub at h
  obtain ⟨⟨head, found⟩, _, h⟩ := Option.bind_eq_some_iff.mp h
  cases found with
  | some found =>
    obtain ⟨rfl, rfl⟩ := Prod.mk.inj (Option.some.inj h)
    exact Leads.refl c
  | none =>
    -- the ties of the new Stub are blank, whichever chain it joins
    have hweb : ((c.newResource name type).1.modifyStub c.freshStub fun t =>
        { t with conn := conn, pollRate := 900 }).web = c.web.create := by
      rw [web_modifyStub_of_ties rfl]
      unfold newResource web Web.create
      congr 1
      funext x
      dsimp only
      by_cases hx : x = c.freshStub
      · subst hx; rw [Function.update_self, Function.update_self]; rfl
      · rw [Function.update_of_ne hx, Function.update_of_ne hx]
    have hstep := Leads.step (hweb ▸ Web.Step.create) rfl
    cases head with
    | some head =>
      obtain ⟨rfl, rfl⟩ := Prod.mk.inj (Option.some.inj h)
      exact hstep.trans (Leads.of_web rfl)
    | none =>
      obtain ⟨rfl, rfl⟩ := Prod.mk.inj (Option.some.inj h)
      exact hstep.trans (Leads.of_web rfl)

/-! ## The completion functions -/

/-- The pass of the loop of `dep_reset` before it goes on. -/
def unmeetReq (c : Core) (s d : StubId) : Core :=
  if (c.stub d).info.isSome then c.modifyStub d fun t => { t with reqs := t.reqs.erase s }
  else c.modifyStub d fun t => { t with flags := t.flags ||| (c.stub s).flag }

theorem depReset_succ : depReset (fuel + 1) c s =
    (c.stub s).deps.foldlM (fun c d => depReset fuel (c.unmeetReq s d) d)
      (c.modifyStub s fun t => { t with complete := false }) := by
  rw [depReset]
  simp only [modifyStub_same]
  rfl

/-- A field of the Stubs that `dep_reset` does not write. -/
theorem depReset_field {α : Type} (p : Stub → α) (hcomplete : ∀ t b, p { t with complete := b } = p t)
    (hreqs : ∀ t l, p { t with reqs := l } = p t) (hflags : ∀ t f, p { t with flags := f } = p t)
    (h : depReset fuel c s = some c') (x : StubId) : p (c'.stub x) = p (c.stub x) := by
  induction fuel generalizing c s c' with
  | zero => cases h
  | succ fuel ih =>
    rw [depReset_succ] at h
    refine foldlM_preserves (J := fun c' => p (c'.stub x) = p (c.stub x)) h ?_
      (congrFun (modifyStub_field c s _ p (hcomplete _ _)) x)
    intro c₁ d c₂ _ h₁ h₂
    rw [ih h₂, ← h₁]
    unfold unmeetReq
    split
    · exact congrFun (modifyStub_field c₁ d _ p (hreqs _ _)) x
    · exact congrFun (modifyStub_field c₁ d _ p (hflags _ _)) x

/-- `dep_reset` leaves the graph alone. -/
theorem depReset_deps (h : depReset fuel c s = some c') (x : StubId) :
    (c'.stub x).deps = (c.stub x).deps :=
  depReset_field (fun t => t.deps) (fun _ _ => rfl) (fun _ _ => rfl) (fun _ _ => rfl) h x

theorem deps_unmeetReq (x : StubId) : ((c.unmeetReq s d).stub x).deps = (c.stub x).deps := by
  unfold unmeetReq
  split <;> exact congrFun (modifyStub_field c d _ (fun t => t.deps) rfl) x

theorem unmeetReq_leads (hd : d ∈ (c.stub s).deps) : Leads c (c.unmeetReq s d) := by
  unfold unmeetReq
  split
  · have hweb : (c.modifyStub d fun t => { t with reqs := t.reqs.erase s }).web =
        c.web.set d fun t => { t with reqs := t.reqs.erase s } := web_modifyStub_eq rfl
    exact Leads.step (hweb ▸ Web.Step.unmeet hd) rfl
  · exact Leads.modifyStub rfl

/-- `dep_reset` takes resources off the requirements of their dependents. -/
theorem depReset_leads (h : depReset fuel c s = some c') : Leads c c' := by
  induction fuel generalizing c s c' with
  | zero => cases h
  | succ fuel ih =>
    rw [depReset_succ] at h
    refine (foldlM_preserves (J := fun c' => (c'.stub s).deps = (c.stub s).deps ∧ Leads c c') h ?_
      ⟨congrFun (modifyStub_field c s _ (fun t => t.deps) rfl) s, Leads.modifyStub rfl⟩).2
    rintro c₁ d c₂ hd ⟨hdeps, hleads⟩ h₂
    refine ⟨by rw [depReset_deps h₂, deps_unmeetReq, hdeps], hleads.trans (Leads.trans ?_ (ih h₂))⟩
    exact unmeetReq_leads (by rw [hdeps]; exact hd)

theorem callCompletion_web : (c.callCompletion s).web = c.web := by
  unfold callCompletion
  split
  · split <;> rfl
  · rfl

theorem insertStub_perm (l : List StubId) (s : StubId) (info : ListInfo) :
    (c.insertStub cl l s info).Perm (insertUnique l s) := by
  unfold insertStub insertUnique
  by_cases h : s ∈ l
  · rw [if_pos h, if_pos h]
  · rw [if_neg h, if_neg h]
    dsimp only
    refine List.perm_middle.trans (List.Perm.cons s ?_)
    rw [List.takeWhile_append_dropWhile]

/-- The completed resource joins the requirements of its dependent, at some place. -/
theorem web_meetReq : ∃ l : List StubId, l.Perm (insertUnique (c.stub d).reqs s) ∧
    (c.meetReq cl s d).1.web = c.web.set d fun t => { t with reqs := l } := by
  unfold meetReq
  split
  · rename_i info _
    have hweb : (c.modifyStub d fun t =>
        { t with reqs := c.insertStub cl t.reqs s info }).web = c.web.set d fun t =>
          { t with reqs := c.insertStub cl (c.stub d).reqs s info } := web_modifyStub_eq rfl
    exact ⟨_, insertStub_perm _ s info, hweb⟩
  · have hweb : (c.modifyStub d fun t => { t with
        reqs := insertUnique t.reqs s
        flags := t.flags &&& ~~~(c.stub s).flag }).web = c.web.set d fun t =>
          { t with reqs := insertUnique (c.stub d).reqs s } := web_modifyStub_eq rfl
    exact ⟨_, List.Perm.refl _, hweb⟩

theorem meetReq_leads (hd : d ∈ (c.stub s).deps) : Leads c (c.meetReq cl s d).1 := by
  obtain ⟨l, hl, hweb⟩ := @web_meetReq c s d cl
  exact Leads.step (hweb ▸ Web.Step.meet hd hl) rfl

theorem dropOldReqs_leads : Leads c (c.dropOldReqs d) := by
  rcases web_dropOldReqs (c := c) (d := d) with ⟨h, _⟩ | h
  · exact Leads.of_web h
  · exact Leads.step (h ▸ Web.Step.dropOld d) rfl

theorem depCompleteLoop_leads {next : Core → StubId → Option Core}
    (hnext : ∀ c d c', next c d = some c' → Leads c c') {ds : List StubId}
    (h : depCompleteLoop cl next s c ds = some c') : Leads c c' := by
  induction ds generalizing c with
  | nil =>
    obtain rfl := Option.some.inj h
    exact Leads.refl c
  | cons d ds ih =>
    rw [depCompleteLoop] at h
    by_cases hd : d ∉ (c.stub s).deps
    · rw [if_pos hd] at h
      exact ih h
    · rw [if_neg hd] at h
      have hmeet : Leads c (c.meetReq cl s d).1 := meetReq_leads (not_not.mp hd)
      dsimp only at h
      split at h
      · cases h
      · rename_i c₁ hpass
        split at h
        · cases h
        · refine hmeet.trans (Leads.trans ?_ (ih h))
          split at hpass
          · exact dropOldReqs_leads.trans (hnext _ _ _ hpass)
          · obtain rfl := Option.some.inj hpass
            exact Leads.refl _

/-- `dep_complete` lets resources join the requirements of their dependents. -/
theorem depComplete_leads (h : depComplete cl fuel c s = some c') : Leads c c' := by
  induction fuel generalizing c s c' with
  | zero => cases h
  | succ fuel ih =>
    rw [depComplete] at h
    refine Leads.trans (Leads.of_web ?_) (depCompleteLoop_leads (fun _ _ _ => ih) h)
    rw [web_modifyStub_of_ties rfl, callCompletion_web]

/-! ## The retrieval functions -/

theorem updateResource_leads (h : c.updateResource fuel s = some c') : Leads c c' := by
  unfold updateResource at h
  by_cases hbusy : (c.stub s).status < 0
  · rw [if_pos hbusy] at h
    obtain rfl := Option.some.inj h
    exact Leads.refl c
  · rw [if_neg hbusy] at h
    obtain ⟨c₃, hreset, rfl⟩ := Option.map_eq_some_iff.mp h
    -- the offset is not a tie
    generalize hc₁ : (if (c.stub s).all ≠ 0 then c.modifyStub s fun t => { t with offset := 0 }
      else c) = c₁ at hreset
    have hleads₁ : Leads c c₁ := by
      subst hc₁
      split
      · exact Leads.modifyStub rfl
      · exact Leads.refl c
    have hstatus₁ : (c₁.stub s).status = (c.stub s).status := by
      subst hc₁
      split
      · exact congrFun (modifyStub_field c s _ (fun t => t.status) rfl) s
      · rfl
    -- the requirements are the old ones now
    generalize hc₂ : c₁.modifyStub s (fun t => { t with list := t.reqs, reqs := [] }) = c₂ at hreset
    have hleads₂ : Leads c₁ c₂ := by
      have hweb : c₂.web = c₁.web.set s fun t => { t with list := t.reqs, reqs := [] } := by
        subst hc₂
        exact web_modifyStub_eq rfl
      refine Leads.step (hweb ▸ Web.Step.refresh ?_) rfl
      exact (not_lt.mp hbusy).trans_eq hstatus₁.symm
    have hstatus₂ : (c₂.stub s).status = (c.stub s).status := by
      subst hc₂
      rw [modifyStub_same]
      exact hstatus₁
    have hleads₃ : Leads c₂ c₃ ∧ (c₃.stub s).status = (c.stub s).status := by
      split at hreset
      · exact ⟨depReset_leads hreset, (depReset_field (fun t => t.status) (fun _ _ => rfl)
          (fun _ _ => rfl) (fun _ _ => rfl) hreset s).trans hstatus₂⟩
      · obtain rfl := Option.some.inj hreset
        rw [modifyStub_same]
        exact ⟨Leads.modifyStub rfl, hstatus₂⟩
    refine hleads₁.trans (hleads₂.trans (hleads₃.1.trans (Leads.step (m := .send s) ?_ rfl)))
    have hweb : (c₃.modifyStub s fun t => { t with status := -1 }).web =
        c₃.web.set s fun t => { t with status := -1 } := web_modifyStub_eq rfl
    obtain ⟨q, hget, hctx, hq⟩ := web_getSeq (s := s)
      (c := c₃.modifyStub s fun t => { t with status := -1 }) 0
      ((c₃.modifyStub s fun t => { t with status := -1 }).stub s).all.toInt
    rw [hq, hweb]
    exact Web.Step.send ((not_lt.mp hbusy).trans_eq hleads₃.2.symm) hget hctx

theorem getResource_leads {conn : ConnId} {type : SeType} {href : Name} {count : BitVec 32}
    {r : Option StubId} (h : c.getResource cl fuel conn type href count = some (c', r)) :
    Leads c c' := by
  unfold getResource at h
  split at h
  · obtain ⟨rfl, rfl⟩ := Prod.mk.inj (Option.some.inj h)
    exact Leads.refl c
  · obtain ⟨⟨c₁, s⟩, hstub, h⟩ := Option.bind_eq_some_iff.mp h
    refine (getStub_leads hstub).trans ?_
    dsimp only at h
    split at h
    · obtain ⟨c₂, hupdate, h⟩ := Option.bind_eq_some_iff.mp h
      obtain ⟨rfl, rfl⟩ := Prod.mk.inj (Option.some.inj h)
      exact (Leads.modifyStub rfl).trans (updateResource_leads hupdate)
    · obtain ⟨rfl, rfl⟩ := Prod.mk.inj (Option.some.inj h)
      exact Leads.refl c₁

theorem pollResource_web : (c.pollResource s).web = c.web := by
  unfold pollResource
  dsimp only
  split
  · rfl
  · split
    · rw [web_insertEvent]; exact web_modifyStub_of_ties rfl
    · rfl

theorem depCall_leads {call : DepCall} (h : c.depCall cl fuel call = some c') : Leads c c' := by
  cases call with
  | link r type href count flag =>
    obtain ⟨⟨c₁, d⟩, hget, h⟩ := Option.bind_eq_some_iff.mp h
    obtain rfl := Option.some.inj h
    exact (getResource_leads hget).trans newDep_leads
  | root conn type href count =>
    obtain ⟨⟨c₁, d⟩, hget, rfl⟩ := Option.map_eq_some_iff.mp h
    exact getResource_leads hget
  | poll s =>
    obtain rfl := Option.some.inj h
    exact Leads.of_web pollResource_web
  | setPollRate s rate =>
    obtain rfl := Option.some.inj h
    exact Leads.modifyStub rfl
  | setCompletion s f =>
    obtain rfl := Option.some.inj h
    exact Leads.modifyStub rfl

theorem callDep_leads (h : c.callDep cl fuel s = some c') : Leads c c' :=
  Leads.foldlM h fun _ _ _ _ => depCall_leads

theorem updateExisting_leads {obj : SeObject} (h : c.updateExisting cl fuel s obj = some c') :
    Leads c c' := by
  obtain ⟨c₁, hdep, h⟩ := Option.bind_eq_some_iff.mp h
  have hstore : Leads c (c.storeData s obj) := Leads.modifyStub rfl
  refine hstore.trans ((callDep_leads hdep).trans ?_)
  split at h
  · exact depComplete_leads h
  · obtain rfl := Option.some.inj h
    exact Leads.refl c₁

theorem listItems_leads {info : ListInfo} {items : List SeObject}
    (h : c.listItems cl fuel s info items = some c') : Leads c c' := by
  refine Leads.foldlM h fun c₁ item c₂ _ hitem => ?_
  dsimp only at hitem
  split at hitem
  · obtain rfl := Option.some.inj hitem
    exact Leads.refl c₁
  · obtain ⟨⟨c₃, d⟩, hstub, hitem⟩ := Option.bind_eq_some_iff.mp hitem
    exact (getStub_leads hstub).trans ((addDep_leads s d).trans (updateExisting_leads hitem))

/-- `get_moved` ends with one move: the Stub is redirected, or just loses its
requirements. -/
theorem getMoved_spec {location : Option Name} (h : c.getMoved cl fuel s location = some c') :
    ∃ c₁, Leads c c₁ ∧ (c'.web = c₁.web.release s ∨ ∃ t, c'.web = c₁.web.moveTo s t) := by
  unfold getMoved at h
  cases location with
  | none =>
    obtain rfl := Option.some.inj h
    exact ⟨c, Leads.refl c, Or.inl web_deleteReqs⟩
  | some href =>
    obtain ⟨⟨c₁, target⟩, hget, h⟩ := Option.bind_eq_some_iff.mp h
    refine ⟨c₁, getResource_leads hget, ?_⟩
    cases target with
    | none =>
      obtain rfl := Option.some.inj h
      exact Or.inl web_deleteReqs
    | some t =>
      obtain rfl := Option.some.inj h
      refine Or.inr ⟨t, ?_⟩
      rw [web_deleteReqs, web_modifyStub_eq (g := fun u => { u with moved := some t }) rfl,
        web_addDep]
      unfold Web.moveTo
      dsimp only [web_ties, Stub.ties]
      cases (c₁.stub s).moved with
      | none => rfl
      | some m =>
        dsimp only
        split
        · rw [web_removeReq]; rfl
        · rfl

end Core
end SeClient
