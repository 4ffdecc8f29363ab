import SeClient.Weaving

/-!
# The calls of the retrieval module

What the application and the event loop call: `get_resource`, `update_resource`,
`process_http` for a response, `delete_stub`, `remove_stub` (the handling of
RESOURCE_REMOVE and RETRIEVE_FAIL) and `cleanup_http`.  Every call leaves the web as a
sequence of moves does.
-/

namespace SeClient
open Transition

namespace Core

/-- `delete_stub`. -/
def deleteStub (c : Core) (s : StubId) : Core :=
  { c with requests := c.requests ++
      [⟨(c.stub s).conn, .delete, (c.stub s).name, none, some s⟩] }

/-- `cleanup_http`: the requests of a connection are given up, and the Stubs whose GETs
they are removed. -/
def cleanupHttp (cl : Client) (fuel : Nat) (c : Core) (conn : ConnId) : Option Core :=
  (c.requests.filter fun q => q.conn = conn).foldlM (fun c q =>
    if q.method = .get then q.context.bind fun s => c.removeStub cl fuel s else some c)
    (c.httpClose conn)

end Core

/-- A call of the retrieval module, or time that passes. -/
inductive Retrieval
  | getResource (conn : ConnId) (type : SeType) (href : Name) (count : BitVec 32)
  | updateResource (s : StubId)
  | processHttp (conn : ConnId) (reply : Reply)
  | deleteStub (s : StubId)
  | removeStub (s : StubId)
  | cleanupHttp (conn : ConnId)
  | pass (time : Int)
deriving DecidableEq, Repr

def Core.perform (cl : Client) (fuel : Nat) (c : Core) : Retrieval → Option Core
  | .getResource conn type href count => (c.getResource cl fuel conn type href count).map Prod.fst
  | .updateResource s => c.updateResource fuel s
  | .processHttp conn reply => c.processHttp cl fuel conn reply
  | .deleteStub s => some (c.deleteStub s)
  | .removeStub s => c.removeStub cl fuel s
  | .cleanupHttp conn => c.cleanupHttp cl fuel conn
  | .pass time => some { c with time := time }

namespace Core
variable {c c' c'' : Core} {s : StubId} {cl : Client} {fuel : Nat} {req : HttpRequest}
  {reply : Reply}

/-- The web changes by moves. -/
def Weaves (c c' : Core) : Prop := ∃ ms : List Move, Run Web.Step c.web ms c'.web

theorem Weaves.of_web (h : c'.web = c.web) : Weaves c c' := ⟨[], h ▸ Run.nil⟩

theorem Weaves.refl (c : Core) : Weaves c c := Weaves.of_web rfl

theorem Weaves.trans (h : Weaves c c') (h' : Weaves c' c'') : Weaves c c'' := by
  obtain ⟨ms, hrun⟩ := h
  obtain ⟨ms', hrun'⟩ := h'
  exact ⟨ms ++ ms', hrun.trans hrun'⟩

theorem Weaves.step {m : Move} (h : Web.Step c.web m c'.web) : Weaves c c' := ⟨[m], Run.single h⟩

theorem Leads.weaves (h : Leads c c') : Weaves c c' := by
  obtain ⟨ms, hrun, _⟩ := h
  exact ⟨ms, hrun⟩

theorem answer_weaves (status : Int) :
    Weaves c (c.modifyStub s fun t => { t with status := status }) := by
  have hweb : (c.modifyStub s fun t => { t with status := status }).web =
      c.web.set s fun t => { t with status := status } := web_modifyStub_eq rfl
  exact Weaves.step (hweb ▸ Web.Step.answer s status)

theorem unlinkStub_web (h : c.unlinkStub cl fuel s = some c') : c'.web = c.web := by
  unfold unlinkStub at h
  split at h
  · cases h
  · obtain ⟨⟨next, t⟩, _, h⟩ := Option.bind_eq_some_iff.mp h
    cases t with
    | none =>
      obtain rfl := Option.some.inj h
      rfl
    | some t =>
      obtain rfl := Option.some.inj h
      split <;> rfl

/-- `remove_stub`. -/
theorem removeStub_web (h : c.removeStub cl fuel s = some c') : c'.web = c.web.remove s := by
  obtain ⟨c₁, hunlink, h⟩ := Option.bind_eq_some_iff.mp h
  obtain rfl := Option.some.inj h
  rw [web_removeEvent, web_removeDeps, ← unlinkStub_web hunlink]
  unfold Web.remove Web.shed
  dsimp only [web_ties, Stub.ties]
  cases (c₁.stub s).moved with
  | none =>
    dsimp only
    rw [← web_deleteReqs]
    rfl
  | some m =>
    have hsever : (c₁.removeReq s m).web = c₁.web.sever s [m] := web_removeReq
    dsimp only
    rw [← hsever]
    rfl

theorem listObject_weaves {info : ListInfo} {body : Body} {count : Int}
    (h : c.listObject cl fuel s info body = some (c', count)) : Weaves c c' := by
  unfold listObject at h
  obtain ⟨c₂, hdep, h⟩ := Option.bind_eq_some_iff.mp h
  obtain ⟨c₃, hitems, h⟩ := Option.bind_eq_some_iff.mp h
  have hleads : Leads c c₃ := (Leads.modifyStub rfl).trans ((Leads.modifyStub rfl).trans
    ((callDep_leads hdep).trans (listItems_leads hitems)))
  refine hleads.weaves.trans ?_
  split at h
  · obtain ⟨rfl, rfl⟩ := Prod.mk.inj (Option.some.inj h)
    obtain ⟨q, hget, hctx, hq⟩ := web_getSeq (s := s) (c := c₃) (c₃.stub s).offset.toInt _
    exact Weaves.step (hq ▸ Web.Step.page hget hctx)
  · split at h
    · obtain ⟨c₄, hcomplete, h⟩ := Option.map_eq_some_iff.mp h
      obtain ⟨rfl, rfl⟩ := Prod.mk.inj h
      exact (depComplete_leads hcomplete).weaves
    · obtain ⟨rfl, rfl⟩ := Prod.mk.inj (Option.some.inj h)
      exact Weaves.refl c₃

theorem matchRequest_web {body : Body} {r : StubId} (h : c.matchRequest s body = some (c', r)) :
    c'.web = c.web := by
  unfold matchRequest at h
  split at h
  · split at h
    · obtain ⟨rfl, rfl⟩ := Prod.mk.inj (Option.some.inj h)
      exact web_modifyStub_of_ties rfl
    · split at h
      · cases h
      · obtain ⟨rfl, rfl⟩ := Prod.mk.inj (Option.some.inj h)
        rfl
  · cases h

theorem processGet_weaves (h : c.processGet cl fuel req reply = some c') : Weaves c c' := by
  unfold processGet at h
  split at h
  · split at h
    · obtain rfl := Option.some.inj h
      exact Weaves.refl c
    · rename_i c₁ s hmatch
      refine (Weaves.of_web (matchRequest_web hmatch)).trans ?_
      dsimp only at h
      generalize hc₀ : (c₁.modifyStub s fun t => { t with time := c₁.time }) = c₀ at h
      have hstatus : ∀ (c₂ : Core) (count : Int), Weaves c₂
          (if count = 0 then c₂.modifyStub s fun t => { t with status := reply.status }
            else c₂) := by
        intro c₂ count
        split
        · exact answer_weaves _
        · exact Weaves.refl c₂
      refine (Weaves.of_web (hc₀ ▸ web_modifyStub_of_ties rfl)).trans ?_
      split at h
      · obtain ⟨⟨c₂, count⟩, hlist, h⟩ := Option.bind_eq_some_iff.mp h
        obtain rfl := Option.some.inj h
        exact (listObject_weaves hlist).trans (hstatus c₂ count)
      · obtain ⟨⟨c₂, count⟩, hprocess, h⟩ := Option.bind_eq_some_iff.mp h
        obtain rfl := Option.some.inj h
        obtain ⟨c₃, hupdate, hc₃⟩ := Option.map_eq_some_iff.mp hprocess
        obtain ⟨rfl, rfl⟩ := Prod.mk.inj hc₃
        exact (updateExisting_leads hupdate).weaves.trans (hstatus c₃ 0)
  · split at h
    · obtain rfl := Option.some.inj h
      exact Weaves.refl c
    · cases h
  · obtain rfl := Option.some.inj h
    exact Weaves.refl c

theorem processResponse_weaves (h : c.processResponse cl fuel req reply = some c') :
    Weaves c c' := by
  unfold processResponse at h
  split at h
  · exact processGet_weaves h
  · obtain ⟨target, _, h⟩ := Option.bind_eq_some_iff.mp h
    cases target with
    | none =>
      obtain rfl := Option.some.inj h
      exact Weaves.refl c
    | some s =>
      dsimp only at h
      split at h
      · obtain rfl := Option.some.inj h
        exact Weaves.refl c
      · obtain ⟨location, _, h⟩ := Option.bind_eq_some_iff.mp h
        obtain ⟨⟨c₁, d⟩, hget, h⟩ := Option.bind_eq_some_iff.mp h
        obtain ⟨d, rfl, h⟩ := Option.bind_eq_some_iff.mp h
        obtain rfl := Option.some.inj h
        exact ((getResource_leads hget).trans (addDep_leads s d)).weaves
  · obtain ⟨s, _, h⟩ := Option.bind_eq_some_iff.mp h
    exact Weaves.step (removeStub_web h ▸ Web.Step.remove s)
  · obtain rfl := Option.some.inj h
    exact Weaves.refl c

theorem processRedirect_weaves (h : c.processRedirect cl fuel req reply = some c') :
    Weaves c c' := by
  obtain ⟨target, _, h⟩ := Option.bind_eq_some_iff.mp h
  cases target with
  | none =>
    obtain rfl := Option.some.inj h
    exact Weaves.refl c
  | some s =>
    obtain ⟨c₂, hmoved, h⟩ := Option.bind_eq_some_iff.mp h
    obtain rfl := Option.some.inj h
    obtain ⟨c₁, hleads, hweb⟩ := getMoved_spec hmoved
    refine hleads.weaves.trans (@Weaves.trans _ c₂ _ ?_ (answer_weaves _))
    rcases hweb with hweb | ⟨t, hweb⟩
    · exact Weaves.step (hweb ▸ Web.Step.release s)
    · exact Weaves.step (hweb ▸ Web.Step.moveTo s t)

theorem processHttp_weaves {conn : ConnId} (h : c.processHttp cl fuel conn reply = some c') :
    Weaves c c' := by
  unfold processHttp at h
  split at h
  · obtain rfl := Option.some.inj h
    exact Weaves.refl c
  · rename_i req _
    have hreceive : Weaves c { c with requests := c.requests.erase req } :=
      Weaves.step (Web.Step.receive req)
    split at h
    · obtain rfl := Option.some.inj h
      exact Weaves.step (Web.Step.hang conn)
    refine hreceive.trans ?_
    dsimp only at h
    split at h
    · exact processResponse_weaves h
    · split at h
      · exact processRedirect_weaves h
      · split at h
        · obtain ⟨target, _, h⟩ := Option.bind_eq_some_iff.mp h
          cases target with
          | none =>
            obtain rfl := Option.some.inj h
            exact Weaves.refl _
          | some s =>
            obtain rfl := Option.some.inj h
            exact (answer_weaves reply.status).trans (Weaves.of_web (web_insertEvent ..))
        · obtain rfl := Option.some.inj h
          exact Weaves.refl _

theorem cleanupHttp_weaves {conn : ConnId} (h : c.cleanupHttp cl fuel conn = some c') :
    Weaves c c' := by
  have hhang : Weaves c (c.httpClose conn) := Weaves.step (Web.Step.hang conn)
  refine foldlM_preserves (J := Weaves c) h (fun c₁ q c₂ _ hc₁ hq => hc₁.trans ?_) hhang
  split at hq
  · obtain ⟨s, _, hq⟩ := Option.bind_eq_some_iff.mp hq
    exact Weaves.step (removeStub_web hq ▸ Web.Step.remove s)
  · obtain rfl := Option.some.inj hq
    exact Weaves.refl c₁

/-- **Every call** leaves the web as a sequence of moves does. -/
theorem perform_weaves {call : Retrieval} (h : c.perform cl fuel call = some c') : Weaves c c' := by
  cases call with
  | getResource conn type href count =>
    obtain ⟨⟨c₁, r⟩, hget, rfl⟩ := Option.map_eq_some_iff.mp h
    exact (getResource_leads hget).weaves
  | updateResource s => exact (updateResource_leads h).weaves
  | processHttp conn reply => exact processHttp_weaves h
  | deleteStub s =>
    obtain rfl := Option.some.inj h
    refine Weaves.step (Web.Step.ask ?_)
    exact HttpMethod.noConfusion
  | removeStub s => exact Weaves.step (removeStub_web h ▸ Web.Step.remove s)
  | cleanupHttp conn => exact cleanupHttp_weaves h
  | pass time =>
    obtain rfl := Option.some.inj h
    exact Weaves.of_web rfl

/-- A call that returns, with the moves it makes. -/
def Performs (cl : Client) (c : Core) (i : Retrieval × List Move) (c' : Core) : Prop :=
  (∃ fuel, c.perform cl fuel i.1 = some c') ∧ Run Web.Step c.web i.2 c'.web

/-- The moves of a run of calls are a run of moves. -/
theorem Performs.run {is : List (Retrieval × List Move)} (h : Run (Performs cl) c is c') :
    Run Web.Step c.web (is.flatMap Prod.snd) c'.web := by
  induction h with
  | nil => exact Run.nil
  | snoc _ hs ih =>
    rw [List.flatMap_append, List.flatMap_singleton]
    exact ih.trans hs.2

/-- Calls that return are a run, each with the moves it makes. -/
theorem performs_of_foldlM {calls : List Retrieval}
    (h : calls.foldlM (perform cl fuel) c = some c') :
    ∃ is : List (Retrieval × List Move), is.map Prod.fst = calls ∧ Run (Performs cl) c is c' := by
  induction calls generalizing c with
  | nil =>
    obtain rfl := foldlM_nil_eq_some.mp h
    exact ⟨[], rfl, Run.nil⟩
  | cons call calls ih =>
    obtain ⟨c₁, hcall, h⟩ := foldlM_cons_eq_some.mp h
    obtain ⟨ms, hms⟩ := perform_weaves hcall
    obtain ⟨is, his, hrun⟩ := ih h
    exact ⟨(call, ms) :: is, by rw [List.map_cons, his], Run.cons ⟨⟨fuel, hcall⟩, hms⟩ hrun⟩

end Core
end SeClient
