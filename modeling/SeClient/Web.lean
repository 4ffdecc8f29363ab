import SeClient.Retrieve
import SeClient.Transition

/-!
# The web of Stubs

A Stub refers to other Stubs through four fields, and the requests that wait for a
response refer to Stubs through their contexts.  `Web` is that part of the memory, with
the status that decides whether a Stub is fetched again.  `Web.Step` says once what the
functions of `retrieve.c` do to it, move by move; everything about the dependency graph
is derived from the moves.

* A **link** adds a dependent: the only move, with `moveTo`, that adds an edge.
* A requirement is **met** when its resource is complete, and **unmet** when it is reset.
* A Stub is **refreshed** and its GET is **sent**; the response **answers** it.
-/

namespace SeClient
open Transition

/-! ## Ties -/

/-- The fields of a Stub that tie it to other Stubs, and its status. -/
structure Ties where
  deps : List StubId := []
  reqs : List StubId := []
  list : List StubId := []
  moved : Option StubId := none
  status : Int := 0
deriving DecidableEq, Repr

def Stub.ties (t : Stub) : Ties :=
  { deps := t.deps, reqs := t.reqs, list := t.list, moved := t.moved, status := t.status }

/-- The web: the ties of every Stub, the requests that wait, and what the next `malloc`
of a Stub returns. -/
structure Web where
  ties : StubId → Ties
  requests : List HttpRequest
  fresh : StubId

def Core.web (c : Core) : Web := ⟨fun s => (c.stub s).ties, c.requests, c.freshStub⟩

namespace Web

def set (w : Web) (s : StubId) (f : Ties → Ties) : Web :=
  { w with ties := Function.update w.ties s (f (w.ties s)) }

def ask (w : Web) (q : HttpRequest) : Web := { w with requests := w.requests ++ [q] }

/-- `d` is taken off the dependents of each of `rs`. -/
def sever (w : Web) (d : StubId) (rs : List StubId) : Web :=
  rs.foldl (fun w r => w.set r fun t => { t with deps := t.deps.erase d }) w

/-- A Stub of an unused identity. -/
def create (w : Web) : Web :=
  { w with ties := Function.update w.ties w.fresh {}, fresh := w.fresh + 1 }

def link (w : Web) (r d : StubId) : Web :=
  w.set d fun t => { t with deps := Core.insertUnique t.deps r }

/-- The old requirements of `d` that were not met again are dropped. -/
def dropOld (w : Web) (d : StubId) : Web :=
  (w.sever d (Core.listSubtract (w.ties d).list (w.ties d).reqs)).set d fun t =>
    { t with list := [] }

/-- All requirements of `s` are dropped. -/
def release (w : Web) (s : StubId) : Web :=
  (w.sever s ((w.ties s).reqs ++ (w.ties s).list)).set s fun t => { t with reqs := [], list := [] }

/-- `s` is redirected to `t`. -/
def moveTo (w : Web) (s t : StubId) : Web :=
  let w :=
    match (w.ties s).moved with
    | some m => if m ≠ t then w.sever s [m] else w
    | none => w
  ((w.link s t).set s fun u => { u with moved := some t }).release s

/-- `s` is taken off the requirements of its dependents: off `list` while one updates,
else off `reqs`. -/
def strike (w : Web) (s : StubId) : Web :=
  (w.ties s).deps.foldl (fun w t => w.set t fun u =>
    if u.status < 0 then { u with list := u.list.erase s } else { u with reqs := u.reqs.erase s }) w

/-- What `s` requires is told: the Stub it moved to, or else its requirements. -/
def shed (w : Web) (s : StubId) : Web :=
  match (w.ties s).moved with
  | some m => w.sever s [m]
  | none => w.release s

/-- What removing `s` does to the other Stubs. -/
def remove (w : Web) (s : StubId) : Web := (w.shed s).strike s

end Web

/-! ## Moves -/

/-- The moves of `retrieve.c`, each with the Stubs it is about. -/
inductive Move
  | create
  | link (r d : StubId)
  | meet (s d : StubId)
  | unmeet (s d : StubId)
  | dropOld (d : StubId)
  | release (s : StubId)
  | refresh (s : StubId)
  | send (s : StubId)
  | page (s : StubId)
  | ask
  | receive (q : HttpRequest)
  | answer (s : StubId)
  | moveTo (s t : StubId)
  | remove (s : StubId)
  | hang (conn : ConnId)
deriving DecidableEq, Repr

/-- The moves made on behalf of a resource while its response is processed. -/
def Move.inner : Move → Bool
  | .create | .link .. | .meet .. | .unmeet .. | .dropOld .. | .refresh .. | .send .. => true
  | _ => false

/-- **What a move does to the web.** -/
inductive Web.Step : Web → Move → Web → Prop
  | create {w : Web} : Step w .create w.create
  | link {w : Web} (r d : StubId) : Step w (.link r d) (w.link r d)
  /-- A resource is complete: it joins the requirements of a dependent. -/
  | meet {w : Web} {s d : StubId} {l : List StubId} : d ∈ (w.ties s).deps →
      l.Perm (Core.insertUnique (w.ties d).reqs s) →
      Step w (.meet s d) (w.set d fun t => { t with reqs := l })
  /-- A resource is reset: it leaves the requirements of a dependent. -/
  | unmeet {w : Web} {s d : StubId} : d ∈ (w.ties s).deps →
      Step w (.unmeet s d) (w.set d fun t => { t with reqs := t.reqs.erase s })
  | dropOld {w : Web} (d : StubId) : Step w (.dropOld d) (w.dropOld d)
  | release {w : Web} (s : StubId) : Step w (.release s) (w.release s)
  /-- An update begins: the requirements are the old ones now. -/
  | refresh {w : Web} {s : StubId} : 0 ≤ (w.ties s).status →
      Step w (.refresh s) (w.set s fun t => { t with list := t.reqs, reqs := [] })
  /-- The GET of an update is sent. -/
  | send {w : Web} {s : StubId} {q : HttpRequest} : 0 ≤ (w.ties s).status →
      q.method = .get → q.context = some s →
      Step w (.send s) ((w.set s fun t => { t with status := -1 }).ask q)
  /-- The GET of a further page is sent. -/
  | page {w : Web} {s : StubId} {q : HttpRequest} : q.method = .get → q.context = some s →
      Step w (.page s) (w.ask q)
  /-- Another request is sent. -/
  | ask {w : Web} {q : HttpRequest} : q.method ≠ .get → Step w .ask (w.ask q)
  | receive {w : Web} (q : HttpRequest) :
      Step w (.receive q) { w with requests := w.requests.erase q }
  /-- The status of a response is stored. -/
  | answer {w : Web} (s : StubId) (status : Int) :
      Step w (.answer s) (w.set s fun t => { t with status := status })
  | moveTo {w : Web} (s t : StubId) : Step w (.moveTo s t) (w.moveTo s t)
  | remove {w : Web} (s : StubId) : Step w (.remove s) (w.remove s)
  /-- The requests of a connection are given up. -/
  | hang {w : Web} (conn : ConnId) :
      Step w (.hang conn) { w with requests := w.requests.filter fun q => q.conn ≠ conn }

/-! ## The laws of the web -/

namespace Web
variable (w : Web) {s x : StubId} (f g : Ties → Ties) (d r : StubId) (rs : List StubId)

@[simp] theorem set_same : (w.set s f).ties s = f (w.ties s) := Function.update_self ..

variable {w} in
theorem set_of_ne (h : x ≠ s) : (w.set s f).ties x = w.ties x := Function.update_of_ne h ..

@[simp] theorem set_frame : (w.set s f).requests = w.requests ∧ (w.set s f).fresh = w.fresh :=
  ⟨rfl, rfl⟩

@[simp] theorem set_set : (w.set s f).set s g = w.set s (g ∘ f) := by
  simp [set]

variable {w f} in
theorem set_eq_self (h : f (w.ties s) = w.ties s) : w.set s f = w := by
  simp [set, h]

variable {w f g} in
theorem set_congr (h : f (w.ties s) = g (w.ties s)) : w.set s f = w.set s g := by
  simp [set, h]

theorem sever_cons : w.sever d (r :: rs) =
    (w.set r fun t => { t with deps := t.deps.erase d }).sever d rs := rfl

/-- Severing changes the dependents alone. -/
theorem sever_frame : ((w.sever d rs).ties x).reqs = (w.ties x).reqs ∧
    ((w.sever d rs).ties x).list = (w.ties x).list ∧
    ((w.sever d rs).ties x).moved = (w.ties x).moved ∧
    ((w.sever d rs).ties x).status = (w.ties x).status ∧
    (w.sever d rs).requests = w.requests ∧ (w.sever d rs).fresh = w.fresh := by
  induction rs generalizing w with
  | nil => exact ⟨rfl, rfl, rfl, rfl, rfl, rfl⟩
  | cons r rs ih =>
    rw [sever_cons]
    obtain ⟨h₁, h₂, h₃, h₄, h₅, h₆⟩ := ih (w.set r fun t => { t with deps := t.deps.erase d })
    rw [h₁, h₂, h₃, h₄, h₅, h₆]
    by_cases hx : x = r
    · subst hx; simp
    · rw [set_of_ne _ hx]; simp

/-- Only `d` is severed, and nobody gains a dependent. -/
theorem sever_deps : ((w.sever d rs).ties x).deps.Sublist (w.ties x).deps ∧
    ∀ y ∈ (w.ties x).deps, y ≠ d ∨ x ∉ rs → y ∈ ((w.sever d rs).ties x).deps := by
  induction rs generalizing w with
  | nil => exact ⟨List.Sublist.refl _, fun _ hy _ => hy⟩
  | cons r rs ih =>
    rw [sever_cons]
    obtain ⟨hsub, hkeep⟩ := ih (w.set r fun t => { t with deps := t.deps.erase d })
    by_cases hx : x = r
    · subst hx
      rw [set_same] at hsub hkeep
      refine ⟨hsub.trans List.erase_sublist, fun y hy hor => hkeep y ?_ ?_⟩
      · exact (List.mem_erase_of_ne (hor.resolve_right (by simp))).mpr hy
      · exact Or.inl (hor.resolve_right (by simp))
    · rw [set_of_ne _ hx] at hsub hkeep
      exact ⟨hsub, fun y hy hor => hkeep y hy (hor.imp_right fun h h' => h (List.mem_cons_of_mem _ h'))⟩

/-- Severing takes `d` off where it stands once. -/
theorem not_mem_sever (hnd : (w.ties x).deps.Nodup) (hx : x ∈ rs) :
    d ∉ ((w.sever d rs).ties x).deps := by
  induction rs generalizing w with
  | nil => exact absurd hx List.not_mem_nil
  | cons r rs ih =>
    rw [sever_cons]
    by_cases hr : x = r
    · subst hr
      intro hmem
      have hsub := (sever_deps (x := x) (w.set x fun t => { t with deps := t.deps.erase d }) d rs).1
      rw [set_same] at hsub
      exact hnd.not_mem_erase (hsub.subset hmem)
    · refine ih _ ?_ ((List.mem_cons.mp hx).resolve_left hr)
      rw [set_of_ne _ hr]
      exact hnd

end Web

/-! ## The memory's web -/

namespace Core
variable (c : Core) (s r d : StubId)

@[simp] theorem web_ties : c.web.ties s = (c.stub s).ties := rfl

theorem web_modifyStub (f : Stub → Stub) :
    (c.modifyStub s f).web = c.web.set s fun _ => (f (c.stub s)).ties := by
  unfold web modifyStub Web.set
  congr 1
  funext x
  dsimp only
  by_cases hx : x = s
  · subst hx; rw [Function.update_self, Function.update_self]
  · rw [Function.update_of_ne hx, Function.update_of_ne hx]

variable {c s} in
/-- A change that keeps the ties keeps the web. -/
theorem web_modifyStub_of_ties {f : Stub → Stub} (h : (f (c.stub s)).ties = (c.stub s).ties) :
    (c.modifyStub s f).web = c.web := by
  rw [web_modifyStub]
  exact Web.set_eq_self h

variable {c s} in
theorem web_modifyStub_eq {f : Stub → Stub} {g : Ties → Ties}
    (h : (f (c.stub s)).ties = g (c.stub s).ties) : (c.modifyStub s f).web = c.web.set s g := by
  rw [web_modifyStub]
  exact Web.set_congr h

@[simp] theorem web_insertEvent (data : EventData) (type : EventType) (time : Int) :
    (c.insertEvent data type time).web = c.web := by
  unfold insertEvent
  dsimp only
  split <;> rfl

@[simp] theorem web_removeEvent (data : EventData) : (c.removeEvent data).web = c.web := rfl

end Core
end SeClient
