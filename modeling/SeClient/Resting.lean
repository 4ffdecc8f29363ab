import SeClient.Calls
import SeClient.Refetch

/-!
# A Stub that is updating rests

While the status of a Stub is -1 nothing but a response to one of its own requests moves
its offset, clears its status or changes what it has asked for.  `Rests` says so of each
function of `retrieve.c` that runs on behalf of other Stubs, and of every call that is not
about the Stub.
-/

namespace SeClient
open Transition

/-- What paging keeps in a Stub, with what says which list it is. -/
structure Place where
  name : Name
  info : Option ListInfo
  conn : ConnId
  status : Int
  offset : BitVec 32
deriving DecidableEq, Repr

def Stub.place (t : Stub) : Place :=
  { name := t.name, info := t.info, conn := t.conn, status := t.status, offset := t.offset }

namespace Core
variable {c c' c'' : Core} {s r d x : StubId} {cl : Client} {fuel : Nat} {f : Stub → Stub}

/-- The requests of `s` that wait for their responses. -/
def asked (c : Core) (s : StubId) : List HttpRequest :=
  c.requests.filter fun q => q.context = some s

/-- While `s` is updating its place and its requests stay as they are. -/
def Rests (s : StubId) (c c' : Core) : Prop :=
  (c.stub s).status < 0 → s < c.freshStub →
    (c'.stub s).place = (c.stub s).place ∧ c'.asked s = c.asked s ∧ s < c'.freshStub

theorem Rests.refl (s : StubId) (c : Core) : Rests s c c := fun _ hs => ⟨rfl, rfl, hs⟩

theorem Rests.trans (h : Rests s c c') (h' : Rests s c' c'') : Rests s c c'' := by
  intro hstatus hs
  obtain ⟨hplace, hasked, hs'⟩ := h hstatus hs
  have hstatus' : (c'.stub s).place.status < 0 := by
    rw [hplace]
    exact hstatus
  obtain ⟨hplace', hasked', hs''⟩ := h' hstatus' hs'
  exact ⟨hplace'.trans hplace, hasked'.trans hasked, hs''⟩

theorem Rests.of_frame (hstub : c'.stub s = c.stub s) (hreq : c'.requests = c.requests)
    (hfresh : c'.freshStub = c.freshStub) : Rests s c c' := by
  intro _ hs
  exact ⟨by rw [hstub], by unfold asked; rw [hreq], hfresh.symm ▸ hs⟩

theorem Rests.modifyStub (h : (f (c.stub x)).place = (c.stub x).place) :
    Rests s c (c.modifyStub x f) :=
  fun _ hs => ⟨congrFun (modifyStub_field c x f Stub.place h) s, rfl, hs⟩

theorem Rests.modifyStub_of_ne (h : s ≠ x) : Rests s c (c.modifyStub x f) :=
  Rests.of_frame (c.modifyStub_of_ne f h) rfl rfl

theorem Rests.foldlM {α : Type} {g : Core → α → Option Core} {l : List α}
    (h : l.foldlM g c = some c') (hstep : ∀ c a c', a ∈ l → g c a = some c' → Rests s c c') :
    Rests s c c' :=
  foldlM_preserves (J := Rests s c) h
    (fun b a b' ha hb hg => hb.trans (hstep b a b' ha hg)) (Rests.refl s c)

theorem Rests.foldl {α : Type} {g : Core → α → Core} {l : List α}
    (hstep : ∀ c a, Rests s c (g c a)) : Rests s c (l.foldl g c) := by
  induction l generalizing c with
  | nil => exact Rests.refl s c
  | cons a l ih => exact (hstep c a).trans ih

/-- A call that is not about `s`: it answers no request of `s`, stores no status under the
path of `s`, and gives up neither `s` nor a request of `s`, also with a connection that is
closed. -/
def Foreign (cl : Client) (fuel : Nat) (c : Core) (s : StubId) : Retrieval → Prop
  | .processHttp conn reply => ∀ req, c.requests.find? (fun r => r.conn = conn) = some req →
      req.context ≠ some s ∧ c.findTarget cl fuel req ≠ some (some s) ∧
        (reply.invalid = true → ∀ q ∈ c.requests, q.conn = conn → q.context ≠ some s)
  | .cleanupHttp conn => ∀ q ∈ c.requests, q.conn = conn → q.context ≠ some s
  | .deleteStub d | .removeStub d => d ≠ s
  | .getResource .. | .updateResource _ | .pass _ => True

theorem Rests.requests {rs : List HttpRequest}
    (h : (rs.filter fun q => q.context = some s) = c.asked s) :
    Rests s c { c with requests := rs } :=
  fun _ hs => ⟨rfl, h, hs⟩

end Core
end SeClient
