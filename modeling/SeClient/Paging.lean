import SeClient.Levels
import SeClient.Resting

/-!
# Paging of list resources

A list is retrieved page by page: `update_resource` sends the first GET, `list_seq` moves
the offset past the items of each page, and `list_object` sends a GET for the rest.
Between its pages a list rests, so a retrieval is where the last page left it, and what it
requests is a matter of the sizes of the pages alone.
-/

namespace SeClient
open Transition

/-! ## Pages and offsets -/

namespace Paging
variable {all n : Nat} {r : Nat} {rs qs : List Nat}

/-- Where each page begins, the first at `n`. -/
def starts : Nat → List Nat → List Nat
  | _, [] => []
  | n, r :: rs => n :: starts (n + r) rs

/-- Where the GETs begin that are sent after pages, from the offset `n` on: one for every
page that leaves items missing. -/
def follow (all : Nat) : Nat → List Nat → List Nat
  | _, [] => []
  | n, r :: rs => if n + r < all then (n + r) :: follow all (n + r) rs else follow all (n + r) rs

/-- The pages of a list of `all` items: the list is complete with the last one and not
before. -/
structure Covers (all : Nat) (rs : List Nat) : Prop where
  sum : rs.sum = all
  more : ∀ qs, qs <+: rs → qs ≠ [] → qs ≠ rs → qs.sum < all

/-- With offsets that count the items received, there is a GET for every page. -/
theorem Covers.follow (h : Covers all (r :: rs)) (n : Nat) :
    n :: Paging.follow (n + all) n (r :: rs) = starts n (r :: rs) := by
  induction rs generalizing all r n with
  | nil =>
    have hr : r = all := by simpa using h.sum
    rw [Paging.follow, if_neg (by omega)]
    rfl
  | cons r' rs ih =>
    have hlt : r < all := by
      simpa using h.more [r] ⟨r' :: rs, rfl⟩ (List.cons_ne_nil _ _) (by simp)
    have htail : Covers (all - r) (r' :: rs) := by
      refine ⟨?_, fun qs hqs hne hne' => ?_⟩
      · have hsum := h.sum
        rw [List.sum_cons] at hsum
        omega
      · have hmore := h.more (r :: qs) (List.cons_prefix_cons.mpr ⟨rfl, hqs⟩)
          (List.cons_ne_nil _ _) (fun he => hne' (List.cons.inj he).2)
        rw [List.sum_cons] at hmore
        omega
    rw [Paging.follow, if_pos (by omega), starts, ← ih htail (n + r)]
    congr 3
    omega

theorem ofNat_inj {a b : ℕ} (ha : a < 2 ^ 32) (hb : b < 2 ^ 32)
    (h : BitVec.ofNat 32 a = BitVec.ofNat 32 b) : a = b := by
  have hnat := congrArg BitVec.toNat h
  rwa [BitVec.toNat_ofNat, BitVec.toNat_ofNat, Nat.mod_eq_of_lt ha, Nat.mod_eq_of_lt hb] at hnat

theorem ofNat_add (a b : ℕ) :
    BitVec.ofNat 32 a + BitVec.ofNat 32 b = BitVec.ofNat 32 (a + b) :=
  (BitVec.ofNat_add a b).symm

/-- The offsets of the GETs that are sent after pages, as `list_seq` counts them. -/
def offsets (all : BitVec 32) : BitVec 32 → List ℕ → List (BitVec 32)
  | _, [] => []
  | n, r :: rs =>
    let next := n + BitVec.ofNat 32 r
    if 0 < (all - next).toInt then next :: offsets all next rs else offsets all next rs

end Paging

/-! ## One page -/

/-- The index a GET of a list begins at. -/
def HttpRequest.start (q : HttpRequest) : ℤ := q.query.elim 0 Prod.fst

/-- `results` of the list in a response. -/
def Reply.results (reply : Reply) : ℕ := reply.body.elim 0 fun body => body.obj.results.toNat

namespace Core
variable {c c' c'' : Core} {s d x : StubId} {cl : Client} {fuel : Nat} {f g : Stub → Stub}
  {req : HttpRequest} {reply : Reply} {body : Body} {info : ListInfo} {conn : ConnId} {L : Levels}

end Core

/-! ## Retrievals -/

/-- What happens while a list is updating: a call that is not about it, or a page with the
GETs of the list that are sent after it. -/
inductive Turn
  | elsewhere
  | page (reply : Reply) (sent : List HttpRequest)

def Turn.replies : Turn → List Reply
  | .elsewhere => []
  | .page reply _ => [reply]

def Turn.sent : Turn → List HttpRequest
  | .elsewhere => []
  | .page _ sent => sent

section Retrieval
variable {cl : Client} {L : Levels} {s : StubId} {c₀ c₁ c₂ c c' : Core} {all : ℕ} {n : BitVec 32}
  {ps : List Reply} {ls : List Turn} {conn : ConnId} {req : HttpRequest} {reply : Reply}
  {body : Body}

/-- The GETs sent after pages, from the offset `n` on. -/
def Asks (all : ℕ) (n : BitVec 32) (rs : List ℕ) (gets : List HttpRequest) : Prop :=
  gets.map HttpRequest.query = (Paging.offsets (BitVec.ofNat 32 all) n rs).map fun m =>
    some (m.toInt, min (BitVec.ofNat 32 all - m).toInt 255)

theorem Asks.starts {rs : List ℕ} {gets : List HttpRequest} (h : Asks all n rs gets) :
    gets.map HttpRequest.start = (Paging.offsets (BitVec.ofNat 32 all) n rs).map BitVec.toInt := by
  have hstart : HttpRequest.start = (fun m => m.elim 0 Prod.fst) ∘ HttpRequest.query := rfl
  rw [hstart, ← List.map_map, h, List.map_map]
  rfl

/-- The state of a retrieval between its pages. -/
structure Midway (L : Levels) (s : StubId) (all : ℕ) (c₁ c : Core) (rs : List ℕ)
    (gets : List HttpRequest) : Prop where
  fresh : s < c.freshStub
  name : (c.stub s).name = (c₁.stub s).name
  conn : (c.stub s).conn = (c₁.stub s).conn
  info : (c.stub s).info = (c₁.stub s).info
  offset : (c.stub s).offset = (c₁.stub s).offset + BitVec.ofNat 32 rs.sum
  asks : Asks all (c₁.stub s).offset rs gets
  orderly : c.Orderly L

end Retrieval
/-! ## Two retrievals of one list -/

namespace Core

end Core

end SeClient
