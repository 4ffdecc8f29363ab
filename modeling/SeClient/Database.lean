import SeClient.Refetch
import Mathlib.Data.List.Perm.Subperm

/-!
# The resource database

`get_stub` puts the Stubs of one name into a chain behind the entry of the hash table, and
`remove_stub` takes one out of its chain.  The entry of an empty chain is to be deleted, but its key
is looked for at the address of the Stub, where the link is stored.
-/

namespace SeClient
namespace Core

/-- What the resource database is made of. -/
structure Directory where
  resources : Name → Option StubId
  next : StubId → Option StubId
  name : StubId → Name
  conn : StubId → ConnId
  fresh : StubId

def directory (c : Core) : Directory where
  resources := c.resources
  next := c.stubNext
  name s := (c.stub s).name
  conn s := (c.stub s).conn
  fresh := c.freshStub

/-- The chains of the database: of each name, the Stubs of distinct connections. -/
structure Directory.Chains (d : Directory) (chains : Name → List StubId) : Prop where
  linked : ∀ n, Chain.Linked d.next (d.resources n) (chains n)
  name : ∀ n, ∀ s ∈ chains n, d.name s = n
  conn : ∀ n, (chains n).Pairwise fun s t => d.conn s ≠ d.conn t
  fresh : ∀ n, ∀ s ∈ chains n, s < d.fresh

/-- Another Stub has the same name, or the name is empty. -/
def Shared (c : Core) (stubs : Set StubId) (s : StubId) : Prop :=
  (c.stub s).name = "" ∨ ∃ t ∈ stubs, t ≠ s ∧ (c.stub t).name = (c.stub s).name

/-- **The Stubs that have been inserted**: `get_stub` inserts one, `remove_stub` removes one that
shares its name or has none, and whatever else is done leaves the database as it is. -/
inductive Inserted : Core → Set StubId → Prop
  | start {c : Core} (h : ∀ n, c.resources n = none) : Inserted c ∅
  | get {c c' : Core} {stubs : Set StubId} {fuel : ℕ} {name : Name} {type : SeType}
    {conn : ConnId} {s : StubId} (h : Inserted c stubs)
    (hget : c.getStub fuel name type conn = some (c', s)) : Inserted c' (insert s stubs)
  | remove {c c' : Core} {stubs : Set StubId} {cl : Client} {fuel : ℕ} {s : StubId}
    (h : Inserted c stubs) (hs : s ∈ stubs) (hshared : c.Shared stubs s)
    (hremove : c.removeStub cl fuel s = some c') : Inserted c' (stubs \ {s})
  | other {c c' : Core} {stubs : Set StubId} (h : Inserted c stubs)
    (hsame : c'.directory = c.directory) : Inserted c' stubs

/-- Neither `find_resource` nor `find_stub` returns the Stub. -/
def Unfound (c : Core) (s : StubId) : Prop :=
  (∀ n, c.findResource n ≠ some s) ∧
    ∀ fuel n conn r, c.findStub fuel n conn = some r → r.2 ≠ some s

/-- `find_stub` returns the Stub for its own name and connection. -/
def Found (c : Core) (s : StubId) : Prop :=
  ∀ fuel, c.freshStub < fuel →
    ∃ head, c.findStub fuel (c.stub s).name (c.stub s).conn = some (head, some s)

/-- **The Stub has been removed** from the database, and no other one. -/
def Removed (c : Core) (stubs : Set StubId) (s : StubId) : Prop :=
  c.Unfound s ∧ ∀ t ∈ stubs, t ≠ s → c.Found t

section
variable {c c' : Core} {d : Directory} {stubs : Set StubId} {s t : StubId} {n name : Name}
  {conn : ConnId} {type : SeType} {fuel : ℕ} {cl : Client} {chains : Name → List StubId}
  {l : List StubId} {h : Option StubId}

/-! ## Frames -/

theorem directory_modifyStub {f : Stub → Stub} (hname : (f (c.stub s)).name = (c.stub s).name)
    (hconn : (f (c.stub s)).conn = (c.stub s).conn) :
    (c.modifyStub s f).directory = c.directory := by
  unfold directory
  rw [modifyStub_field c s f Stub.name hname, modifyStub_field c s f Stub.conn hconn]
  rfl

theorem directory_insertEvent {data : EventData} {type : EventType} {time : Int} :
    (c.insertEvent data type time).directory = c.directory := by
  unfold insertEvent
  dsimp only
  split <;> rfl

theorem directory_removeReq {r : StubId} : (c.removeReq s r).directory = c.directory := by
  unfold removeReq
  dsimp only
  split
  · rw [directory_insertEvent]
    exact directory_modifyStub rfl rfl
  · exact directory_modifyStub rfl rfl

theorem directory_removeReqs {reqs : List StubId} :
    (c.removeReqs s reqs).directory = c.directory := by
  unfold removeReqs
  induction reqs generalizing c with
  | nil => rfl
  | cons r reqs ih =>
    rw [List.foldl_cons, ih]
    exact directory_removeReq

theorem directory_removeDeps {deps : List StubId} :
    (c.removeDeps s deps).directory = c.directory := by
  unfold removeDeps
  induction deps generalizing c with
  | nil => rfl
  | cons t deps ih =>
    rw [List.foldl_cons, ih]
    split
    · exact directory_modifyStub rfl rfl
    · exact directory_modifyStub rfl rfl

theorem directory_deleteReqs : (c.deleteReqs s).directory = c.directory := by
  unfold deleteReqs
  dsimp only
  rw [directory_modifyStub rfl rfl, directory_removeReqs, directory_removeReqs]

/-- What `remove_stub` does to the database is done when the Stub is unlinked. -/
theorem directory_removeStub (h : c.unlinkStub cl fuel s = some c') :
    ∃ c'', c.removeStub cl fuel s = some c'' ∧ c''.directory = c'.directory := by
  unfold removeStub
  rw [h]
  refine ⟨_, rfl, ?_⟩
  show (removeDeps _ s _).directory = _
  rw [directory_removeDeps]
  cases (c'.stub s).moved with
  | none => exact directory_deleteReqs
  | some m => exact directory_removeReq

/-! ## Searching -/

theorem findConn_some {r : StubId} (hl : Chain.Linked c.stubNext h l)
    (hfind : c.findConn conn fuel h = some (some r)) : r ∈ l ∧ (c.stub r).conn = conn := by
  induction l generalizing h fuel with
  | nil =>
    rw [Chain.linked_nil] at hl
    rw [hl] at hfind
    cases fuel with
    | zero => cases hfind
    | succ fuel => cases hfind
  | cons a l ih =>
    obtain ⟨rfl, hl⟩ := hl
    cases fuel with
    | zero => cases hfind
    | succ fuel =>
      rw [findConn] at hfind
      split_ifs at hfind with hconn
      · obtain rfl := Option.some.inj (Option.some.inj hfind)
        exact ⟨List.mem_cons_self, hconn⟩
      · obtain ⟨hmem, hr⟩ := ih hl hfind
        exact ⟨List.mem_cons_of_mem _ hmem, hr⟩

theorem findConn_none (hl : Chain.Linked c.stubNext h l)
    (hfind : c.findConn conn fuel h = some none) : ∀ a ∈ l, (c.stub a).conn ≠ conn := by
  induction l generalizing h fuel with
  | nil => exact fun a ha => absurd ha List.not_mem_nil
  | cons a l ih =>
    obtain ⟨rfl, hl⟩ := hl
    cases fuel with
    | zero => cases hfind
    | succ fuel =>
      rw [findConn] at hfind
      split_ifs at hfind with hconn
      · cases Option.some.inj hfind
      · exact List.forall_mem_cons.mpr ⟨hconn, ih hl hfind⟩

/-- The Stub of a connection is found. -/
theorem findConn_of_mem (hl : Chain.Linked c.stubNext h l) (hfuel : l.length < fuel)
    (hconn : l.Pairwise fun s t => (c.stub s).conn ≠ (c.stub t).conn) (hs : s ∈ l) :
    c.findConn (c.stub s).conn fuel h = some (some s) := by
  induction l generalizing h fuel with
  | nil => exact absurd hs List.not_mem_nil
  | cons a l ih =>
    obtain ⟨rfl, hl⟩ := hl
    obtain ⟨ha, hconn⟩ := List.pairwise_cons.mp hconn
    cases fuel with
    | zero => exact absurd hfuel (Nat.not_lt_zero _)
    | succ fuel =>
      rw [findConn]
      rcases List.mem_cons.mp hs with rfl | hs
      · rw [if_pos rfl]
      · rw [if_neg (ha s hs)]
        exact ih hl (Nat.lt_of_succ_lt_succ hfuel) hconn hs

theorem Directory.Chains.nodup (hd : d.Chains chains) : List.Nodup (chains n) :=
  (hd.conn n).imp fun hne heq => hne (congrArg d.conn heq)

theorem Directory.Chains.length_le (hd : d.Chains chains) : (chains n).length ≤ d.fresh := by
  have hsub : (chains n).Subperm (List.range d.fresh) :=
    hd.nodup.subperm fun s hs => List.mem_range.mpr (hd.fresh n s hs)
  have hle := hsub.length_le
  rwa [List.length_range] at hle

/-- What is not in a chain is not found. -/
theorem Directory.Chains.unfound (hd : c.directory.Chains chains) (hs : ∀ n, s ∉ chains n) :
    c.Unfound s := by
  refine ⟨fun n hfind => hs n ?_, fun fuel n conn r hfind hr => hs n ?_⟩
  · have hhead := (hd.linked n).head_eq
    have hfirst : (chains n).head? = some s := hhead.symm.trans hfind
    exact List.mem_of_mem_head? hfirst
  · unfold findStub at hfind
    split at hfind
    · cases hfind
      cases hr
    · rename_i head hhead
      obtain ⟨found, hfound, rfl⟩ := Option.map_eq_some_iff.mp hfind
      obtain rfl : found = some s := hr
      have hl : Chain.Linked c.stubNext (some head) (chains n) := hhead ▸ hd.linked n
      exact (findConn_some hl hfound).1

/-- What is in a chain is found. -/
theorem Directory.Chains.found (hd : c.directory.Chains chains)
    (hs : s ∈ chains (c.stub s).name) : c.Found s := by
  intro fuel hfuel
  have hl := hd.linked (c.stub s).name
  have hlength : (chains (c.stub s).name).length ≤ c.freshStub := hd.length_le
  unfold findStub
  cases hhead : c.findResource (c.stub s).name with
  | none =>
    have hnil : (chains (c.stub s).name).head? = none := hl.head_eq.symm.trans hhead
    rw [List.head?_eq_none_iff] at hnil
    rw [hnil] at hs
    exact absurd hs List.not_mem_nil
  | some head =>
    refine ⟨some head, ?_⟩
    have hl : Chain.Linked c.stubNext (some head) (chains (c.stub s).name) := hhead ▸ hl
    dsimp only
    rw [findConn_of_mem hl (Nat.lt_of_le_of_lt hlength hfuel) (hd.conn _) hs]
    rfl

/-! ## Inserting -/

/-- The database holds the Stubs, in some chains. -/
def Registers (c : Core) (stubs : Set StubId) : Prop :=
  ∃ chains, c.directory.Chains chains ∧ ∀ s, s ∈ stubs ↔ s ∈ chains (c.stub s).name

/-- The entry of a new Stub, which is put behind the head of the chain. -/
def Directory.add (d : Directory) (name : Name) (conn : ConnId) (head : Option StubId) :
    Directory where
  resources := head.elim (Function.update d.resources name (some d.fresh)) fun _ => d.resources
  next := head.elim (Function.update d.next d.fresh none) fun a =>
    Function.update (Function.update d.next d.fresh (d.next a)) a (some d.fresh)
  name := Function.update d.name d.fresh name
  conn := Function.update d.conn d.fresh conn
  fresh := d.fresh + 1

/-- The chains with a new Stub. -/
def addChain (l : List StubId) (s : StubId) : List StubId :=
  match l with
  | [] => [s]
  | a :: l => a :: s :: l

theorem mem_addChain : t ∈ addChain l s ↔ t = s ∨ t ∈ l := by
  cases l with
  | nil => exact List.mem_singleton.trans (or_iff_left List.not_mem_nil).symm
  | cons a l =>
    show t ∈ a :: s :: l ↔ t = s ∨ t ∈ a :: l
    rw [List.mem_cons, List.mem_cons, List.mem_cons, or_left_comm]

/-- `get_stub`, before the new Stub is put into a chain. -/
def newStub (c : Core) (name : Name) (type : SeType) (conn : ConnId) : Core :=
  (c.newResource name type).1.modifyStub c.freshStub fun t =>
    { t with conn := conn, pollRate := 900 }

theorem newStub_stub (t : StubId) : (c.newStub name type conn).stub t =
    if t = c.freshStub then { name, type, info := findListInfo type, conn, pollRate := 900 }
    else c.stub t := by
  unfold newStub newResource
  dsimp only
  split_ifs with ht
  · rw [ht, modifyStub_same]
    dsimp only
    rw [Function.update_self]
  · rw [modifyStub_of_ne _ _ ht]
    dsimp only
    rw [Function.update_of_ne ht]

theorem directory_newStub :
    (c.newStub name type conn).directory = { c.directory with
      next := Function.update c.stubNext c.freshStub none
      name := Function.update c.directory.name c.freshStub name
      conn := Function.update c.directory.conn c.freshStub conn
      fresh := c.freshStub + 1 } := by
  have hname : (fun s => ((c.newStub name type conn).stub s).name) =
      Function.update c.directory.name c.freshStub name := by
    funext s
    rw [newStub_stub, Function.update_apply]
    split_ifs <;> rfl
  have hconn : (fun s => ((c.newStub name type conn).stub s).conn) =
      Function.update c.directory.conn c.freshStub conn := by
    funext s
    rw [newStub_stub, Function.update_apply]
    split_ifs <;> rfl
  show Directory.mk _ _ (fun s => ((c.newStub name type conn).stub s).name)
    (fun s => ((c.newStub name type conn).stub s).conn) _ = _
  rw [hname, hconn]
  rfl

theorem directory_insertResource (c : Core) (s : StubId) :
    (c.insertResource s).directory = { c.directory with
      resources := Function.update c.directory.resources (c.directory.name s) (some s) } := rfl

theorem directory_stubNext (c : Core) (next : StubId → Option StubId) :
    { c with stubNext := next }.directory = { c.directory with next := next } := rfl

theorem getStub_directory (hget : c.getStub fuel name type conn = some (c', s)) :
    (c' = c ∧ ∃ head, c.resources name = some head ∧
      ∃ fuel, c.findConn conn fuel (some head) = some (some s)) ∨
    s = c.freshStub ∧ c'.directory = c.directory.add name conn (c.resources name) ∧
      ∀ head, c.resources name = some head →
        ∃ fuel, c.findConn conn fuel (some head) = some none := by
  obtain ⟨⟨head, found⟩, hfind, hget⟩ := Option.bind_eq_some_iff.mp hget
  unfold findStub findResource at hfind
  cases hhead : c.resources name with
  | none =>
    rw [hhead] at hfind
    obtain ⟨rfl, rfl⟩ := Prod.mk.inj (Option.some.inj hfind)
    obtain ⟨hc, rfl⟩ := Prod.mk.inj (Option.some.inj hget)
    have hc' : c' = (c.newStub name type conn).insertResource c.freshStub := hc.symm
    refine Or.inr ⟨rfl, ?_, fun head hnone => absurd hnone (Option.some_ne_none _).symm⟩
    rw [hc', directory_insertResource, directory_newStub]
    unfold Directory.add
    dsimp only [Option.elim_none]
    rw [Function.update_self]
    rfl
  | some a =>
    rw [hhead] at hfind
    obtain ⟨found', hconn, heq⟩ := Option.map_eq_some_iff.mp hfind
    obtain ⟨rfl, rfl⟩ := Prod.mk.inj heq
    cases found' with
    | some r =>
      obtain ⟨rfl, rfl⟩ := Prod.mk.inj (Option.some.inj hget)
      exact Or.inl ⟨rfl, a, rfl, fuel, hconn⟩
    | none =>
      obtain ⟨hc, rfl⟩ := Prod.mk.inj (Option.some.inj hget)
      have hc' : c' = { c.newStub name type conn with
          stubNext := Function.update (Function.update (c.newStub name type conn).stubNext
            c.freshStub ((c.newStub name type conn).stubNext a)) a (some c.freshStub) } := hc.symm
      refine Or.inr ⟨rfl, ?_, ?_⟩
      · have hfirst : (c.newStub name type conn).stubNext =
            Function.update c.stubNext c.freshStub none := rfl
        have hnext : Function.update (Function.update (Function.update c.stubNext c.freshStub none)
            c.freshStub (Function.update c.stubNext c.freshStub none a)) a (some c.freshStub) =
            Function.update (Function.update c.stubNext c.freshStub (c.stubNext a)) a
              (some c.freshStub) := by
          by_cases ha : a = c.freshStub
          · rw [ha, Function.update_idem, Function.update_idem, Function.update_idem]
          · rw [Function.update_idem, Function.update_of_ne ha]
        rw [hc', directory_stubNext, directory_newStub, hfirst, hnext]
        rfl
      · rintro head hsome
        obtain rfl := Option.some.inj hsome
        exact ⟨fuel, hconn⟩

theorem Directory.Chains.add (hd : d.Chains chains)
    (hconn : ∀ a ∈ chains name, d.conn a ≠ conn) :
    (d.add name conn (d.resources name)).Chains
      (Function.update chains name (addChain (chains name) d.fresh)) := by
  have hfresh : ∀ n, d.fresh ∉ chains n := fun n hn => Nat.lt_irrefl _ (hd.fresh n _ hn)
  have hne : ∀ n, ∀ a ∈ chains n, a ≠ d.fresh := fun n a ha heq => hfresh n (heq ▸ ha)
  have hname : ∀ n, ∀ a ∈ chains n, (d.add name conn (d.resources name)).name a = n := by
    intro n a ha
    show Function.update d.name d.fresh name a = n
    rw [Function.update_of_ne (hne n a ha), hd.name n a ha]
  have hconns : ∀ n, ∀ a ∈ chains n, (d.add name conn (d.resources name)).conn a = d.conn a :=
    fun n a ha => Function.update_of_ne (hne n a ha) _ _
  have hself : (d.add name conn (d.resources name)).conn d.fresh = conn :=
    Function.update_self ..
  have hpair : ∀ n, (chains n).Pairwise fun s t =>
      (d.add name conn (d.resources name)).conn s ≠
        (d.add name conn (d.resources name)).conn t := by
    intro n
    refine (hd.conn n).imp_of_mem fun {s t} hs ht h => ?_
    rw [hconns n s hs, hconns n t ht]
    exact h
  constructor
  · intro n
    by_cases hn : n = name
    · subst hn
      rw [Function.update_self]
      have hl := hd.linked n
      cases hchain : chains n with
      | nil =>
        rw [hchain] at hl
        have hnone : d.resources n = none := hl
        rw [hnone]
        exact ⟨Function.update_self .., Function.update_self ..⟩
      | cons a l =>
        rw [hchain] at hl
        obtain ⟨ha, hl⟩ := hl
        have hnodup := hd.nodup (n := n)
        rw [hchain, List.nodup_cons] at hnodup
        have hafresh : a ≠ d.fresh := hne n a (hchain ▸ List.mem_cons_self)
        rw [ha]
        refine ⟨ha, Function.update_self .., ?_⟩
        show Chain.Linked (Function.update (Function.update d.next d.fresh (d.next a)) a _)
          (Function.update (Function.update d.next d.fresh (d.next a)) a _ d.fresh) l
        rw [Function.update_of_ne hafresh.symm, Function.update_self]
        refine hl.congr fun b hb => ?_
        have hba : b ≠ a := fun heq => hnodup.1 (heq ▸ hb)
        rw [Function.update_of_ne hba,
          Function.update_of_ne (hne n b (hchain ▸ List.mem_cons_of_mem a hb))]
    · rw [Function.update_of_ne hn]
      have hl := hd.linked n
      cases hhead : d.resources name with
      | none =>
        show Chain.Linked (Function.update d.next d.fresh none)
          (Function.update d.resources name (some d.fresh) n) _
        rw [Function.update_of_ne hn]
        exact hl.congr fun b hb => Function.update_of_ne (hne n b hb) _ _
      | some a =>
        have ha : a ∈ chains name := by
          have hfirst := (hd.linked name).head_eq
          rw [hhead] at hfirst
          exact List.mem_of_mem_head? hfirst.symm
        have hnext : (d.add name conn (some a)).next =
            Function.update (Function.update d.next d.fresh (d.next a)) a (some d.fresh) := rfl
        refine hl.congr fun b hb => ?_
        have hba : b ≠ a := by
          rintro rfl
          exact hn ((hd.name n b hb).symm.trans (hd.name name b ha))
        rw [hnext, Function.update_of_ne hba, Function.update_of_ne (hne n b hb)]
  · intro n a ha
    by_cases hn : n = name
    · subst hn
      rw [Function.update_self, mem_addChain] at ha
      rcases ha with rfl | ha
      · exact Function.update_self ..
      · exact hname n a ha
    · rw [Function.update_of_ne hn] at ha
      exact hname n a ha
  · intro n
    by_cases hn : n = name
    · subst hn
      rw [Function.update_self]
      cases hchain : chains n with
      | nil => exact List.pairwise_singleton _ _
      | cons a l =>
        have hp := hpair n
        rw [hchain] at hp
        obtain ⟨ha, hl⟩ := List.pairwise_cons.mp hp
        refine List.pairwise_cons.mpr ⟨List.forall_mem_cons.mpr ⟨?_, ha⟩,
          List.pairwise_cons.mpr ⟨fun b hb => ?_, hl⟩⟩
        · rw [hself, hconns n a (hchain ▸ List.mem_cons_self)]
          exact hconn a (hchain ▸ List.mem_cons_self)
        · have hb : b ∈ chains n := hchain ▸ List.mem_cons_of_mem a hb
          rw [hself, hconns n b hb]
          exact (hconn b hb).symm
    · rw [Function.update_of_ne hn]
      exact hpair n
  · intro n a ha
    by_cases hn : n = name
    · subst hn
      rw [Function.update_self, mem_addChain] at ha
      rcases ha with rfl | ha
      · exact Nat.lt_succ_self _
      · exact Nat.lt_succ_of_lt (hd.fresh n a ha)
    · rw [Function.update_of_ne hn] at ha
      exact Nat.lt_succ_of_lt (hd.fresh n a ha)

/-- No Stub of the chain has the connection that was not found. -/
theorem Directory.Chains.conn_ne (hd : c.directory.Chains chains)
    (hnone : ∀ head, c.resources name = some head →
      ∃ fuel, c.findConn conn fuel (some head) = some none) :
    ∀ a ∈ chains name, c.directory.conn a ≠ conn := by
  intro a ha
  have hl := hd.linked name
  cases hhead : c.resources name with
  | none =>
    have hnil : (chains name).head? = none := hl.head_eq.symm.trans hhead
    rw [List.head?_eq_none_iff] at hnil
    rw [hnil] at ha
    exact absurd ha List.not_mem_nil
  | some head =>
    obtain ⟨fuel, hfind⟩ := hnone head hhead
    have hl : Chain.Linked c.stubNext (some head) (chains name) := hhead ▸ hl
    exact findConn_none hl hfind a ha

/-- **`get_stub`** inserts a Stub, or finds the one that is there. -/
theorem Registers.get (hregisters : c.Registers stubs)
    (hget : c.getStub fuel name type conn = some (c', s)) : c'.Registers (insert s stubs) := by
  obtain ⟨chains, hd, hstubs⟩ := hregisters
  rcases getStub_directory hget with ⟨rfl, head, hhead, fuel, hfind⟩ | ⟨rfl, hdir, hnone⟩
  · refine ⟨chains, hd, fun t => ?_⟩
    have hl : Chain.Linked c'.stubNext (some head) (chains name) := hhead ▸ hd.linked name
    have hs := (findConn_some hl hfind).1
    have hname : (c'.stub s).name = name := hd.name name s hs
    have hmem : s ∈ stubs := (hstubs s).mpr (hname.symm ▸ hs)
    rw [Set.insert_eq_of_mem hmem]
    exact hstubs t
  · refine ⟨_, hdir ▸ hd.add (hd.conn_ne hnone), fun t => ?_⟩
    have hname : (c'.stub t).name = Function.update c.directory.name c.freshStub name t :=
      congrFun (congrArg Directory.name hdir) t
    rw [hname, Set.mem_insert_iff]
    by_cases ht : t = c.freshStub
    · subst ht
      rw [Function.update_self, Function.update_self, mem_addChain]
      exact iff_of_true (Or.inl rfl) (Or.inl rfl)
    · rw [Function.update_of_ne ht, or_iff_right ht, hstubs t]
      by_cases hn : (c.stub t).name = name
      · subst hn
        show _ ↔ t ∈ Function.update chains _ _ (c.stub t).name
        rw [Function.update_self, mem_addChain]
        exact (or_iff_right ht).symm
      · show _ ↔ t ∈ Function.update chains _ _ (c.stub t).name
        rw [Function.update_of_ne hn]

/-! ## Removing -/

/-- The database without a Stub, whose chain is not emptied. -/
theorem Directory.Chains.remove (hd : d.Chains chains) {d' : Directory}
    (hlinked : ∀ n, Chain.Linked d'.next (d'.resources n)
      (Function.update chains name ((chains name).erase s) n))
    (hname : d'.name = d.name) (hconn : d'.conn = d.conn) (hfresh : d'.fresh = d.fresh) :
    d'.Chains (Function.update chains name ((chains name).erase s)) := by
  have hsub : ∀ n, (Function.update chains name ((chains name).erase s) n).Sublist (chains n) := by
    intro n
    by_cases hn : n = name
    · subst hn
      rw [Function.update_self]
      exact List.erase_sublist
    · have hsame : Function.update chains name ((chains name).erase s) n = chains n :=
        Function.update_of_ne hn ..
      exact hsame ▸ List.Sublist.refl _
  refine ⟨hlinked, fun n a ha => ?_, fun n => ?_, fun n a ha => ?_⟩
  · rw [hname]
    exact hd.name n a ((hsub n).subset ha)
  · rw [hconn]
    exact (hd.conn n).sublist (hsub n)
  · rw [hfresh]
    exact hd.fresh n a ((hsub n).subset ha)

theorem erase_eq_nil (hs : s ∈ l) (hnil : l.erase s = []) : l = [s] := by
  cases l with
  | nil => exact absurd hs List.not_mem_nil
  | cons a l =>
    by_cases ha : a = s
    · subst ha
      rw [List.erase_cons_head] at hnil
      rw [hnil]
    · rw [List.erase_cons_tail (by rw [beq_iff_eq]; exact ha)] at hnil
      cases hnil

/-- **A Stub is unlinked** from its chain.  If it was the last one the entry with the empty name is
deleted, whatever the name of the chain. -/
theorem unlinkStub_spec (hd : c.directory.Chains chains) (hs : s ∈ chains (c.stub s).name)
    (hunlink : c.unlinkStub cl fuel s = some c') :
    c'.stub = c.stub ∧ c'.freshStub = c.freshStub ∧
      ((c.stub s).name = "" ∨ (chains (c.stub s).name).erase s ≠ [] →
        ∀ n, Chain.Linked c'.stubNext (c'.resources n)
          (Function.update chains (c.stub s).name ((chains (c.stub s).name).erase s) n)) ∧
      ((c.stub s).name ≠ "" → (chains (c.stub s).name).erase s = [] →
        c'.resources (c.stub s).name = some s) := by
  have hl := hd.linked (c.stub s).name
  unfold unlinkStub findResource at hunlink
  split at hunlink
  · cases hunlink
  rename_i head hhead
  obtain ⟨⟨next, t⟩, hremove, hunlink⟩ := Option.bind_eq_some_iff.mp hunlink
  have hl : Chain.Linked c.stubNext (some head) (chains (c.stub s).name) := hhead ▸ hl
  obtain ⟨hlinked, hframe⟩ := Chain.listRemove_spec hl hd.nodup hremove
  -- The other chains are not touched.
  have hothers : ∀ n, n ≠ (c.stub s).name → Chain.Linked next (c.resources n) (chains n) := by
    intro n hn
    have hln : Chain.Linked c.stubNext (c.resources n) (chains n) := hd.linked n
    refine hln.congr fun b hb => hframe b fun hb' => ?_
    exact hn ((hd.name n b hb).symm.trans (hd.name _ b hb'))
  cases t with
  | none =>
    obtain rfl := Option.some.inj hunlink
    have hnil : (chains (c.stub s).name).erase s = [] := by
      have hfirst := hlinked.head_eq
      exact List.head?_eq_none_iff.mp hfirst.symm
    have hsingle := erase_eq_nil hs hnil
    rw [hsingle] at hl
    obtain rfl : head = s := Option.some.inj hl.1
    have hnone : c.stubNext head = none := hl.2
    have hnext : next = c.stubNext := by
      cases fuel with
      | zero => cases hremove
      | succ fuel =>
        unfold Chain.listRemove Chain.removeLoop at hremove
        rw [if_pos rfl] at hremove
        exact (Prod.mk.inj (Option.some.inj hremove)).1.symm
    have hkey : stringAt cl { c with stubNext := next } head = "" := by
      unfold stringAt
      dsimp only
      rw [hnext, hnone]
    refine ⟨rfl, rfl, fun hor n => ?_, fun hname _ => ?_⟩
    · have hempty : (c.stub head).name = "" := hor.resolve_right fun hne => hne hnil
      show Chain.Linked next (Function.update c.resources _ none n) _
      rw [hkey, hempty]
      by_cases hn : n = ""
      · subst hn
        rw [Function.update_self, Function.update_self, ← hempty, hnil]
        rfl
      · rw [Function.update_of_ne hn, Function.update_of_ne hn]
        exact hothers n (hempty ▸ hn)
    · show Function.update c.resources _ none _ = _
      rw [hkey, Function.update_of_ne hname]
      exact hhead
  | some x =>
    have hx : x ∈ chains (c.stub s).name := by
      have hfirst := hlinked.head_eq
      exact List.mem_of_mem_erase (List.mem_of_mem_head? hfirst.symm)
    have hname : (c.stub x).name = (c.stub s).name := hd.name _ x hx
    have hne : (chains (c.stub s).name).erase s ≠ [] := by
      intro hnil
      have hfirst := hlinked.head_eq
      rw [hnil] at hfirst
      cases hfirst
    have hresult : c'.stub = c.stub ∧ c'.freshStub = c.freshStub ∧ c'.stubNext = next ∧
        c'.resources = Function.update c.resources (c.stub s).name (some x) := by
      obtain rfl := Option.some.inj hunlink
      split
      · refine ⟨rfl, rfl, rfl, ?_⟩
        show Function.update c.resources (c.stub x).name _ = _
        rw [hname]
      · rename_i hhead'
        obtain rfl := not_not.mp hhead'
        refine ⟨rfl, rfl, rfl, ?_⟩
        rw [← hhead, Function.update_eq_self]
    obtain ⟨hstub, hfresh, hnext, hresources⟩ := hresult
    refine ⟨hstub, hfresh, fun _ n => ?_, fun _ hnil => absurd hnil hne⟩
    rw [hnext, hresources]
    by_cases hn : n = (c.stub s).name
    · subst hn
      rw [Function.update_self, Function.update_self]
      exact hlinked
    · rw [Function.update_of_ne hn, Function.update_of_ne hn]
      exact hothers n hn

theorem unlinkStub_total (cl : Client) (hd : c.directory.Chains chains) (hs : s ∈ chains (c.stub s).name)
    (hfuel : c.freshStub < fuel) : ∃ c', c.unlinkStub cl fuel s = some c' := by
  have hl := hd.linked (c.stub s).name
  have hlength : (chains (c.stub s).name).length < fuel := Nat.lt_of_le_of_lt hd.length_le hfuel
  unfold unlinkStub findResource
  cases hhead : c.resources (c.stub s).name with
  | none =>
    have hnil : (chains (c.stub s).name).head? = none := hl.head_eq.symm.trans hhead
    rw [List.head?_eq_none_iff] at hnil
    rw [hnil] at hs
    exact absurd hs List.not_mem_nil
  | some head =>
    have hl : Chain.Linked c.stubNext (some head) (chains (c.stub s).name) := hhead ▸ hl
    obtain ⟨⟨next, t⟩, hremove⟩ :
        ∃ r, Chain.listRemove fuel c.stubNext (some head) s = some r :=
      Option.isSome_iff_exists.mp (Chain.listRemove_total hl hlength)
    dsimp only
    rw [hremove]
    cases t with
    | none => exact ⟨_, rfl⟩
    | some t => exact ⟨_, rfl⟩

theorem unlinkStub_of_removeStub (h : c.removeStub cl fuel s = some c') :
    ∃ c₁, c.unlinkStub cl fuel s = some c₁ ∧ c'.directory = c₁.directory := by
  obtain ⟨c₁, hunlink, -⟩ := Option.bind_eq_some_iff.mp h
  obtain ⟨c₂, hremove, hdir⟩ := directory_removeStub hunlink
  obtain rfl := Option.some.inj (hremove.symm.trans h)
  exact ⟨c₁, hunlink, hdir⟩

theorem shared_iff (hd : c.directory.Chains chains)
    (hstubs : ∀ t, t ∈ stubs ↔ t ∈ chains (c.stub t).name) :
    c.Shared stubs s ↔ (c.stub s).name = "" ∨ (chains (c.stub s).name).erase s ≠ [] := by
  refine or_congr_right ⟨?_, fun hne => ?_⟩
  · rintro ⟨t, ht, hts, hname⟩
    have hmem := (hstubs t).mp ht
    rw [hname] at hmem
    exact List.ne_nil_of_mem ((List.mem_erase_of_ne hts).mpr hmem)
  · obtain ⟨t, ht⟩ := List.exists_mem_of_ne_nil _ hne
    have hmem := List.mem_of_mem_erase ht
    have hname : (c.stub t).name = (c.stub s).name := hd.name _ t hmem
    refine ⟨t, (hstubs t).mpr (hname.symm ▸ hmem), ?_, hname⟩
    rintro rfl
    exact hd.nodup.not_mem_erase ht

/-- What is kept when a Stub is removed whose chain is not emptied. -/
theorem Directory.Chains.removed (hd : c.directory.Chains chains)
    (hstubs : ∀ t, t ∈ stubs ↔ t ∈ chains (c.stub t).name) (hs : s ∈ stubs)
    (hshared : c.Shared stubs s) (hremove : c.removeStub cl fuel s = some c') :
    c'.directory.Chains
        (Function.update chains (c.stub s).name ((chains (c.stub s).name).erase s)) ∧
      (∀ t, (c'.stub t).name = (c.stub t).name) ∧
      ∀ t, t ∈ stubs \ {s} ↔ t ∈ Function.update chains (c.stub s).name
        ((chains (c.stub s).name).erase s) (c.stub t).name := by
  have hmem := (hstubs s).mp hs
  obtain ⟨c₁, hunlink, hdir⟩ := unlinkStub_of_removeStub hremove
  obtain ⟨hstub, hfresh, hlinked, -⟩ := unlinkStub_spec hd hmem hunlink
  have hname : c'.directory.name = c.directory.name := by
    rw [hdir]
    unfold directory
    rw [hstub]
  have hconn : c'.directory.conn = c.directory.conn := by
    rw [hdir]
    unfold directory
    rw [hstub]
  refine ⟨?_, congrFun hname, fun t => ?_⟩
  · refine hd.remove (fun n => ?_) hname hconn ?_
    · rw [hdir]
      exact hlinked ((shared_iff hd hstubs).mp hshared) n
    · rw [hdir]
      exact hfresh
  · rw [Set.mem_sdiff, Set.mem_singleton_iff, hstubs t]
    by_cases hn : (c.stub t).name = (c.stub s).name
    · rw [hn, Function.update_self, hd.nodup.mem_erase_iff, and_comm]
    · rw [Function.update_of_ne hn]
      refine and_iff_left ?_
      rintro rfl
      exact hn rfl

/-- **The invariant of the database.** -/
theorem Inserted.registers (h : Inserted c stubs) : c.Registers stubs := by
  induction h with
  | start h =>
    refine ⟨fun _ => [], ⟨h, ?_, fun n => List.Pairwise.nil, ?_⟩, fun s => ?_⟩
    · exact fun n s hs => absurd hs List.not_mem_nil
    · exact fun n s hs => absurd hs List.not_mem_nil
    · exact iff_of_false (Set.notMem_empty s) List.not_mem_nil
  | get _ hget ih => exact ih.get hget
  | remove _ hs hshared hremove ih =>
    obtain ⟨chains, hd, hstubs⟩ := ih
    obtain ⟨hd', hname, hstubs'⟩ := hd.removed hstubs hs hshared hremove
    refine ⟨_, hd', fun t => ?_⟩
    rw [hname t]
    exact hstubs' t
  | other _ hsame ih =>
    obtain ⟨chains, hd, hstubs⟩ := ih
    refine ⟨chains, hsame ▸ hd, fun t => ?_⟩
    rw [hstubs t]
    have hname : (_ : StubId → Name) = _ := congrArg Directory.name hsame
    exact iff_of_eq (congrArg (fun n => t ∈ chains n) (congrFun hname t).symm)

/-- **Exactly which Stubs are removed** by `remove_stub`: those that share their name with another
one, and those without a name.  The entry of any other one stays in the database. -/
theorem removed_iff (cl : Client) (h : Inserted c stubs) (hs : s ∈ stubs)
    (hfuel : c.freshStub < fuel) :
    ∃ c', c.removeStub cl fuel s = some c' ∧ (c'.Removed stubs s ↔ c.Shared stubs s) := by
  obtain ⟨chains, hd, hstubs⟩ := h.registers
  have hmem := (hstubs s).mp hs
  obtain ⟨c₁, hunlink⟩ := unlinkStub_total cl hd hmem hfuel
  obtain ⟨c', hremove, hdir⟩ := directory_removeStub hunlink
  refine ⟨c', hremove, fun hremoved => ?_, fun hshared => ?_⟩
  · rw [shared_iff hd hstubs]
    by_contra hnot
    obtain ⟨hname, hnil⟩ := not_or.mp hnot
    have hlast := (unlinkStub_spec hd hmem hunlink).2.2.2 hname (not_not.mp hnil)
    have hresources : c'.resources = c₁.resources := congrArg Directory.resources hdir
    exact hremoved.1.1 (c.stub s).name (by rw [findResource, hresources, hlast])
  · obtain ⟨hd', hname, hstubs'⟩ := hd.removed hstubs hs hshared hremove
    refine ⟨hd'.unfound fun n hn => ?_, fun t ht hts => hd'.found ?_⟩
    · have hns : (c.stub s).name = n := by
        rw [← hname s]
        exact hd'.name n s hn
      subst hns
      exact ((hstubs' s).mpr hn).2 rfl
    · rw [hname t]
      exact (hstubs' t).mp ⟨ht, hts⟩

/-- The EndDeviceList of one connection, Stub 0. -/
def edevOnce : Core := (((blank 0).getStub 1 "/edev" 115 0).map Prod.fst).getD (blank 0)

/-- That of another connection too, Stub 1. -/
def edevTwice : Core := ((edevOnce.getStub 2 "/edev" 115 1).map Prod.fst).getD (blank 0)

theorem edevOnce_inserted : Inserted edevOnce (insert 0 ∅) :=
  .get (.start fun _ => rfl) (show (blank 0).getStub 1 "/edev" 115 0 = some (edevOnce, 0) from rfl)

/-- The head of a chain of two Stubs is removed. -/
theorem edevTwice_removed : ∃ c', edevTwice.removeStub Client.paths 3 0 = some c' ∧
    c'.Removed (insert 1 (insert 0 ∅)) 0 := by
  have hinserted : Inserted edevTwice (insert 1 (insert 0 ∅)) :=
    .get edevOnce_inserted (show edevOnce.getStub 2 "/edev" 115 1 = some (edevTwice, 1) from rfl)
  obtain ⟨c', hremove, hiff⟩ := removed_iff Client.paths hinserted
    (Set.mem_insert_of_mem 1 (Set.mem_insert 0 ∅)) (show edevTwice.freshStub < 3 by decide)
  exact ⟨c', hremove, hiff.mpr (Or.inr ⟨1, Set.mem_insert 1 _, by decide, rfl⟩)⟩

/-- The only Stub of a name stays in the database when it is removed. -/
theorem not_removed : ¬∀ (cl : Client) (c c' : Core) (stubs : Set StubId) (s : StubId) (fuel : ℕ),
    Inserted c stubs → s ∈ stubs → c.removeStub cl fuel s = some c' → c'.Removed stubs s := by
  intro h
  have hremoved := h Client.paths edevOnce _ (insert 0 ∅) 0 2 edevOnce_inserted
    (Set.mem_insert 0 ∅) (show edevOnce.removeStub Client.paths 2 0 = some _ from rfl)
  exact hremoved.1.1 "/edev" rfl

end
end Core
end SeClient
