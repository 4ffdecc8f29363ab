import SeClient.EventQueue

/-!
# Retrieval of resources

`retrieve.c`: Stubs track the retrieval of server resources and link every
subordinate resource to the resources that depend on it.

A recursion over the dependency graph and a walk over a chain take fuel and answer
`none` when they do not end in time; `none` also stands for a step the C code does
not survive (following `NULL` or freed memory).

`Client` collects what the modelled code is handed from outside: the ordering of
list items by the keys of their type, the resolution of an href against a
connection (`http_parse_uri`, `se_connect_uri`), and the application's dependency
function.
-/

namespace SeClient

/-- One call a dependency function makes. -/
inductive DepCall
  /-- `get_dep` or `get_list_dep` on an existing link. -/
  | link (r : StubId) (type : SeType) (href : Name) (count : BitVec 32) (flag : BitVec 32)
  /-- `get_root` or `get_list_root` on an existing link. -/
  | root (conn : ConnId) (type : SeType) (href : Name) (count : BitVec 32)
  | poll (s : StubId)
  | setPollRate (s : StubId) (rate : Int)
  | setCompletion (s : StubId) (completion : Option Routine)
deriving DecidableEq, Repr

/-- What the modelled code is handed from outside. -/
structure Client where
  /-- `compare_keys` for the items of a List type. -/
  compareKeys : SeObject → SeObject → ListInfo → Int
  /-- The connection and path an href designates, `none` when it does not parse. -/
  resolve : ConnId → Name → Option (ConnId × Name)
  /-- The application's dependency function, as the calls it makes. -/
  dep : Core → StubId → List DepCall
  /-- The path `request_target` reads back from the URI of a request. -/
  target : Name → Name
  /-- The bytes of a pointer, read as a C string. -/
  pointerBytes : StubId → Name

/-- A message body: the object, its type, and the items of a List object. -/
structure Body where
  type : SeType
  obj : SeObject
  items : List SeObject := []
deriving DecidableEq, Repr

/-- A response, as far as `process_http` reads it.  It is invalid if it has a body of a media type
that is not supported, or one that does not parse: `se_receive` returns `SE_ERROR`. -/
structure Reply where
  status : Int
  invalid : Bool := false
  body : Option Body := none
  location : Option Name := none
deriving DecidableEq, Repr

/-- `int16_t`: the 16-bit value a longer number is converted to. -/
def toInt16 (x : Int) : Int := x.bmod (2 ^ 16)

namespace Core

/-! ## Lists of Stubs -/

/-- `insert_unique`. -/
def insertUnique (l : List Nat) (s : Nat) : List Nat := if s ∈ l then l else s :: l

/-- `list_subtract`. -/
def listSubtract (la lb : List Nat) : List Nat := lb.foldl (fun la b => la.erase b) la

/-- `insert_stub`: before the first Stub whose key is greater. -/
def insertStub (cl : Client) (c : Core) (list : List StubId) (s : StubId) (info : ListInfo) :
    List StubId :=
  if s ∈ list then list
  else
    let before := fun r => decide (0 ≤ cl.compareKeys (c.data s) (c.data r) info)
    list.takeWhile before ++ s :: list.dropWhile before

/-! ## Requests and links -/

/-- `get_seq`: GET a resource, or `count` items of a list starting at `offset`. -/
def getSeq (c : Core) (s : StubId) (offset count : Int) : Core :=
  let query := if count = 0 then none else some (offset, min count 255)
  { c with requests := c.requests ++
      [⟨(c.stub s).conn, .get, (c.stub s).name, query, some s⟩] }

/-- `add_dep`. -/
def addDep (c : Core) (r d : StubId) : Core :=
  let c := c.modifyStub d fun t =>
    { t with
      deps := insertUnique t.deps r
      pollRate := min t.pollRate (c.stub r).pollRate }
  c.modifyStub r fun t => { t with complete := false }

/-- `new_dep`. -/
def newDep (c : Core) (r : StubId) (d : Option StubId) (flag : BitVec 32) : Core :=
  match d with
  | none => c
  | some d =>
    let c := c.addDep r d
    let c := c.modifyStub d fun t => { t with flag := flag }
    c.modifyStub r fun t => { t with flags := t.flags ||| flag }

/-- `remove_req`. -/
def removeReq (c : Core) (s r : StubId) : Core :=
  let c := c.modifyStub r fun t => { t with deps := t.deps.erase s }
  if (c.stub r).deps = [] then c.insertEvent (.stub r) .resourceRemove 0 else c

/-- `remove_reqs`. -/
def removeReqs (c : Core) (s : StubId) (reqs : List StubId) : Core :=
  reqs.foldl (fun c r => c.removeReq s r) c

/-- `remove_deps`. -/
def removeDeps (c : Core) (s : StubId) (deps : List StubId) : Core :=
  deps.foldl (fun c t =>
    if (c.stub t).status < 0 then c.modifyStub t fun u => { u with list := u.list.erase s }
    else c.modifyStub t fun u => { u with reqs := u.reqs.erase s }) c

/-- `delete_reqs`. -/
def deleteReqs (c : Core) (s : StubId) : Core :=
  let c := c.removeReqs s (c.stub s).reqs
  let c := c.removeReqs s (c.stub s).list
  c.modifyStub s fun t => { t with reqs := [], list := [] }

/-! ## The resource database -/

/-- `foreach (s, head) if (s->conn == conn) return s`. -/
def findConn (c : Core) (conn : ConnId) : Nat → Option StubId → Option (Option StubId)
  | 0, _ => none
  | _ + 1, none => some none
  | fuel + 1, some s =>
    if (c.stub s).conn = conn then some (some s) else findConn c conn fuel (c.stubNext s)

/-- `find_resource`. -/
def findResource (c : Core) (name : Name) : Option StubId := c.resources name

/-- `find_stub`: the head of the chain of that name and the Stub of that name and
connection. -/
def findStub (fuel : Nat) (c : Core) (name : Name) (conn : ConnId) :
    Option (Option StubId × Option StubId) :=
  match c.findResource name with
  | none => some (none, none)
  | some head => (c.findConn conn fuel (some head)).map fun s => (some head, s)

/-- `insert_resource`. -/
def insertResource (c : Core) (s : StubId) : Core :=
  { c with resources := Function.update c.resources (c.stub s).name (some s) }

/-- `delete_resource`. -/
def deleteResource (c : Core) (key : Name) : Core :=
  { c with resources := Function.update c.resources key none }

/-- `new_resource`, for a Stub: every field the caller does not set is zero. -/
def newResource (c : Core) (name : Name) (type : SeType) : Core × StubId :=
  let s := c.freshStub
  let stub : Stub := { name, type, info := findListInfo type }
  ({ c with
      stub := Function.update c.stub s stub
      stubNext := Function.update c.stubNext s none
      freshStub := s + 1 }, s)

/-- `get_stub`. -/
def getStub (fuel : Nat) (c : Core) (name : Name) (type : SeType) (conn : ConnId) :
    Option (Core × StubId) := do
  let (head, s) ← c.findStub fuel name conn
  match s with
  | some s => some (c, s)
  | none =>
    let (c, s) := c.newResource name type
    let c := c.modifyStub s fun t => { t with conn := conn, pollRate := 900 }
    match head with
    | some head =>
      -- link_insert (list_next (head), s)
      some ({ c with stubNext :=
        Function.update (Function.update c.stubNext s (c.stubNext head)) head (some s) }, s)
    | none => some (c.insertResource s, s)

/-! ## Completion -/

/-- `dep_reset`. -/
def depReset : Nat → Core → StubId → Option Core
  | 0, _, _ => none
  | fuel + 1, c, s =>
    let c := c.modifyStub s fun t => { t with complete := false }
    (c.stub s).deps.foldlM (fun c d =>
      depReset fuel
        (if (c.stub d).info.isSome then
          c.modifyStub d fun t => { t with reqs := t.reqs.erase s }
        else c.modifyStub d fun t => { t with flags := t.flags ||| (c.stub s).flag }) d) c

/-- The completion routine of `s` is called unless `s` is complete already. -/
def callCompletion (c : Core) (s : StubId) : Core :=
  match (c.stub s).completion with
  | some f =>
    if (c.stub s).complete then c else { c with completions := c.completions ++ [(f, s)] }
  | none => c

/-- What the completion of `s` means for its dependent `d`: `s` joins the
requirements of `d` and its mark is cleared.  Also whether `d` lacks nothing now. -/
def meetReq (cl : Client) (c : Core) (s d : StubId) : Core × Bool :=
  match (c.stub d).info with
  | some info =>
    let c := c.modifyStub d fun t => { t with reqs := c.insertStub cl t.reqs s info }
    (c, BitVec.ofNat 32 (c.stub d).reqs.length == (c.stub d).all)
  | none =>
    let c := c.modifyStub d fun t =>
      { t with
        reqs := insertUnique t.reqs s
        flags := t.flags &&& ~~~(c.stub s).flag }
    (c, (c.stub d).flags == 0)

/-- `if (d->list) ...`: the old requirements that were not met again are removed. -/
def dropOldReqs (c : Core) (d : StubId) : Core :=
  if (c.stub d).list = [] then c
  else
    let c := c.removeReqs d (listSubtract (c.stub d).list (c.stub d).reqs)
    c.modifyStub d fun t => { t with list := [] }

/-- The loop of `dep_complete` over the dependents of `s`, where `next` completes a
dependent that lacks nothing.  A dependent that was removed meanwhile is not
visited; when the one just visited was removed, its cell is gone and the loop reads
freed memory. -/
def depCompleteLoop (cl : Client) (next : Core → StubId → Option Core) (s : StubId) :
    Core → List StubId → Option Core
  | c, [] => some c
  | c, d :: ds =>
    if d ∉ (c.stub s).deps then depCompleteLoop cl next s c ds
    else
      let (c, complete) := c.meetReq cl s d
      match (if complete then next (c.dropOldReqs d) d else some c) with
      | none => none
      | some c => if d ∉ (c.stub s).deps then none else depCompleteLoop cl next s c ds

/-- `dep_complete`. -/
def depComplete (cl : Client) : Nat → Core → StubId → Option Core
  | 0, _, _ => none
  | fuel + 1, c, s =>
    let c := c.callCompletion s
    let c := c.modifyStub s fun t => { t with complete := true }
    depCompleteLoop cl (depComplete cl fuel) s c (c.stub s).deps

/-! ## Retrieval -/

/-- `update_resource`. -/
def updateResource (fuel : Nat) (c : Core) (s : StubId) : Option Core :=
  if (c.stub s).status < 0 then some c
  else
    let c := if (c.stub s).all ≠ 0 then c.modifyStub s fun t => { t with offset := 0 } else c
    let c := c.modifyStub s fun t => { t with list := t.reqs, reqs := [] }
    let reset :=
      if (c.stub s).status ≠ 0 ∧ seEvent (c.type s) = false then depReset fuel c s
      else some (c.modifyStub s fun t => { t with complete := false })
    reset.map fun c =>
      let c := c.modifyStub s fun t => { t with status := -1 }
      c.getSeq s 0 (c.stub s).all.toInt

/-- `get_subordinate`. -/
def getSubordinate (c : Core) (s : StubId) (type : SeType) : Option StubId :=
  ((c.stub s).reqs.find? fun t => c.type t = type).map fun t => (c.stub t).moved.getD t

/-- `get_resource`. -/
def getResource (cl : Client) (fuel : Nat) (c : Core) (conn : ConnId) (type : SeType)
    (href : Name) (count : BitVec 32) : Option (Core × Option StubId) :=
  match cl.resolve conn href with
  | none => some (c, none)
  | some (conn, path) => do
    let (c, s) ← c.getStub fuel path type conn
    if c.time - (c.stub s).time > (c.stub s).pollRate then
      let c := c.modifyStub s fun t => { t with all := count }
      let c ← updateResource fuel c s
      some (c, some s)
    else some (c, some s)

/-- `poll_resource`. -/
def pollResource (c : Core) (s : StubId) : Core :=
  let now := c.seTime
  let next := now + (c.stub s).pollRate
  let ev := c.data s
  if seEvent (c.type s) ∧ (c.stub s).pollRate ≥ ev.start + ev.duration - now then c
  else if (c.stub s).pollNext ≤ now then
    let c := c.modifyStub s fun t => { t with pollNext := next }
    c.insertEvent (.stub s) .resourcePoll next
  else c

/-! ## Dependency functions -/

/-- One call of a dependency function. -/
def depCall (cl : Client) (fuel : Nat) (c : Core) : DepCall → Option Core
  | .link r type href count flag => do
    let (c, d) ← c.getResource cl fuel (c.stub r).conn type href count
    some (c.newDep r d flag)
  | .root conn type href count => (c.getResource cl fuel conn type href count).map Prod.fst
  | .poll s => some (c.pollResource s)
  | .setPollRate s rate => some (c.modifyStub s fun t => { t with pollRate := toInt16 rate })
  | .setCompletion s f => some (c.modifyStub s fun t => { t with completion := f })

/-- `dep (s)`. -/
def callDep (cl : Client) (fuel : Nat) (c : Core) (s : StubId) : Option Core :=
  (cl.dep c s).foldlM (depCall cl fuel) c

/-! ## Processing responses -/

/-- Store a received object in the Stub.  Only the EventStatus of an event that is
known already is taken over. -/
def storeData (c : Core) (s : StubId) (obj : SeObject) : Core :=
  c.modifyStub s fun t =>
    { t with
      data :=
        match t.data with
        | none => some obj
        | some ex =>
          if seEvent t.type then some { ex with currentStatus := obj.currentStatus }
          else some obj }

/-- `update_existing`. -/
def updateExisting (cl : Client) (fuel : Nat) (c : Core) (s : StubId) (obj : SeObject) :
    Option Core := do
  let c ← callDep cl fuel (c.storeData s obj) s
  if (c.stub s).flags = 0 then depComplete cl fuel c s else some c

/-- `list_seq`: update paging, and the number of items still needed. -/
def listSeq (c : Core) (s : StubId) (obj : SeObject) : Core × Int :=
  let c := c.modifyStub s fun t =>
    { t with
      all := obj.all.setWidth 32
      offset := t.offset + obj.results.setWidth 32 }
  (c, ((c.stub s).all - (c.stub s).offset).toInt)

/-- The loop of `list_object` over the items received. -/
def listItems (cl : Client) (fuel : Nat) (s : StubId) (info : ListInfo) (c : Core)
    (items : List SeObject) : Option Core :=
  items.foldlM (fun c item =>
    match item.path with
    | none => some c
    | some path => do
      let (c, d) ← c.getStub fuel path info.type (c.stub s).conn
      updateExisting cl fuel (c.addDep s d) d item) c

/-- `list_object`: process a List object, and the number of items still needed. -/
def listObject (cl : Client) (fuel : Nat) (c : Core) (s : StubId) (info : ListInfo)
    (body : Body) : Option (Core × Int) := do
  let (c, count) := c.listSeq s body.obj
  let c := c.modifyStub s fun t => { t with data := some body.obj }
  let c ← callDep cl fuel c s
  let c ← listItems cl fuel s info c body.items
  if count > 0 then some (c.getSeq s (c.stub s).offset.toInt count, count)
  else if (c.stub s).all = 0 then (depComplete cl fuel c s).map fun c => (c, count)
  else some (c, count)

/-- `match_request`: the Stub the response belongs to, with its type filled in. -/
def matchRequest (c : Core) (s : StubId) (body : Body) : Option (Core × StubId) :=
  if body.obj.path = some (c.stub s).name then
    if c.type s < 0 then some (c.modifyStub s fun t => { t with type := body.type }, s)
    else if c.type s ≠ body.type then none
    else some (c, s)
  else none

/-- `find_target`. -/
def findTarget (cl : Client) (fuel : Nat) (c : Core) (req : HttpRequest) :
    Option (Option StubId) :=
  (c.findStub fuel (cl.target req.path) req.conn).map Prod.snd

/-- The C string at the address of a Stub, whose first field is `base.next`. -/
def stringAt (cl : Client) (c : Core) (s : StubId) : Name :=
  match c.stubNext s with
  | none => ""
  | some p => cl.pointerBytes p

/-- The part of `remove_stub` that takes the Stub out of the resource database. -/
def unlinkStub (cl : Client) (fuel : Nat) (c : Core) (s : StubId) : Option Core :=
  match c.findResource (c.stub s).name with
  | none => none
  | some head => do
    let (next, t) ← Chain.listRemove fuel c.stubNext (some head) s
    let c := { c with stubNext := next }
    match t with
    | some t => some (if t ≠ head then c.insertResource t else c)
    -- delete_resource (head): the key is the Stub, not its name
    | none => some (c.deleteResource (c.stringAt cl head))

/-- `remove_stub`. -/
def removeStub (cl : Client) (fuel : Nat) (c : Core) (s : StubId) : Option Core := do
  let c ← c.unlinkStub cl fuel s
  let c :=
    match (c.stub s).moved with
    | some m => c.removeReq s m
    | none => c.deleteReqs s
  some ((c.removeDeps s (c.stub s).deps).removeEvent (.stub s))

/-- The GET case of `process_response`. -/
def processGet (cl : Client) (fuel : Nat) (c : Core) (req : HttpRequest) (reply : Reply) :
    Option Core :=
  match reply.body, req.context with
  | some body, some s =>
    match c.matchRequest s body with
    | none => some c
    | some (c, s) => do
      let c := c.modifyStub s fun t => { t with time := c.time }
      let (c, count) ←
        match (c.stub s).info with
        | some info => c.listObject cl fuel s info body
        | none => (c.updateExisting cl fuel s body.obj).map fun c => (c, 0)
      some (if count = 0 then c.modifyStub s fun t => { t with status := reply.status } else c)
  | some body, none => if body.obj.path = none then some c else none
  | none, _ => some c

/-- `process_response`. -/
def processResponse (cl : Client) (fuel : Nat) (c : Core) (req : HttpRequest)
    (reply : Reply) : Option Core :=
  match req.method with
  | .get => processGet cl fuel c req reply
  | .post => do
    match ← c.findTarget cl fuel req with
    | none => some c
    | some s =>
      match (c.stub s).info with
      | none => some c
      | some info =>
        let location ← reply.location
        let (c, d) ← c.getResource cl fuel req.conn info.type location 0
        let d ← d
        some (c.addDep s d)
  | .delete => do
    let s ← req.context
    c.removeStub cl fuel s
  | .put => some c

/-- `get_moved`. -/
def getMoved (cl : Client) (fuel : Nat) (c : Core) (s : StubId) (location : Option Name) :
    Option Core :=
  match location with
  | none => some (c.deleteReqs s)
  | some href => do
    let (c, t) ← c.getResource cl fuel (c.stub s).conn (c.type s) href (c.stub s).all
    match t with
    | none => some (c.deleteReqs s)
    | some t =>
      let c :=
        match (c.stub s).moved with
        | some m => if m ≠ t then c.removeReq s m else c
        | none => c
      let c := c.addDep s t
      let c := c.modifyStub s fun u => { u with moved := some t }
      some (c.deleteReqs s)

/-- `process_redirect`. -/
def processRedirect (cl : Client) (fuel : Nat) (c : Core) (req : HttpRequest)
    (reply : Reply) : Option Core := do
  match ← c.findTarget cl fuel req with
  | none => some c
  | some s =>
    let c ← c.getMoved cl fuel s reply.location
    some (c.modifyStub s fun t => { t with status := reply.status })

/-- `http_close`: the requests that are queued for the connection are freed. -/
def httpClose (c : Core) (conn : ConnId) : Core :=
  { c with requests := c.requests.filter fun q => q.conn ≠ conn }

/-- `process_http` once a response is received: the oldest request of the connection
is the one answered.  On an invalid response `se_receive` closes the connection. -/
def processHttp (cl : Client) (fuel : Nat) (c : Core) (conn : ConnId) (reply : Reply) :
    Option Core :=
  match c.requests.find? fun r => r.conn = conn with
  | none => some c
  | some req =>
    if reply.invalid then some (c.httpClose conn)
    else
      let c := { c with requests := c.requests.erase req }
      if reply.status = 200 ∨ reply.status = 201 ∨ reply.status = 204 then
        processResponse cl fuel c req reply
      else if reply.status = 300 ∨ reply.status = 301 then processRedirect cl fuel c req reply
      else if req.method = .get then do
        match ← c.findTarget cl fuel req with
        | none => some c
        | some s =>
          let c := c.modifyStub s fun t => { t with status := reply.status }
          some (c.insertEvent (.stub s) .retrieveFail 0)
      else some c

end Core
end SeClient
