import SeClient.Retrieve

/-!
# The event scheduler

`schedule.c`: the EventBlocks of a Schedule move between the queues `scheduled`,
`active` and `superseded`, which share the one link of each block.

Functions that only touch a block or the event queue act on `Core`; functions that
walk or relink a queue act on `World`, with fuel for their loops, and answer `none`
when a loop does not end in time or `NULL` is followed.
-/

namespace SeClient

/-! ## Queues -/

namespace Links
variable (l : Links)

def setHead (s : ScheduleId) (n : QueueName) (v : Option BlockId) : Links :=
  { l with head := Function.update l.head s (Function.update (l.head s) n v) }

/-- `link_insert` at the head of a queue. -/
def linkInsert (s : ScheduleId) (n : QueueName) (b : BlockId) : Links :=
  { l with next := Function.update l.next b (l.head s n) }.setHead s n (some b)

/-- `prev->next = v` in a queue, where `none` is the head cell. -/
def relink (s : ScheduleId) (n : QueueName) (prev v : Option BlockId) : Links :=
  let r := Chain.relink l.next (l.head s n) prev v
  { l with next := r.1 }.setHead s n r.2

/-- `list_remove` from a queue. -/
def listRemove (fuel : Nat) (s : ScheduleId) (n : QueueName) (b : BlockId) : Option Links :=
  (Chain.listRemove fuel l.next (l.head s n) b).map fun r =>
    { l with next := r.1 }.setHead s n r.2

/-- `insert_sorted` into a queue. -/
def insertSorted (fuel : Nat) (s : ScheduleId) (n : QueueName) (b : BlockId)
    (compare : BlockId → BlockId → Int) : Option Links :=
  (Chain.insertSorted fuel l.next (l.head s n) b compare).map fun r =>
    { l with next := r.1 }.setHead s n r.2

end Links

/-- `Interval`: the unrandomized interval of an event, in unsigned 64-bit times. -/
structure Interval where
  start : Nat
  stop : Nat
deriving DecidableEq, Repr

namespace Core
variable (c : Core)

/-! ## Randomization -/

/-- `RAND_MAX`. -/
def randMax : Nat := 2147483647

/-- `do result = rand (); while (result > upper);` -/
def randDraw (upper : Nat) : List Nat → Option (Nat × List Nat)
  | [] => none
  | r :: rs => if r > upper then randDraw upper rs else some (r, rs)

/-- `rand_bound`. -/
def randBound (bound : Int) : Option (Core × Int) :=
  if bound = 0 then some (c, 0)
  else
    let upper := randMax - randMax % bound.natAbs
    (randDraw upper c.rand).map fun r =>
      ({ c with rand := r.2 }, bound.sign * (r.1 % (bound.natAbs + 1) : Nat))

/-- `randomize_start`, for an event whose type is randomizable. -/
def randomizeStart (event : StubId) : Option (Core × Int) :=
  if randomizable (c.type event) then c.randBound (c.data event).randomizeStart
  else some (c, 0)

/-- `randomize_duration`, for an event whose type is randomizable. -/
def randomizeDuration (event : StubId) : Option (Core × Int) :=
  if randomizable (c.type event) then c.randBound (c.data event).randomizeDuration
  else some (c, 0)

/-! ## Blocks -/

/-- `device_response`. -/
def deviceResponse (device : Option StubId) (event : StubId) (status : ResponseType) : Core :=
  let required := (c.data event).responseRequired
  if (status = .eventReceived ∧ required.testBit 0) ∨ required.testBit 1 then
    { c with responses := c.responses ++ [⟨device, event, status⟩] }
  else c

/-- `der_base`. -/
def derBase (event : StubId) : BitVec 32 := (c.data event).controlFlags

/-- `if (resource_type (eb->event) == SE_DERControl) eb->der = der_base (eb->event);` -/
def loadDer (eb : BlockId) : Core :=
  let event := (c.block eb).event
  if c.type event = SeType.derControl then
    c.modifyBlock eb fun e => { e with der := c.derBase event }
  else c

/-- `block_supersede`: whether `a` supersedes `b`.  The loser gives up the control
modes of the winner. -/
def blockSupersede (a b : BlockId) : Core × Bool :=
  let x := c.data (c.block a).event
  let y := c.data (c.block b).event
  if ((c.block a).primacy = (c.block b).primacy ∧ x.creationTime > y.creationTime)
      ∨ (c.block a).primacy < (c.block b).primacy then
    if (c.block a).der ≠ 0 then
      let c := c.modifyBlock b fun e => { e with der := e.der &&& ~~~(c.block a).der }
      (c, (c.block b).der = 0)
    else (c, true)
  else (c.modifyBlock a fun e => { e with der := e.der &&& ~~~(c.block b).der }, false)

/-- `new_block`. -/
def newBlock (event : StubId) (primacy : Nat) : Option (Core × BlockId) := do
  let ev := c.data event
  let (c, startOffset) ← c.randomizeStart event
  let (c, durationOffset) ← c.randomizeDuration event
  let start := ev.start + startOffset
  let eb := c.freshBlock
  let block : EventBlock :=
    { event, start, stop := start + ev.duration + durationOffset, primacy := primacy % 256,
      status := .scheduled }
  some ({ c with
    block := Function.update c.block eb block
    freshBlock := eb + 1 }, eb)

/-- `compare_start`. -/
def compareStart (a b : BlockId) : Int := toInt32 ((c.block a).start - (c.block b).start)

/-- `compare_end`. -/
def compareEnd (a b : BlockId) : Int := toInt32 ((c.block a).stop - (c.block b).stop)

/-- `event_interval`. -/
def eventInterval (event : StubId) : Interval :=
  let start := ((c.data event).start % 2 ^ 64).toNat
  ⟨start, (start + (c.data event).duration) % 2 ^ 64⟩

/-- The history of the EVENT_STARTs queued. -/
def noteStart (eb : BlockId) : Core :=
  { c with started := c.started ++ [⟨eb, (c.block eb).start, (c.block eb).stop, c.seTime⟩] }

/-- The part of `activate_block` for a block that is not active yet. -/
def beginBlock (s : ScheduleId) (eb : BlockId) : Core :=
  let c := c.modifyBlock eb fun e => { e with status := .active }
  let c := (c.insertEvent (.block eb) .eventStart 0).noteStart eb
  c.deviceResponse (c.schedule s).device (c.block eb).event .eventStarted

/-- `activate_block`. -/
def activateBlock (s : ScheduleId) (eb : BlockId) : Core :=
  let event := (c.block eb).event
  let c := if (c.block eb).status ≠ .active then c.beginBlock s eb else c
  let c := c.modifyStub event fun t => { t with pollRate := c.activePollRate }
  c.pollResource event

/-- `block_update`. -/
def blockUpdate (eb : BlockId) (status : EventStatus) : Core :=
  let c :=
    if (c.block eb).status = .active then
      let c := c.modifyBlock eb fun e => { e with stop := c.seTime }
      c.insertEvent (.block eb) .eventEnd 0
    else c
  c.modifyBlock eb fun e => { e with status := status }

/-! ## The blocks of a Schedule -/

/-- `mrid_key`. -/
def mridKey (b : BlockId) : Nat := (c.data (c.block b).event).mRID

/-- `hash_get (s->blocks, key)`. -/
def findBlock (s : ScheduleId) (key : Nat) : Option BlockId :=
  (c.schedule s).blocks.find? fun b => c.mridKey b = key

/-- `hash_put (s->blocks, eb)`. -/
def putBlock (s : ScheduleId) (eb : BlockId) : Core :=
  c.modifySchedule s fun t =>
    { t with
      blocks :=
        match c.findBlock s (c.mridKey eb) with
        | some old => t.blocks.map fun b => if b = old then eb else b
        | none => t.blocks ++ [eb] }

/-- `get_block`. -/
def getBlock (s : ScheduleId) (event : StubId) : Option BlockId :=
  c.findBlock s (c.data event).mRID

/-- `activate_blocks`. -/
def activateBlocks (event : StubId) : Option Core :=
  (c.stub event).schedules.foldlM (fun c s =>
    (c.getBlock s event).map fun eb =>
      if (c.block eb).status = .activeWait then c.activateBlock s eb else c) c

/-- `delete_blocks`. -/
def deleteBlocks (event : StubId) : Core :=
  let key := (c.data event).mRID
  let c := (c.stub event).schedules.foldl (fun c s =>
    match c.findBlock s key with
    | some eb => c.modifySchedule s fun t => { t with blocks := t.blocks.erase eb }
    | none => c) c
  c.modifyStub event fun t => { t with schedules := [] }

/-- The new block `eb` supersedes the active block `a` in `insert_active`. -/
def supersedeActive (s : ScheduleId) (eb a : BlockId) : Core :=
  let c := c.modifyBlock a fun b => { b with stop := (c.block eb).start }
  let c := if (c.block a).status = .active then c.insertEvent (.block a) .eventEnd 0 else c
  let c := c.modifyBlock a fun b => { b with status := .superseded }
  c.deviceResponse (c.schedule s).device (c.block a).event .eventSuperseded

/-- The new block `eb` is superseded itself in `insert_active`. -/
def yieldActive (s : ScheduleId) (eb : BlockId) : Core :=
  let c := c.modifyBlock eb fun b => { b with status := .superseded }
  c.deviceResponse (c.schedule s).device (c.block eb).event .eventSuperseded

/-- The switch of `insert_active` on the status of the event. -/
def startBlock (fuel : Nat) (s : ScheduleId) (eb : BlockId) : Option Core :=
  match c.eventStatus (c.block eb).event with
  | .scheduled => do
    let c ← c.updateResource fuel (c.block eb).event
    some (c.modifyBlock eb fun b => { b with status := .activeWait })
  | .active => some (c.activateBlock s eb)
  | _ => some c

/-- The part of `schedule_event` that registers a new event.  Also whether the event
has ended already. -/
def registerEvent (s : ScheduleId) (event : StubId)
    (primacy : Nat) : Option (Core × BlockId × Bool) := do
  let c := c.modifyStub event fun t =>
    { t with
      schedules := insertUnique t.schedules s
      completion := some .eventUpdate }
  let (c, eb) ← c.newBlock event primacy
  let c := c.putBlock s eb
  -- device_response follows the pointer to the device
  let device ← (c.schedule s).device
  let c := c.deviceResponse device event .eventReceived
  if (c.block eb).stop ≤ c.seTime then
    let c := c.modifyBlock eb fun b => { b with status := .completed }
    some (c.deviceResponse device event .eventExpired, eb, true)
  else some (c, eb, false)

/-- The time of an active block is over in `update_schedule`. -/
def expireBlock (s : ScheduleId) (eb : BlockId) : Core :=
  let c :=
    if (c.block eb).status = .active then
      let c := c.deviceResponse (c.schedule s).device (c.block eb).event .eventCompleted
      c.insertEvent (.block eb) .eventEnd 0
    else c
  c.modifyBlock eb fun b => { b with status := .completed }

/-- The time of a superseded block has come in `update_schedule`. -/
def retireBlock (s : ScheduleId) (eb : BlockId) : Core :=
  let c := c.modifyBlock eb fun b => { b with status := .superseded }
  c.deviceResponse (c.schedule s).device (c.block eb).event .eventSuperseded

/-- The end of `update_schedule`: arm the timer for the next boundary, 0 for none. -/
def armTimer (s : ScheduleId) (last : Int) : Core :=
  if last ≠ 0 then
    let c :=
      if last ≠ (c.schedule s).next then
        (c.removeEvent (.schedule s)).insertEvent (.schedule s) .scheduleUpdate last
      else c
    c.modifySchedule s fun t => { t with next := last }
  else c.modifySchedule s fun t => { t with next := 0 }

/-! ## The programs of a DER device -/

/-- The DERPrograms of an EndDevice, sorted by primacy. -/
def derPrograms (cl : Client) (fsa : StubId) : List StubId :=
  (c.stub fsa).reqs.foldl (fun derpl l =>
    match c.getSubordinate l SeType.derProgramList with
    | none => derpl
    | some s =>
      (c.stub s).reqs.foldl (fun derpl m =>
        c.insertStub cl derpl m ((c.stub s).info.getD ⟨SeType.derProgram⟩)) derpl) []

/-- The DefaultDERControl found so far, or that of the program. -/
def defaultControl (dderc : Option SeObject)
    (program : StubId) : Option SeObject :=
  match dderc, c.getSubordinate program SeType.defaultDERControl with
  | none, some t => (c.stub t).data
  | dderc, _ => dderc

end Core

namespace World
variable (w : World)

/-! ## Scheduling -/

/-- The loop of `insert_block` over the `scheduled` queue, at the block `e` behind
the link `prev`.  Also whether the new block was superseded itself. -/
def insertBlockLoop (s : ScheduleId) (eb : BlockId) (x : Interval) :
    Nat → World → Option BlockId → Option BlockId → Option (World × Bool)
  | 0, _, _, _ => none
  | _ + 1, w, _, none => some (w, false)
  | fuel + 1, w, prev, some e =>
    let next := w.links.next e
    let y := w.core.eventInterval (w.core.block e).event
    if x.start < y.stop ∧ x.stop > y.start then
      let (c, won) := w.core.blockSupersede eb e
      if won then
        let c := c.modifyBlock e fun b => { b with status := .scheduleSuperseded }
        let l := w.links.linkInsert s .superseded e
        insertBlockLoop s eb x fuel ⟨l.relink s .scheduled prev next, c⟩ prev next
      else if (c.block eb).der = 0 then
        let c := c.modifyBlock eb fun b => { b with status := .scheduleSuperseded }
        some (⟨w.links.linkInsert s .superseded eb, c⟩, true)
      else insertBlockLoop s eb x fuel ⟨w.links, c⟩ (some e) next
    else if x.stop = y.start then
      let c := w.core.modifyBlock e fun b => { b with start := (w.core.block eb).stop }
      insertBlockLoop s eb x fuel ⟨w.links, c⟩ (some e) next
    else if x.stop = y.stop then
      let c := w.core.modifyBlock e fun b => { b with stop := (w.core.block eb).stop }
      insertBlockLoop s eb x fuel ⟨w.links, c⟩ (some e) next
    else insertBlockLoop s eb x fuel w (some e) next

/-- `insert_block`. -/
def insertBlock (fuel : Nat) (s : ScheduleId) (eb : BlockId) : Option World := do
  let c := w.core.modifyBlock eb fun b => { b with status := .scheduled }
  let c := c.loadDer eb
  let x := c.eventInterval (c.block eb).event
  let (w, superseded) ←
    insertBlockLoop s eb x fuel ⟨w.links, c⟩ none (w.links.head s .scheduled)
  if superseded then some w
  else do
    let l ← w.links.insertSorted fuel s .scheduled eb w.core.compareStart
    some ⟨l, w.core⟩

/-- The loop of `insert_active` over the `active` queue, at the block `a`.  The
pointer `prev` stays at the head cell.  Also whether the new block was superseded
itself. -/
def insertActiveLoop (s : ScheduleId) (eb : BlockId) :
    Nat → World → Option BlockId → Option (World × Bool)
  | 0, _, _ => none
  | _ + 1, w, none => some (w, false)
  | fuel + 1, w, some a =>
    let next := w.links.next a
    let (c, won) := w.core.blockSupersede eb a
    if won then
      insertActiveLoop s eb fuel ⟨w.links.setHead s .active next, c.supersedeActive s eb a⟩ next
    else if (c.block eb).der = 0 then some (⟨w.links, c.yieldActive s eb⟩, true)
    else insertActiveLoop s eb fuel ⟨w.links, c⟩ next

/-- `insert_active`. -/
def insertActive (fuel : Nat) (s : ScheduleId) (eb : BlockId) : Option World := do
  let c := w.core.loadDer eb
  let (w, superseded) ← insertActiveLoop s eb fuel ⟨w.links, c⟩ (w.links.head s .active)
  if superseded then some w
  else do
    let c ← w.core.startBlock fuel s eb
    let l ← w.links.insertSorted fuel s .active eb c.compareEnd
    some ⟨l, c⟩

/-- `remove_block`. -/
def removeBlock (fuel : Nat) (s : ScheduleId) (eb : BlockId) : Option World :=
  match (w.core.block eb).status with
  | .scheduled => (w.links.listRemove fuel s .scheduled eb).map fun l => ⟨l, w.core⟩
  | .active =>
    let c := w.core.modifyBlock eb fun b => { b with stop := w.core.seTime }
    let c := c.removeEvent (.block eb)
    let c := c.insertEvent (.block eb) .eventEnd 0
    (w.links.listRemove fuel s .active eb).map fun l => ⟨l, c⟩
  | .activeWait => (w.links.listRemove fuel s .active eb).map fun l => ⟨l, w.core⟩
  | .scheduleSuperseded =>
    (w.links.listRemove fuel s .superseded eb).map fun l => ⟨l, w.core⟩
  | _ => some w

/-- `remove_blocks`. -/
def removeBlocks (fuel : Nat) (event : StubId) (response : ResponseType) : Option World :=
  let status := w.core.eventStatus event
  (w.core.stub event).schedules.foldlM (fun w s => do
    let eb ← w.core.getBlock s event
    let w ← w.removeBlock fuel s eb
    let c :=
      if (w.core.block eb).status ≠ status then
        w.core.deviceResponse (w.core.schedule s).device event response
      else w.core
    some ⟨w.links, c.modifyBlock eb fun b => { b with status := status }⟩) w

/-- `event_update`. -/
def eventUpdate (fuel : Nat) (event : StubId) : Option World :=
  match w.core.eventStatus event with
  | .scheduled =>
    let now := w.core.seTime
    if w.core.syncTime ≠ now then
      let c := { w.core with seTimeOffset := w.core.seTimeOffset - 1, syncTime := now - 1 }
      some ⟨w.links, c.insertEvent (.stub event) .resourceUpdate now⟩
    else some ⟨w.links, w.core.insertEvent (.stub event) .resourceUpdate (now + 1)⟩
  | .active => (w.core.activateBlocks event).map fun c => ⟨w.links, c⟩
  | .canceled | .canceledRandom => w.removeBlocks fuel event .eventCanceled
  | .superseded => w.removeBlocks fuel event .eventSuperseded
  | _ => some w

/-- The switch of `schedule_event` for a block whose status is not terminal. -/
def placeBlock (fuel : Nat) (s : ScheduleId) (event : StubId) (eb : BlockId) :
    Option World :=
  let status := w.core.eventStatus event
  match status with
  | .scheduled =>
    if (w.core.block eb).status ≠ .activeWait then w.insertBlock fuel s eb
    else w.insertActive fuel s eb
  | .active => w.insertActive fuel s eb
  | .canceled | .canceledRandom =>
    let c := w.core.deviceResponse (w.core.schedule s).device event .eventCanceled
    some ⟨w.links, c.blockUpdate eb status⟩
  | .superseded =>
    let c := w.core.deviceResponse (w.core.schedule s).device event .eventSuperseded
    some ⟨w.links, c.blockUpdate eb status⟩
  | _ => some w

/-- `schedule_event`. -/
def scheduleEvent (fuel : Nat) (s : ScheduleId) (event : StubId) (primacy : Nat) :
    Option (World × BlockId) :=
  match w.core.getBlock s event with
  | some eb =>
    let w : World := ⟨w.links, w.core.modifyBlock eb fun b => { b with primacy := primacy % 256 }⟩
    if (w.core.block eb).status.terminal then some (w, eb)
    else (w.placeBlock fuel s event eb).map fun w => (w, eb)
  | none => do
    let (c, eb, expired) ← w.core.registerEvent s event primacy
    if expired then some (⟨w.links, c⟩, eb)
    else (World.placeBlock ⟨w.links, c⟩ fuel s event eb).map fun w => (w, eb)

/-! ## Updating a schedule -/

/-- `last = last? min (last, x) : x`, where 0 stands for no boundary. -/
def nearer (last x : Int) : Int :=
  if last ≠ 0 then (if last < x then last else x) else x

/-- The loop of `update_schedule` over the `active` queue: the block it stops at and
the end of that block. -/
def expireLoop (s : ScheduleId) (now : Int) :
    Nat → World → Option BlockId → Option (World × Option BlockId × Int)
  | 0, _, _ => none
  | _ + 1, w, none => some (w, none, 0)
  | fuel + 1, w, some eb =>
    if (w.core.block eb).stop ≤ now then
      expireLoop s now fuel ⟨w.links, w.core.expireBlock s eb⟩ (w.links.next eb)
    else some (w, some eb, (w.core.block eb).stop)

/-- The loop of `update_schedule` over the `scheduled` queue. -/
def promoteLoop (s : ScheduleId) (now : Int) :
    Nat → World → Option BlockId → Int → Option (World × Option BlockId × Int)
  | 0, _, _, _ => none
  | _ + 1, w, none, last => some (w, none, last)
  | fuel + 1, w, some eb, last =>
    let next := w.links.next eb
    if (w.core.block eb).start ≤ now then do
      let w ← w.insertActive fuel s eb
      promoteLoop s now fuel w next (nearer last (w.core.block eb).stop)
    else some (w, some eb, nearer last (w.core.block eb).start)

/-- The loop of `update_schedule` over the `superseded` queue. -/
def retireLoop (s : ScheduleId) (now : Int) :
    Nat → World → Option BlockId → Int → Option (World × Option BlockId × Int)
  | 0, _, _, _ => none
  | _ + 1, w, none, last => some (w, none, last)
  | fuel + 1, w, some eb, last =>
    if (w.core.block eb).start ≤ now then
      retireLoop s now fuel ⟨w.links, w.core.retireBlock s eb⟩ (w.links.next eb) last
    else some (w, some eb, nearer last (w.core.block eb).start)

/-- `update_schedule`. -/
def updateSchedule (fuel : Nat) (s : ScheduleId) : Option World := do
  let now := w.core.seTime
  let (w, eb, last) ← expireLoop s now fuel w (w.links.head s .active)
  let w : World := ⟨w.links.setHead s .active eb, w.core⟩
  let (w, eb, last) ← promoteLoop s now fuel w (w.links.head s .scheduled) last
  let w : World := ⟨w.links.setHead s .scheduled eb, w.core⟩
  let (w, eb, last) ← retireLoop s now fuel w (w.links.head s .superseded) last
  let w : World := ⟨w.links.setHead s .superseded eb, w.core⟩
  some ⟨w.links, w.core.armTimer s last⟩

/-! ## The schedule of a DER device -/

/-- `remove_programs`. -/
def removePrograms (fuel : Nat) (s : ScheduleId) (derpl : List StubId) : Option World :=
  if derpl = [] then some w
  else
    (w.core.schedule s).blocks.foldlM (fun w eb =>
      if (w.core.block eb).program.any (· ∈ derpl) then do
        let w ← w.removeBlock fuel s eb
        let c :=
          if (w.core.block eb).status = .active then
            w.core.deviceResponse (w.core.schedule s).device (w.core.block eb).event
              .eventAbortedProgram
          else w.core
        some ⟨w.links, c.modifyBlock eb fun b => { b with status := .aborted }⟩
      else some w) w

/-- `get_device`. -/
def getDevice (sfdi : Nat) : World × ScheduleId :=
  match w.core.devices.find? fun d => (w.core.device d).sfdi = sfdi with
  | some d => (w, d)
  | none =>
    let d := w.core.freshDevice
    let c := w.core.modifyDevice d fun _ => { sfdi }
    let c := c.modifySchedule d fun _ => {}
    (⟨{ w.links with head := Function.update w.links.head d fun _ => none },
      { c with devices := c.devices ++ [d], freshDevice := d + 1 }⟩, d)

/-- `schedule->scheduled = schedule->active = schedule->superseded = NULL;` -/
def clearQueues (s : ScheduleId) : World :=
  { w with links := { w.links with head := Function.update w.links.head s fun _ => none } }

/-- One event of a program in `schedule_der`. -/
def scheduleControl (fuel : Nat) (d : ScheduleId) (program : StubId) (w : World)
    (event : StubId) : Option World := do
  let (w, eb) ← w.scheduleEvent fuel d event (w.core.data program).primacy
  some ⟨w.links, w.core.modifyBlock eb fun b =>
    { b with program := some program, context := some d }⟩

/-- The events of one program in `schedule_der`. -/
def scheduleProgram (fuel : Nat) (d : ScheduleId) (w : World) (program : StubId) :
    Option World :=
  match w.core.getSubordinate program SeType.derControlList with
  | none => some w
  | some t => (w.core.stub t).reqs.foldlM (scheduleControl fuel d program) w

/-- The part of `schedule_der` before events are scheduled: the programs of the device, and
a Schedule without the blocks of those that are gone, its queues cleared. -/
def beginDer (cl : Client) (fuel : Nat) (d : ScheduleId) (edev fsa : StubId) :
    Option (World × List StubId) := do
  let c := w.core.modifyStub edev fun t =>
    { t with
      data := t.data.map fun e =>
        { e with lFDI := some (e.lFDI.getD (w.core.device d).lfdi) } }
  let derpl := c.derPrograms cl fsa
  let w ← removePrograms ⟨w.links, c⟩ fuel d (Core.listSubtract (c.device d).derpl derpl)
  let w := w.clearQueues d
  some (⟨w.links, w.core.modifySchedule d fun t => { t with device := some edev }⟩, derpl)

/-- The part of `schedule_der` after events are scheduled. -/
def endDer (d : ScheduleId) (derpl : List StubId) : World :=
  let dderc := derpl.foldl w.core.defaultControl none
  let c := w.core.modifyDevice d fun t => { t with derpl := derpl, dderc := dderc }
  let c := c.insertEvent (.schedule d) .scheduleUpdate 0
  ⟨w.links, c.insertEvent (.device d) .deviceSchedule 0⟩

/-- `schedule_der`. -/
def scheduleDer (cl : Client) (fuel : Nat) (edev : StubId) : Option World :=
  let (w, d) := w.getDevice (w.core.data edev).sFDI
  match w.core.getSubordinate edev SeType.functionSetAssignmentsList with
  | none => some w
  | some fsa => do
    let (w, derpl) ← w.beginDer cl fuel d edev fsa
    let w ← derpl.foldlM (scheduleProgram fuel d) w
    some (w.endDer d derpl)

end World
end SeClient
