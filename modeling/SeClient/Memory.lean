import Mathlib.Algebra.Order.Ring.Int
import Mathlib.Data.List.Basic
import Mathlib.Logic.Function.Basic

/-!
# The client's memory

The client is one thread over one heap: Stubs (the local copies of server
resources), DerDevices with their Schedules, EventBlocks, and the event queue.
A pointer is the identity of the object it points to, `none` is `NULL`, and an
object that `malloc` returns has a fresh identity.

`Core` is everything except the links of the three block queues, which are
`Links`: the `next` field of every EventBlock and the three queue heads of every
Schedule.  `World` is both.  The queue functions of `list.c` only ever see the
links; everything else the client does leaves them alone.
-/

namespace SeClient

/-- The identity of a Stub. -/
abbrev StubId := Nat
/-- The identity of an EventBlock. -/
abbrev BlockId := Nat
/-- The identity of a DerDevice, and of the Schedule it embeds. -/
abbrev ScheduleId := Nat
/-- The identity of an SeConnection. -/
abbrev ConnId := Nat
/-- The path component of an href. -/
abbrev Name := String
/-- A type number of the IEEE 2030.5 schema. -/
abbrev SeType := Int

/-! ## IEEE 2030.5 objects -/

/-- `enum EventStatus`.  A server may send a number the enumeration does not name. -/
inductive EventStatus
  | scheduled | active | canceled | canceledRandom | superseded | aborted | completed
  | activeWait | scheduleSuperseded
  | reserved (n : Nat)
deriving DecidableEq, Repr

/-- `in_range (status, Canceled, Completed)`. -/
def EventStatus.terminal : EventStatus → Bool
  | .canceled | .canceledRandom | .superseded | .aborted | .completed => true
  | _ => false

/-- `enum ResponseType`, the members the client sends. -/
inductive ResponseType
  | eventReceived | eventStarted | eventCompleted | eventCanceled | eventSuperseded
  | eventAbortedProgram | eventExpired
deriving DecidableEq, Repr

/-- The fields of IEEE 2030.5 objects that the modelled functions read.  Which of
them mean anything depends on the type of the object, as in a C union. -/
structure SeObject where
  /-- `mRID` of an identified object. -/
  mRID : Nat := 0
  /-- `creationTime` of an Event. -/
  creationTime : Int := 0
  /-- `EventStatus.currentStatus` of an Event. -/
  currentStatus : EventStatus := .scheduled
  /-- `interval.start` of an Event. -/
  start : Int := 0
  /-- `interval.duration` of an Event. -/
  duration : Nat := 0
  /-- `responseRequired` of an Event. -/
  responseRequired : Nat := 0
  /-- `randomizeStart` of a RandomizableEvent. -/
  randomizeStart : Int := 0
  /-- `randomizeDuration` of a RandomizableEvent. -/
  randomizeDuration : Int := 0
  /-- `DERControlBase._flags` of a DERControl. -/
  controlFlags : BitVec 32 := 0
  /-- `primacy` of a DERProgram. -/
  primacy : Nat := 0
  /-- `sFDI` of an EndDevice. -/
  sFDI : Nat := 0
  /-- `lFDI` of an EndDevice, `none` when the element is absent. -/
  lFDI : Option Nat := none
  /-- `all` of a List object, an `SE_UInt16_t`. -/
  all : BitVec 16 := 0
  /-- `results` of a List object, an `SE_UInt8_t`. -/
  results : BitVec 8 := 0
  /-- The path that `object_path` finds in the object's href, if any. -/
  path : Option Name := none
deriving DecidableEq, Repr

namespace SeType

def derControl : SeType := 67
def derControlList : SeType := 69
def derProgram : SeType := 81
def derProgramList : SeType := 83
def defaultDERControl : SeType := 94
def endDeviceControl : SeType := 111
def functionSetAssignmentsList : SeType := 140
def timeTariffInterval : SeType := 303

end SeType

/-- `se_event`: the schema types derived from Event. -/
def seEvent (type : SeType) : Bool := type ∈ [67, 111, 119, 133, 226, 295, 303]

/-- `randomizable`. -/
def randomizable (type : SeType) : Bool :=
  type = SeType.derControl ∨ type = SeType.timeTariffInterval ∨ type = SeType.endDeviceControl

/-- `ListInfo`: the item type of a List type. -/
structure ListInfo where
  type : SeType
deriving DecidableEq, Repr

/-- `se_list_info`: every List type of the schema with its item type. -/
def seListInfo : List (SeType × SeType) :=
  [(25, 24), (28, 27), (31, 30), (42, 41), (46, 45), (57, 55), (60, 59), (69, 67), (75, 73),
   (79, 62), (83, 81), (98, 96), (112, 111), (115, 110), (131, 130), (134, 133), (140, 138),
   (143, 142), (147, 146), (150, 149), (156, 155), (167, 166), (171, 170), (176, 173),
   (182, 181), (188, 187), (209, 207), (218, 217), (221, 220), (224, 223), (229, 227),
   (235, 232), (239, 237), (252, 251), (255, 254), (277, 275), (280, 279), (287, 286),
   (292, 290), (296, 295), (304, 303), (314, 311)]

/-- `find_list_info`. -/
def findListInfo (type : SeType) : Option ListInfo :=
  (seListInfo.find? (fun p => p.1 = type)).map (fun p => ⟨p.2⟩)

/-! ## Records -/

/-- The completion routine of a Stub: the library's own two, or one of the
application's. -/
inductive Routine
  | eventUpdate | scheduleDer
  | user (n : Nat)
deriving DecidableEq, Repr

/-- A resource Stub. -/
structure Stub where
  /-- `base.name`, the path of the resource. -/
  name : Name := ""
  /-- `base.type`. -/
  type : SeType := 0
  /-- `base.info`, not `NULL` for a List resource. -/
  info : Option ListInfo := none
  /-- `base.time`, the time the resource was last updated. -/
  time : Int := 0
  /-- `base.data`. -/
  data : Option SeObject := none
  conn : ConnId := 0
  /-- The HTTP status, 0 for a new Stub, -1 for an update. -/
  status : Int := 0
  pollNext : Int := 0
  pollRate : Int := 0
  complete : Bool := false
  /-- The marker for this resource in its dependents. -/
  flag : BitVec 32 := 0
  /-- A bitwise requirements checklist. -/
  flags : BitVec 32 := 0
  /-- A `uint32_t`, as is `all`. -/
  offset : BitVec 32 := 0
  all : BitVec 32 := 0
  moved : Option StubId := none
  /-- Old requirements, during an update. -/
  list : List StubId := []
  deps : List StubId := []
  reqs : List StubId := []
  /-- The schedules of an event resource. -/
  schedules : List ScheduleId := []
  completion : Option Routine := none
deriving DecidableEq, Repr

/-- An EventBlock, without its link. -/
structure EventBlock where
  event : StubId := 0
  program : Option StubId := none
  context : Option ScheduleId := none
  status : EventStatus := .scheduled
  primacy : Nat := 0
  /-- The bitmask of active DER controls. -/
  der : BitVec 32 := 0
  /-- The effective start time. -/
  start : Int := 0
  /-- The effective end time. -/
  stop : Int := 0
deriving DecidableEq, Repr

/-- A Schedule, without its queue heads.  `blocks` is the HashTable of its
EventBlocks, keyed by the mRID of each block's event. -/
structure Schedule where
  /-- The time of the SCHEDULE_UPDATE last armed, 0 for none. -/
  next : Int := 0
  device : Option StubId := none
  blocks : List BlockId := []
deriving DecidableEq, Repr

/-- A DerDevice, without the Schedule it embeds. -/
structure DerDevice where
  sfdi : Nat := 0
  lfdi : Nat := 0
  derpl : List StubId := []
  dderc : Option SeObject := none
deriving DecidableEq, Repr

/-- The object an event of the event queue is about. -/
inductive EventData
  | block (b : BlockId)
  | stub (s : StubId)
  | schedule (s : ScheduleId)
  | device (d : ScheduleId)
deriving DecidableEq, Repr

/-- The types of queued events. -/
inductive EventType
  | eventStart | eventEnd
  | resourcePoll | resourceUpdate | resourceRemove | retrieveFail
  | scheduleUpdate | deviceSchedule | defaultControl
deriving DecidableEq, Repr

/-- An event of the event queue. -/
structure Event where
  data : EventData
  type : EventType
  time : Int
deriving DecidableEq, Repr

inductive HttpMethod
  | get | put | post | delete
deriving DecidableEq, Repr

/-- A request that waits for its response on a connection. -/
structure HttpRequest where
  conn : ConnId
  method : HttpMethod
  path : Name
  /-- The query `?s=offset&l=count` of a list request. -/
  query : Option (Int × Int) := none
  context : Option StubId := none
deriving DecidableEq, Repr

/-- A Response posted for a device about an event. -/
structure Response where
  device : Option StubId
  event : StubId
  status : ResponseType
deriving DecidableEq, Repr

/-- An EVENT_START that was queued: the block, its effective times, and the clock. -/
structure Start where
  block : BlockId
  start : Int
  stop : Int
  now : Int
deriving DecidableEq, Repr

/-! ## The memory -/

/-- The memory of the client, without the links of the block queues. -/
structure Core where
  stub : StubId → Stub
  block : BlockId → EventBlock
  schedule : ScheduleId → Schedule
  device : ScheduleId → DerDevice
  /-- The entries of the device hash table. -/
  devices : List ScheduleId
  /-- `im_event`, the queue of immediate events, head first. -/
  imEvent : List Event
  /-- `cur_event`, the list of timed events, head first. -/
  curEvent : List Event
  /-- The Responses posted so far, oldest first. -/
  responses : List Response
  /-- The requests waiting for a response, oldest first. -/
  requests : List HttpRequest
  /-- The completion routines called so far, oldest first. -/
  completions : List (Routine × StubId)
  /-- The EVENT_STARTs queued so far, oldest first.  A history variable. -/
  started : List Start
  /-- The resource hash table, as the finite map from names to chains of Stubs. -/
  resources : Name → Option StubId
  /-- `base.next`, the next Stub of the same name. -/
  stubNext : StubId → Option StubId
  /-- What `time (NULL)` returns. -/
  time : Int
  /-- `se_time_offset`. -/
  seTimeOffset : Int
  /-- The static `sync_time` of `event_update`. -/
  syncTime : Int
  /-- `active_poll_rate`. -/
  activePollRate : Int
  /-- What the next calls of `rand` return. -/
  rand : List Nat
  /-- What the next `malloc` of a Stub returns. -/
  freshStub : StubId
  /-- What the next `malloc` of an EventBlock returns. -/
  freshBlock : BlockId
  /-- What the next `malloc` of a DerDevice returns. -/
  freshDevice : ScheduleId

/-- The three block queues of a Schedule. -/
inductive QueueName
  | scheduled | active | superseded
deriving DecidableEq, Repr

/-- The links of the block queues. -/
structure Links where
  next : BlockId → Option BlockId
  head : ScheduleId → QueueName → Option BlockId

/-- The whole memory. -/
structure World where
  links : Links
  core : Core

namespace Core
variable (c : Core)

def modifyBlock (b : BlockId) (f : EventBlock → EventBlock) : Core :=
  { c with block := Function.update c.block b (f (c.block b)) }

def modifyStub (s : StubId) (f : Stub → Stub) : Core :=
  { c with stub := Function.update c.stub s (f (c.stub s)) }

def modifySchedule (s : ScheduleId) (f : Schedule → Schedule) : Core :=
  { c with schedule := Function.update c.schedule s (f (c.schedule s)) }

def modifyDevice (d : ScheduleId) (f : DerDevice → DerDevice) : Core :=
  { c with device := Function.update c.device d (f (c.device d)) }

/-- `resource_data`.  A `NULL` data pointer, which the C code would follow, reads
as the zero object. -/
def data (s : StubId) : SeObject := (c.stub s).data.getD {}

/-- `resource_type`. -/
def type (s : StubId) : SeType := (c.stub s).type

/-- `event_status`. -/
def eventStatus (event : StubId) : EventStatus := (c.data event).currentStatus

/-- `event->schedules`. -/
def schedules (event : StubId) : List ScheduleId := (c.stub event).schedules

/-- `se_time`. -/
def seTime : Int := c.time + c.seTimeOffset

/-! ### What the setters leave alone -/

section Setters
variable (b : BlockId) (f : EventBlock → EventBlock) (s : StubId) (g : Stub → Stub)
  (d : ScheduleId) (k : Schedule → Schedule)

@[simp] theorem modifyBlock_same : (c.modifyBlock b f).block b = f (c.block b) :=
  Function.update_self ..

theorem modifyBlock_of_ne {b x : BlockId} (h : x ≠ b) :
    (c.modifyBlock b f).block x = c.block x :=
  Function.update_of_ne h ..

theorem modifyBlock_block (x : BlockId) :
    (c.modifyBlock b f).block x = if x = b then f (c.block b) else c.block x :=
  Function.update_apply ..

@[simp] theorem modifyBlock_frame :
    (c.modifyBlock b f).stub = c.stub ∧ (c.modifyBlock b f).data = c.data ∧
      (c.modifyBlock b f).type = c.type ∧ (c.modifyBlock b f).eventStatus = c.eventStatus ∧
      (c.modifyBlock b f).schedules = c.schedules ∧ (c.modifyBlock b f).seTime = c.seTime ∧
      (c.modifyBlock b f).schedule = c.schedule ∧ (c.modifyBlock b f).imEvent = c.imEvent ∧
      (c.modifyBlock b f).curEvent = c.curEvent ∧ (c.modifyBlock b f).responses = c.responses ∧
      (c.modifyBlock b f).started = c.started ∧
      (c.modifyBlock b f).freshBlock = c.freshBlock ∧
      (c.modifyBlock b f).freshDevice = c.freshDevice := by
  refine ⟨?_, ?_, ?_, ?_, ?_, ?_, ?_, ?_, ?_, ?_, ?_, ?_, ?_⟩ <;> rfl

@[simp] theorem modifySchedule_same : (c.modifySchedule d k).schedule d = k (c.schedule d) :=
  Function.update_self ..

theorem modifySchedule_of_ne {d x : ScheduleId} (h : x ≠ d) :
    (c.modifySchedule d k).schedule x = c.schedule x :=
  Function.update_of_ne h ..

@[simp] theorem modifySchedule_frame :
    (c.modifySchedule d k).stub = c.stub ∧ (c.modifySchedule d k).data = c.data ∧
      (c.modifySchedule d k).type = c.type ∧
      (c.modifySchedule d k).eventStatus = c.eventStatus ∧
      (c.modifySchedule d k).schedules = c.schedules ∧
      (c.modifySchedule d k).seTime = c.seTime ∧ (c.modifySchedule d k).block = c.block ∧
      (c.modifySchedule d k).imEvent = c.imEvent ∧
      (c.modifySchedule d k).curEvent = c.curEvent ∧
      (c.modifySchedule d k).responses = c.responses ∧
      (c.modifySchedule d k).started = c.started ∧
      (c.modifySchedule d k).freshBlock = c.freshBlock ∧
      (c.modifySchedule d k).freshDevice = c.freshDevice := by
  refine ⟨?_, ?_, ?_, ?_, ?_, ?_, ?_, ?_, ?_, ?_, ?_, ?_, ?_⟩ <;> rfl

@[simp] theorem modifyStub_frame :
    (c.modifyStub s g).block = c.block ∧ (c.modifyStub s g).schedule = c.schedule ∧
      (c.modifyStub s g).seTime = c.seTime ∧ (c.modifyStub s g).imEvent = c.imEvent ∧
      (c.modifyStub s g).curEvent = c.curEvent ∧
      (c.modifyStub s g).responses = c.responses ∧
      (c.modifyStub s g).started = c.started ∧
      (c.modifyStub s g).freshBlock = c.freshBlock ∧
      (c.modifyStub s g).freshDevice = c.freshDevice := by
  refine ⟨?_, ?_, ?_, ?_, ?_, ?_, ?_, ?_, ?_⟩ <;> rfl

@[simp] theorem modifyStub_same : (c.modifyStub s g).stub s = g (c.stub s) :=
  Function.update_self ..

theorem modifyStub_of_ne {s x : StubId} (h : x ≠ s) : (c.modifyStub s g).stub x = c.stub x :=
  Function.update_of_ne h ..

/-- A field of the Stubs that the change of one Stub keeps is kept altogether. -/
theorem modifyStub_field {α : Type} (p : Stub → α) (hp : p (g (c.stub s)) = p (c.stub s)) :
    (fun x => p ((c.modifyStub s g).stub x)) = fun x => p (c.stub x) := by
  funext x
  by_cases hx : x = s
  · subst hx; rw [modifyStub_same, hp]
  · rw [modifyStub_of_ne c g hx]

end Setters
end Core

/-- `int`: the 32-bit value a 64-bit difference is converted to. -/
def toInt32 (x : Int) : Int := x.bmod (2 ^ 32)

end SeClient
