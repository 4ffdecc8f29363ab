import SeClient.Chain
import SeClient.Memory

/-!
# The event queue

`event.c`: immediate events wait in a first-in first-out queue, timed events in a
list kept in the order of `event_compare`.  The cells of both are allocated by
`insert_event` and belong to nobody else, so they are modelled as lists.
-/

namespace SeClient
namespace Core

/-- `event_compare`: the difference of two 64-bit times, as an `int`. -/
def eventCompare (x y : Event) : Int := toInt32 (x.time - y.time)

/-- `insert_event`: time 0 means at once. -/
def insertEvent (c : Core) (data : EventData) (type : EventType) (time : Int) : Core :=
  let e : Event := ⟨data, type, time⟩
  if time = 0 then { c with imEvent := c.imEvent ++ [e] }
  else { c with curEvent := Chain.place eventCompare e c.curEvent }

/-- `remove_event`: every event about `data`, from both queues. -/
def removeEvent (c : Core) (data : EventData) : Core :=
  { c with
    imEvent := c.imEvent.filter (fun e => e.data ≠ data)
    curEvent := c.curEvent.filter (fun e => e.data ≠ data) }

/-- `next_event`: the event taken from the queue, `none` for EVENT_NONE. -/
def nextEvent (c : Core) : Core × Option Event :=
  match c.imEvent with
  | e :: im => ({ c with imEvent := im }, some e)
  | [] =>
    match c.curEvent with
    | [] => (c, none)
    | e :: cur => if e.time ≤ c.seTime then ({ c with curEvent := cur }, some e) else (c, none)

end Core
end SeClient
