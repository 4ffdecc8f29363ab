import SeClient.DnsNames
import SeClient.TxtRecords
import SeClient.Uri

/-!
# Service discovery

`dnssd_client.c`: the packets a client receives, and what it knows of hosts and services after
them.  A host, a service or a question stands for itself by its name, which `get_by_name` keeps
distinct.

A packet lies in a buffer.  What is in front of it and behind it can be read as well, where a
record is shorter than its type needs.
-/

namespace SeClient

/-- A packet between `dns_start` and `dns_end`, and the memory around it. -/
structure Packet where
  bytes : List UInt8
  around : ℤ → UInt8 := fun _ => 0

namespace Packet

/-- The byte at a place that is counted from `dns_start`. -/
def byte (p : Packet) (i : ℤ) : UInt8 :=
  if 0 ≤ i ∧ i < p.bytes.length then p.bytes.getD i.toNat 0 else p.around i

/-- `UNPACK16` -/
def unpack16 (p : Packet) (i : ℕ) : ℕ := (p.byte i).toNat <<< 8 ||| (p.byte (i + 1)).toNat

/-- `UNPACK32` -/
def unpack32 (p : Packet) (i : ℕ) : UInt32 :=
  UInt32.ofNat (p.unpack16 i <<< 16 ||| p.unpack16 (i + 2))

/-- `n` bytes. -/
def copy (p : Packet) (i n : ℕ) : List UInt8 := (List.range n).map fun k => p.byte (i + k)

/-- `dns_name`, which comes to an end and reads the packet only (`dns_name_safe`): the name as a
string, and the place behind it. -/
def dnsName (p : Packet) (data : ℕ) : Option (CString × ℕ) :=
  match SeClient.dnsName p.bytes data with
  | some (.found name next) => some (upToNul name, next)
  | _ => none

end Packet

/-- The counts and flags of `DnsHeader`. -/
structure DnsHeader where
  flags : ℕ
  qdcount : ℕ
  ancount : ℕ
  nscount : ℕ

/-- `dns_header`, at the start of the packet. -/
def dnsHeader (p : Packet) : Option (DnsHeader × ℕ) :=
  if p.bytes.length < 12 then none
  else some (⟨p.unpack16 2, p.unpack16 4, p.unpack16 6, p.unpack16 8⟩, 12)

/-- The record that `parse_rr` finds: its name, the place of its fields, and the length of its
data. -/
structure ResourceRecord where
  name : CString
  data : ℕ
  length : ℕ
deriving DecidableEq, Repr

/-- `rr_type` -/
def ResourceRecord.type (r : ResourceRecord) (p : Packet) : ℕ := p.unpack16 r.data

/-- `rr_next` -/
def ResourceRecord.next (r : ResourceRecord) : ℕ := r.data + 10 + r.length

/-- `parse_rr` -/
def parseRr (p : Packet) (data : ℕ) : Option ResourceRecord :=
  match p.dnsName data with
  | none => none
  | some (name, data) =>
    if p.bytes.length < data + 10 then none
    else
      let r : ResourceRecord := ⟨name, data, p.unpack16 (data + 8)⟩
      if p.bytes.length < r.next then none else some r

/-- `skip_section` -/
def skipSection (p : Packet) (data : ℕ) : ℕ → Option ℕ
  | 0 => some data
  | count + 1 =>
    match parseRr p data with
    | none => none
    | some r => skipSection p r.next count

/-- `skip_questions` -/
def skipQuestions (p : Packet) (data : ℕ) : ℕ → Option ℕ
  | 0 => some data
  | count + 1 =>
    match p.dnsName data with
    | none => none
    | some (_, data) => if p.bytes.length < data + 4 then none else skipQuestions p (data + 4) count

/-- `A_RECORD` -/
def aRecord : ℕ := 1
/-- `PTR_RECORD` -/
def ptrRecord : ℕ := 12
/-- `TXT_RECORD` -/
def txtRecord : ℕ := 16
/-- `AAAA_RECORD` -/
def aaaaRecord : ℕ := 28
/-- `SRV_RECORD` -/
def srvRecord : ℕ := 33

/-- `Host` -/
structure Host where
  name : CString
  addr : Option Address := none

/-- `Service` -/
structure Service where
  name : CString
  query : CString := []
  port : ℕ := 0
  ttl : Int32 := 0
  txtFound : Bool := false
  srvFound : Bool := false
  complete : Bool := false
  seen : Bool := false
  host : Option CString := none
  txt : Option (List UInt8) := none

/-- What the client knows: `dns_host`, `dns_service`, `dns_question`. -/
structure Dnssd where
  hosts : List Host := []
  services : List Service := []
  questions : List CString := []

/-- How the processing of a packet ends early: a NULL pointer is followed, or `txt_valid` still
runs. -/
inductive DnsStop
  | null
  | running
deriving DecidableEq, Repr

namespace Dnssd
variable (d : Dnssd)

/-- `find_host` -/
def findHost (name : CString) : Option Host := d.hosts.find? (·.name = name)

/-- `find_service` -/
def findService (name : CString) : Option Service := d.services.find? (·.name = name)

/-- `get_host` -/
def getHost (name : CString) : Dnssd :=
  if (d.findHost name).isSome then d else { d with hosts := { name := name } :: d.hosts }

/-- `get_service` -/
def getService (name : CString) : Dnssd :=
  if (d.findService name).isSome then d
  else { d with services := { name := name } :: d.services }

/-- `get_question` -/
def getQuestion (name : CString) : Dnssd :=
  if name ∈ d.questions then d else { d with questions := name :: d.questions }

/-- A write to the host of a name. -/
def modifyHost (name : CString) (f : Host → Host) : Dnssd :=
  { d with hosts := d.hosts.map fun h => if h.name = name then f h else h }

/-- A write to the service of a name. -/
def modifyService (name : CString) (f : Service → Service) : Dnssd :=
  { d with services := d.services.map fun s => if s.name = name then f s else s }

/-- `host_a` -/
def hostA (p : Packet) (h : CString) (r : ResourceRecord) : Dnssd :=
  if r.length = 4 then
    d.modifyHost h fun h => { h with addr := some (.ipv4 (p.unpack32 (r.data + 10)) 0) }
  else d

/-- `host_aaaa` -/
def hostAaaa (p : Packet) (h : CString) (r : ResourceRecord) : Dnssd :=
  if r.length = 16 then
    d.modifyHost h fun h => { h with addr := some (.ipv6 (p.copy (r.data + 10) 16) 0) }
  else d

/-- The loop of `dns_find`: each record is at least 11 bytes behind the last. -/
def dnsFindLoop (p : Packet) (name : CString) (type : ℕ) : ℕ → ℕ → Option ResourceRecord
  | 0, _ => none
  | fuel + 1, data =>
    match parseRr p data with
    | none => none
    | some r => if r.name = name ∧ r.type p = type then some r else dnsFindLoop p name type fuel r.next

/-- `dns_find`.  `parse_rr` follows the pointer `ar_section`. -/
def dnsFind (p : Packet) (arSection : Option ℕ) (name : CString) (type : ℕ) :
    Except DnsStop (Option ResourceRecord) :=
  match arSection with
  | none => .error .null
  | some data => .ok (dnsFindLoop p name type (p.bytes.length + 1) data)

/-- `dns_srv`, once the target is read: the host that the service has, or else the one of that
name, is given an address if the packet has one. -/
def srvTarget (p : Packet) (arSection : Option ℕ) (s target : CString) : Except DnsStop Dnssd :=
  let host := ((d.findService s).bind (·.host)).getD target
  let d := if ((d.findService s).bind (·.host)).isSome then d
    else (d.getHost target).modifyService s fun s => { s with host := some target }
  match dnsFind p arSection target aaaaRecord with
  | .error e => .error e
  | .ok (some r) => .ok ((d.hostAaaa p host r).modifyService s fun s => { s with srvFound := true })
  | .ok none =>
    match dnsFind p arSection target aRecord with
    | .error e => .error e
    | .ok (some r) => .ok ((d.hostA p host r).modifyService s fun s => { s with srvFound := true })
    | .ok none => .ok (d.modifyService s fun s => { s with srvFound := true })

/-- `dns_srv` -/
def dnsSrv (p : Packet) (arSection : Option ℕ) (s : CString) (data : ℕ) : Except DnsStop Dnssd :=
  let d := d.modifyService s fun s =>
    { s with ttl := (p.unpack32 (data + 4)).toInt32, port := p.unpack16 (data + 10 + 4) }
  match p.dnsName (data + 10 + 6) with
  | none => .ok d
  | some (target, _) => d.srvTarget p arSection s target

/-- `dns_txt`: the content is copied, with a NUL behind it. -/
def dnsTxt (fuel : ℕ) (p : Packet) (s : CString) (r : ResourceRecord) : Except DnsStop Dnssd :=
  match txtValid (fun i => p.byte (r.data + 10 + i)) fuel 0 r.length with
  | none => .error .running
  | some false => .ok d
  | some true => .ok (d.modifyService s fun s =>
      { s with txt := some (p.copy (r.data + 10) r.length ++ [0]), txtFound := true })

/-- `dns_ptr`: the SRV record of the instance. -/
def ptrSrv (p : Packet) (arSection : Option ℕ) (inst : CString) : Except DnsStop Dnssd :=
  match dnsFind p arSection inst srvRecord with
  | .error e => .error e
  | .ok none => .ok d
  | .ok (some r) => d.dnsSrv p arSection inst r.data

/-- `dns_ptr`: the TXT record of the instance. -/
def ptrTxt (fuel : ℕ) (p : Packet) (arSection : Option ℕ) (inst : CString) :
    Except DnsStop Dnssd :=
  match dnsFind p arSection inst txtRecord with
  | .error e => .error e
  | .ok none => .ok d
  | .ok (some r) => d.dnsTxt fuel p inst r

/-- `dns_ptr`, once the instance is read. -/
def ptrInstance (fuel : ℕ) (p : Packet) (arSection : Option ℕ) (name inst : CString) :
    Except DnsStop Dnssd :=
  (((d.getService inst).modifyService inst fun s => { s with query := name }).ptrSrv
    p arSection inst).bind fun d => d.ptrTxt fuel p arSection inst

/-- `dns_ptr` -/
def dnsPtr (fuel : ℕ) (p : Packet) (arSection : Option ℕ) (r : ResourceRecord) :
    Except DnsStop Dnssd :=
  if r.name ∈ d.questions then
    match p.dnsName (r.data + 10) with
    | none => .ok d
    | some (inst, _) => d.ptrInstance fuel p arSection r.name inst
  else .ok d

/-- A record is one of those the client waits for. -/
def Awaits (p : Packet) (r : ResourceRecord) : Prop :=
  (r.type p = ptrRecord ∧ r.name ∈ d.questions) ∨
  ((r.type p = srvRecord ∨ r.type p = txtRecord) ∧ (d.findService r.name).isSome) ∨
  ((r.type p = aRecord ∨ r.type p = aaaaRecord) ∧ (d.findHost r.name).isSome)

instance (p : Packet) (r : ResourceRecord) : Decidable (d.Awaits p r) :=
  inferInstanceAs (Decidable (_ ∨ _ ∨ _))

/-- The `switch` of `process_answers`. -/
def processAnswer (fuel : ℕ) (p : Packet) (arSection : Option ℕ) (r : ResourceRecord) :
    Except DnsStop Dnssd :=
  if r.type p = ptrRecord then d.dnsPtr fuel p arSection r
  else if r.type p = srvRecord then
    if (d.findService r.name).isSome then d.dnsSrv p arSection r.name r.data else .ok d
  else if r.type p = txtRecord then
    if (d.findService r.name).isSome then d.dnsTxt fuel p r.name r else .ok d
  else if r.type p = aRecord then
    if (d.findHost r.name).isSome then .ok (d.hostA p r.name r) else .ok d
  else if r.type p = aaaaRecord then
    if (d.findHost r.name).isSome then .ok (d.hostAaaa p r.name r) else .ok d
  else .ok d

/-- `process_answers`, with the records whose handlers it has called.  The `return` stands behind
the first record. -/
def processAnswers (fuel : ℕ) (p : Packet) (arSection : Option ℕ) (data : ℕ) :
    ℕ → Except DnsStop (Dnssd × List ResourceRecord)
  | 0 => .ok (d, [])
  | _ + 1 =>
    match parseRr p data with
    | none => .ok (d, [])
    | some r =>
      match d.processAnswer fuel p arSection r with
      | .error e => .error e
      | .ok d' => .ok (d', if d.Awaits p r then [r] else [])

/-- The flags of a response without an error. -/
def isResponse (h : DnsHeader) : Bool := h.flags &&& 0xf80f = 0x8000

/-- `dnssd_packet` -/
def dnssdPacket (fuel : ℕ) (p : Packet) : Except DnsStop (Dnssd × List ResourceRecord) :=
  match dnsHeader p with
  | none => .ok (d, [])
  | some (h, data) =>
    if isResponse h then
      match skipQuestions p data h.qdcount with
      | none => .ok (d, [])
      | some data =>
        d.processAnswers fuel p (skipSection p data (h.ancount + h.nscount)) data h.ancount
    else .ok (d, [])

/-- A pass of `dnssd_followup`: the service, and the names it asks for. -/
def followupService (s : Service) : Except DnsStop (Service × List CString) :=
  let found := s.txtFound && s.srvFound
  let asked := if found then [] else [s.name]
  match s.host with
  | none => .error .null
  | some h =>
    if ((d.findHost h).bind (·.addr)).isSome then .ok ({ s with complete := found }, asked)
    else .ok ({ s with complete := false }, asked ++ [h])

/-- `dnssd_followup`, with the names of the query it sends. -/
def dnssdFollowup : Except DnsStop (Dnssd × List CString) := do
  let r ← d.services.mapM d.followupService
  let asked := r.flatMap (·.2)
  let d := asked.foldl getQuestion { d with services := r.map (·.1) }
  .ok (d, asked)

/-- The loop of `service_next`. -/
def serviceNextLoop : List Service → List Service
  | [] => []
  | s :: rest =>
    if s.complete && !s.seen then { s with seen := true } :: rest else s :: serviceNextLoop rest

/-- `service_next`, from the service behind the first `n`. -/
def serviceNext (n : ℕ) : Dnssd :=
  { d with services := d.services.take n ++ serviceNextLoop (d.services.drop n) }

end Dnssd
end SeClient
