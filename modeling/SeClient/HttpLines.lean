import SeClient.Memory
import SeClient.StringTable

/-!
# The lines of an HTTP message

`http_receive` on the lines that `next_line` finds: the status or request line, the header
fields and the empty line that ends them.  The queue of the requests that wait for a response is
part of it: a status line takes the first of them.

The parsers of URIs and host names are parameters.
-/

namespace SeClient

/-- A string of the source. -/
def chars (s : List Char) : CString := s.map fun c => c.toNat.toUInt8

/-- A property of the bytes of a string is decided byte by byte. -/
instance decidableBytes (s : CString) (p : UInt8 → Prop) [DecidablePred p] :
    Decidable (∀ c ∈ s, p c) :=
  List.decidableBAll p s

/-! ## Tokens -/

/-- `digit` -/
def digit (c : UInt8) : Bool := 48 ≤ c ∧ c ≤ 57

/-- `hws` -/
def hws (c : UInt8) : Bool := c = 32 ∨ c = 9

/-- `tchar` -/
def tchar (c : UInt8) : Bool :=
  (65 ≤ c ∧ c ≤ 90) ∨ (94 ≤ c ∧ c ≤ 122) ∨ digit c ∨ c = 33 ∨ (35 ≤ c ∧ c ≤ 39) ∨
    (42 ≤ c ∧ c ≤ 43) ∨ (45 ≤ c ∧ c ≤ 46) ∨ c = 124 ∨ c = 126

/-- `ows` -/
def ows (data : CString) : CString := data.dropWhile hws

/-- `to_lower` -/
def toLower (s : CString) : CString := s.map fun c => if 65 ≤ c ∧ c ≤ 90 then c + 32 else c

/-- The loop of `token_sp` and `token_colon`: the token before the first character that `p` holds
of, and what follows after blanks. -/
def tokenTo (p : UInt8 → Bool) (data : CString) : Option (CString × CString) :=
  match data.dropWhile fun c => !p c with
  | [] => none
  | _ :: rest => some (data.takeWhile (fun c => !p c), ows rest)

/-- `token_sp` -/
def tokenSp : CString → Option (CString × CString) := tokenTo hws

/-- `token_colon` -/
def tokenColon : CString → Option (CString × CString) := tokenTo fun c => c = 58

/-- `token`: what follows the token, which stays in its string. -/
def token (data : CString) : Option CString :=
  if data.takeWhile tchar = [] then none else some (data.dropWhile tchar)

/-- `number`: an `int` and what follows. -/
def number (data : CString) : Option (ℤ × CString) :=
  match data.takeWhile digit with
  | [] => none
  | ds => some (ds.foldl (fun y c => toInt32 (y * 10 + (c.toNat - 48))) 0, data.dropWhile digit)

/-- The value of digits. -/
def decimal (ds : CString) : ℕ := ds.foldl (fun y c => y * 10 + (c.toNat - 48)) 0

theorem decimal_append (ds : CString) (c : UInt8) :
    decimal (ds ++ [c]) = decimal ds * 10 + (c.toNat - 48) := List.foldl_append

/-- `string_index` -/
def stringIndex (s : CString) (ss : List CString) : ℕ := ss.findIdx (· = s)

/-! ## The connection -/

/-- `HttpMethod` of a request line. -/
def httpMethods : List CString :=
  [chars ['G', 'E', 'T'], chars ['P', 'U', 'T'], chars ['P', 'O', 'S', 'T'],
    chars ['D', 'E', 'L', 'E', 'T', 'E'], chars ['H', 'E', 'A', 'D']]

/-- `c->version` -/
def httpVersion : CString := chars ['H', 'T', 'T', 'P', '/', '1', '.', '1']

/-- The header fields that are looked at, as the flags of `c->header`. -/
inductive HeaderFlag
  | host | accept | contentType | contentLength | connection | location
deriving DecidableEq, Repr

/-- The names of the header fields. -/
def headerNames : List (HeaderFlag × CString) :=
  [(.host, chars ['h', 'o', 's', 't']), (.accept, chars ['a', 'c', 'c', 'e', 'p', 't']),
    (.contentType, chars ['c', 'o', 'n', 't', 'e', 'n', 't', '-', 't', 'y', 'p', 'e']),
    (.contentLength,
      chars ['c', 'o', 'n', 't', 'e', 'n', 't', '-', 'l', 'e', 'n', 'g', 't', 'h']),
    (.connection, chars ['c', 'o', 'n', 'n', 'e', 'c', 't', 'i', 'o', 'n']),
    (.location, chars ['l', 'o', 'c', 'a', 't', 'i', 'o', 'n'])]

inductive HttpState
  | start | header | data | complete | closed
deriving DecidableEq, Repr

/-- `c->method`: what has been received. -/
inductive Received
  | response
  /-- An index of `http_methods`. -/
  | request (method : ℕ)
deriving DecidableEq, Repr

/-- A queued `HttpRequest`; `C` is the type of contexts. -/
structure QueuedRequest (C : Type) where
  method : HttpMethod
  uri : CString
  context : Option C := none
deriving DecidableEq, Repr

/-- The parsers of `uri.c`: `parse_uri` on a request target, and what `parse_host` leaves. -/
structure UriParser (T : Type) where
  target : CString → Option T
  host : CString → CString

/-- The fields of `HttpConnection` that concern the lines of a message. -/
structure HttpConnection (C T : Type) where
  client : Bool := true
  state : HttpState := .start
  method : Received := .response
  requestMethod : Option HttpMethod := none
  close : Bool := false
  header : List HeaderFlag := []
  error : ℤ := 0
  status : ℤ := 0
  body : Bool := false
  ends : ℤ := 0
  contentLength : ℤ := -1
  contentType : Option CString := none
  mediaRange : Option CString := none
  location : Option CString := none
  context : Option C := none
  uri : Option T := none
  request : List (QueuedRequest C) := []
deriving DecidableEq, Repr

namespace HttpConnection
variable {C T : Type} (parser : UriParser T)

/-- `queue_request` -/
def queueRequest (c : HttpConnection C T) (method : HttpMethod) (uri : CString) :
    HttpConnection C T :=
  { c with request := c.request ++ [⟨method, uri, none⟩] }

/-- The last request of a queue gets a context. -/
def attach (context : C) : List (QueuedRequest C) → List (QueuedRequest C)
  | [] => []
  | [r] => [{ r with context := some context }]
  | r :: rs => r :: attach context rs

/-- `set_request_context` -/
def setRequestContext (c : HttpConnection C T) (context : C) : HttpConnection C T :=
  { c with request := attach context c.request }

/-- `http_close` -/
def httpClose (c : HttpConnection C T) : HttpConnection C T :=
  { c with state := .closed, request := [] }

/-- `request_target` -/
def requestTarget (data : CString) : Option T :=
  if data.length > 255 then none else parser.target data

/-- A request or status line resets what the last message has left. -/
def reset (c : HttpConnection C T) : HttpConnection C T :=
  { c with
    close := false
    ends := 0
    header := []
    error := 0
    contentType := none
    mediaRange := none
    body := true
    contentLength := -1 }

/-- A status line, on which `dequeue_request` takes the first request. -/
def statusLine (c : HttpConnection C T) (data : CString) : Option (HttpConnection C T) := do
  let (text, data) ← tokenSp data
  guard (text = httpVersion)
  let (text, _) ← tokenSp data
  let (status, _) ← number text
  guard (status ≤ 999)
  match c.request with
  | [] => none
  | r :: request =>
    let uri ← requestTarget parser r.uri
    some { c with
      state := .header
      status := status
      request := request
      uri := some uri
      context := r.context
      method := .response
      requestMethod := some r.method }

/-- A request line. -/
def requestLine (c : HttpConnection C T) (data : CString) : Option (HttpConnection C T) := do
  let (method, data) ← tokenSp data
  let (target, data) ← tokenSp data
  let uri ← requestTarget parser target
  guard (data = httpVersion)
  some { c with
    state := .header
    uri := some uri
    method := .request (stringIndex method httpMethods)
    requestMethod := none }

/-- The value of a header field. -/
def headerValue (c : HttpConnection C T) (flag : HeaderFlag) (data : CString) :
    HttpConnection C T :=
  match flag with
  | .host => if ows (parser.host data) = [] then c else { c with error := 400 }
  | .accept => { c with mediaRange := some data }
  | .contentType => { c with contentType := some data }
  | .contentLength =>
    match number data with
    | some (n, rest) =>
      if ows rest = [] then { c with ends := n, contentLength := n }
      else { c with ends := n, error := 400 }
    | none => { c with error := 400 }
  | .connection =>
    match token data with
    | some _ => { c with close := toLower data = chars ['c', 'l', 'o', 's', 'e'] }
    | none => c
  | .location => { c with location := some data }

/-- A header field. -/
def headerField (c : HttpConnection C T) (data : CString) : HttpConnection C T :=
  match tokenColon data with
  | some (header, value) =>
    match headerNames.find? fun f => f.2 = toLower header with
    | some (flag, _) => headerValue parser { c with header := flag :: c.header } flag value
    | none => c
  | none => { c with error := 400 }

/-- The message has no body. -/
def noBody (c : HttpConnection C T) : Bool :=
  match c.method with
  | .response => (.contentLength ∈ c.header ∧ c.ends = 0) ∨ (100 ≤ c.status ∧ c.status ≤ 199) ∨
      c.status = 204 ∨ c.status = 304
  | .request _ => c.ends = 0

/-- What ends a pass of `http_receive`: HTTP_NONE, HTTP_ERROR or `c->method`. -/
inductive Outcome
  | none | error | message
deriving DecidableEq, Repr

/-- The end of the headers, with `next` the offset behind it. -/
def endOfHeaders (c : HttpConnection C T) (next : ℕ) : HttpConnection C T × Outcome :=
  if c.error ≠ 0 then
    (c.httpClose, if c.method = .response then .none else .error)
  else
    let c := if c.noBody then { c with body := false, state := .complete }
      else { c with state := .data, close := c.close || c.ends = 0 }
    ({ c with ends := c.ends + next }, .message)

/-- What `http_receive` does with a line, with `next` the offset behind it. -/
def takeLine (c : HttpConnection C T) (data : CString) (next : ℕ) :
    HttpConnection C T × Option Outcome :=
  match c.state, data with
  | .start, [] => (c, none)
  | .start, _ =>
    if c.client then
      match statusLine parser c.reset data with
      | some c => (c, none)
      | none => (c.httpClose, some .none)
    else
      match requestLine parser c.reset data with
      | some c => (c, none)
      | none => (c.httpClose, some .error)
  | .header, [] =>
    let (c, outcome) := c.endOfHeaders next
    (c, some outcome)
  | .header, ch :: _ =>
    (if hws ch then { c with error := 400 } else headerField parser c data, none)
  | _, _ => (c, none)

end HttpConnection
end SeClient
