import SeClient.HttpLines
import SeClient.Transition

/-!
# Requests and their responses

Runs of a client connection: requests are queued, get their contexts and are answered in order.
`http_receive` takes a request from the queue at each status line, so the responses fit their
requests as long as each of them is a final one (`paired`).
-/

namespace SeClient
open Transition

/-! ## The head of a response -/

/-- The status line and the header fields of a response. -/
structure ResponseHead where
  status : ℕ
  reason : CString
  fields : List (CString × CString)
deriving DecidableEq, Repr

namespace ResponseHead

def digitChar (d : ℕ) : UInt8 := UInt8.ofNat (48 + d)

/-- The three digits of a status code. -/
def digits (n : ℕ) : CString :=
  [digitChar (n / 100), digitChar (n / 10 % 10), digitChar (n % 10)]

def statusText (h : ResponseHead) : CString :=
  httpVersion ++ 32 :: (digits h.status ++ 32 :: h.reason)

def fieldText (f : CString × CString) : CString := f.1 ++ 58 :: f.2

/-- The lines of a head, with the empty line behind it. -/
def lines (h : ResponseHead) : List CString := h.statusText :: (h.fields.map fieldText ++ [[]])

/-- Not a final response. -/
def Interim (h : ResponseHead) : Prop := h.status ≤ 199

instance (h : ResponseHead) : Decidable h.Interim := inferInstanceAs (Decidable (_ ≤ _))

/-- A well-formed header field of a response. -/
structure FieldOk (f : CString × CString) : Prop where
  name : f.1 ≠ [] ∧ ∀ c ∈ f.1, tchar c = true
  host : toLower f.1 ≠ chars ['h', 'o', 's', 't']
  length : toLower f.1 = chars
    ['c', 'o', 'n', 't', 'e', 'n', 't', '-', 'l', 'e', 'n', 'g', 't', 'h'] →
      (ows f.2).takeWhile digit ≠ [] ∧ ows ((ows f.2).dropWhile digit) = []

/-- A well-formed head. -/
structure WellFormed (h : ResponseHead) : Prop where
  low : 100 ≤ h.status
  high : h.status ≤ 999
  fields : ∀ f ∈ h.fields, FieldOk f

end ResponseHead

namespace HttpConnection
open ResponseHead
variable {C T : Type} (parser : UriParser T)

/-- `http_receive` behind a message. -/
def resume (c : HttpConnection C T) : HttpConnection C T :=
  match c.state with
  | .complete => if c.close then { c with state := .closed } else { c with state := .start }
  | _ => c

/-- `http_receive` on lines, with `next` the offset of the first of them. -/
def takeLines (c : HttpConnection C T) (next : ℕ) : List CString → HttpConnection C T × Outcome
  | [] => (c, .none)
  | data :: ls =>
    match c.takeLine parser data (next + data.length + 2) with
    | (c, some outcome) => (c, outcome)
    | (c, none) => takeLines c (next + data.length + 2) ls

section Lines
variable {parser}

theorem tokenTo_append {p : UInt8 → Bool} {t rest : CString} {b : UInt8}
    (ht : ∀ c ∈ t, p c = false) (hb : p b = true) :
    tokenTo p (t ++ b :: rest) = some (t, ows rest) := by
  have hdrop : (t ++ b :: rest).dropWhile (fun c => !p c) = b :: rest := by
    rw [List.dropWhile_append_of_pos fun c hc => by simp [ht c hc]]
    exact List.dropWhile_cons_of_neg (by simp [hb])
  have htake : (t ++ b :: rest).takeWhile (fun c => !p c) = t := by
    rw [List.takeWhile_append_of_pos fun c hc => by simp [ht c hc],
      List.takeWhile_cons_of_neg (by simp [hb]), List.append_nil]
  rw [tokenTo, hdrop, htake]

theorem digit_char : ∀ d : ℕ, d < 10 → digit (digitChar d) = true ∧
    hws (digitChar d) = false ∧ ((digitChar d).toNat : ℤ) - 48 = d := by
  decide

theorem toInt32_of_lt {n : ℕ} (h : n < 2 ^ 31) : toInt32 n = n := by
  exact Int.bmod_eq_of_le (by omega) (by omega)

/-- What `number` makes of the digits of a status code. -/
theorem number_digits {n : ℕ} (h : n ≤ 999) : number (digits n) = some ((n : ℤ), []) := by
  obtain ⟨hd₂, -, hv₂⟩ := digit_char (n / 100) (by omega)
  obtain ⟨hd₁, -, hv₁⟩ := digit_char (n / 10 % 10) (by omega)
  obtain ⟨hd₀, -, hv₀⟩ := digit_char (n % 10) (by omega)
  have htake : (digits n).takeWhile digit = digits n := by
    simp [digits, hd₂, hd₁, hd₀]
  have hdrop : (digits n).dropWhile digit = [] := by
    simp [digits, hd₂, hd₁, hd₀]
  have hvalue : (digits n).foldl (fun y c => toInt32 (y * 10 + (c.toNat - 48))) 0 = n := by
    have h₂ : (0 * 10 + ((n / 100 : ℕ) : ℤ)) = ((n / 100 : ℕ) : ℤ) := by omega
    have h₁ : ((n / 100 : ℕ) : ℤ) * 10 + ((n / 10 % 10 : ℕ) : ℤ) = ((n / 10 : ℕ) : ℤ) := by omega
    have h₀ : ((n / 10 : ℕ) : ℤ) * 10 + ((n % 10 : ℕ) : ℤ) = (n : ℤ) := by omega
    rw [digits, List.foldl_cons, List.foldl_cons, List.foldl_cons, List.foldl_nil, hv₂, h₂,
      toInt32_of_lt (show n / 100 < 2 ^ 31 by omega), hv₁, h₁,
      toInt32_of_lt (show n / 10 < 2 ^ 31 by omega), hv₀, h₀,
      toInt32_of_lt (show n < 2 ^ 31 by omega)]
  unfold number
  rw [htake, hdrop]
  exact congrArg (fun y => some (y, [])) hvalue

variable {c c' : HttpConnection C T} {h : ResponseHead} {r : QueuedRequest C}
  {rs : List (QueuedRequest C)} {uri : T}

/-- **The status line of a response** takes the first request from the queue. -/
theorem statusLine_spec (hlow : 100 ≤ h.status) (hhigh : h.status ≤ 999)
    (hreq : c.request = r :: rs) (huri : requestTarget parser r.uri = some uri) :
    statusLine parser c h.statusText = some { c with
      state := .header
      status := h.status
      request := rs
      uri := some uri
      context := r.context
      method := .response
      requestMethod := some r.method } := by
  obtain ⟨hd₂, hw₂, -⟩ := digit_char (h.status / 100) (by omega)
  obtain ⟨hd₁, hw₁, -⟩ := digit_char (h.status / 10 % 10) (by omega)
  obtain ⟨hd₀, hw₀, -⟩ := digit_char (h.status % 10) (by omega)
  have hversion : tokenSp h.statusText =
      some (httpVersion, digits h.status ++ 32 :: h.reason) := by
    unfold tokenSp statusText
    rw [tokenTo_append (by decide) (by decide), ows, digits, List.cons_append,
      List.dropWhile_cons_of_neg (by simp [hw₂])]
  have hstatus : tokenSp (digits h.status ++ 32 :: h.reason) =
      some (digits h.status, ows h.reason) :=
    tokenTo_append (by simp [digits, hw₂, hw₁, hw₀]) (by decide)
  have hle : (h.status : ℤ) ≤ 999 := by omega
  unfold statusLine
  simp [hversion, hstatus, number_digits hhigh, hle, hreq, huri]

/-- Nothing has changed that the header fields leave alone. -/
structure SameAnswer (c c' : HttpConnection C T) : Prop where
  client : c'.client = c.client
  method : c'.method = c.method
  requestMethod : c'.requestMethod = c.requestMethod
  status : c'.status = c.status
  context : c'.context = c.context
  uri : c'.uri = c.uri
  request : c'.request = c.request

theorem SameAnswer.refl (c : HttpConnection C T) : SameAnswer c c :=
  ⟨rfl, rfl, rfl, rfl, rfl, rfl, rfl⟩

theorem SameAnswer.trans {c'' : HttpConnection C T} (h : SameAnswer c c') (h' : SameAnswer c' c'') :
    SameAnswer c c'' where
  client := h'.client.trans h.client
  method := h'.method.trans h.method
  requestMethod := h'.requestMethod.trans h.requestMethod
  status := h'.status.trans h.status
  context := h'.context.trans h.context
  uri := h'.uri.trans h.uri
  request := h'.request.trans h.request

variable (parser) in
theorem headerValue_same (c : HttpConnection C T) (flag : HeaderFlag) (data : CString) :
    SameAnswer c (headerValue parser c flag data) ∧
      (headerValue parser c flag data).state = c.state := by
  unfold headerValue
  cases flag with
  | host => dsimp only; split <;> exact ⟨⟨rfl, rfl, rfl, rfl, rfl, rfl, rfl⟩, rfl⟩
  | accept | contentType | location => exact ⟨⟨rfl, rfl, rfl, rfl, rfl, rfl, rfl⟩, rfl⟩
  | contentLength =>
    dsimp only
    split
    · split <;> exact ⟨⟨rfl, rfl, rfl, rfl, rfl, rfl, rfl⟩, rfl⟩
    · exact ⟨⟨rfl, rfl, rfl, rfl, rfl, rfl, rfl⟩, rfl⟩
  | connection => dsimp only; split <;> exact ⟨⟨rfl, rfl, rfl, rfl, rfl, rfl, rfl⟩, rfl⟩

variable (parser) in
theorem headerField_same (c : HttpConnection C T) (data : CString) :
    SameAnswer c (headerField parser c data) ∧ (headerField parser c data).state = c.state := by
  unfold headerField
  split
  · rename_i header value _
    split
    · rename_i flag name _
      obtain ⟨hsame, hstate⟩ := headerValue_same parser
        { c with header := flag :: c.header } flag value
      exact ⟨⟨hsame.client, hsame.method, hsame.requestMethod, hsame.status, hsame.context,
        hsame.uri, hsame.request⟩, hstate⟩
    · exact ⟨.refl c, rfl⟩
  · exact ⟨⟨rfl, rfl, rfl, rfl, rfl, rfl, rfl⟩, rfl⟩

/-- A well-formed header field is no error. -/
theorem headerField_error {f : CString × CString} (hf : FieldOk f) :
    (headerField parser c (fieldText f)).error = c.error := by
  have hname : ∀ ch ∈ f.1, decide (ch = 58) = false := by
    intro ch hch
    have htchar := hf.name.2 ch hch
    rw [decide_eq_false_iff_not]
    rintro rfl
    exact absurd htchar (by decide)
  have hcolon : tokenColon (fieldText f) = some (f.1, ows f.2) :=
    tokenTo_append hname (by decide)
  unfold headerField
  rw [hcolon]
  dsimp only
  split
  · rename_i flag name hfind
    have hmem := List.mem_of_find?_eq_some hfind
    have hlow : name = toLower f.1 := by simpa using List.find?_some hfind
    subst hlow
    unfold headerValue
    cases flag with
    | host => exact absurd hmem (by simp [headerNames, hf.host])
    | accept | contentType | location => rfl
    | connection => dsimp only; split <;> rfl
    | contentLength =>
      have hlength : toLower f.1 = chars
          ['c', 'o', 'n', 't', 'e', 'n', 't', '-', 'l', 'e', 'n', 'g', 't', 'h'] := by
        simpa [headerNames] using hmem
      obtain ⟨hdigits, hrest⟩ := hf.length hlength
      unfold number
      dsimp only
      cases htake : (ows f.2).takeWhile digit with
      | nil => exact absurd htake hdigits
      | cons d ds =>
        dsimp only
        rw [if_pos hrest]
  · rfl

/-- The first character of a field name is not a blank. -/
theorem takeLine_field {f : CString × CString} {next : ℕ} (hstate : c.state = .header)
    (hf : FieldOk f) :
    takeLine parser c (fieldText f) next = (headerField parser c (fieldText f), none) := by
  obtain ⟨hne, htchar⟩ := hf.name
  cases hname : f.1 with
  | nil => exact absurd hname hne
  | cons ch name =>
    have hblank : hws ch = false := by
      have hch := htchar ch (by rw [hname]; exact List.mem_cons_self)
      unfold hws
      rw [decide_eq_false_iff_not]
      rintro (rfl | rfl) <;> exact absurd hch (by decide)
    have htext : fieldText f = ch :: (name ++ 58 :: f.2) := by
      rw [fieldText, hname, List.cons_append]
    unfold takeLine
    rw [hstate, htext]
    dsimp only
    rw [if_neg (by rw [hblank]; decide)]

theorem endOfHeaders_spec (next : ℕ) (herror : c.error = 0) :
    (c.endOfHeaders next).2 = .message ∧ SameAnswer c (c.endOfHeaders next).1 ∧
      ((c.endOfHeaders next).1.state = .data ∨ (c.endOfHeaders next).1.state = .complete) := by
  unfold endOfHeaders
  rw [if_neg (fun h => h herror)]
  dsimp only
  split
  · exact ⟨rfl, ⟨rfl, rfl, rfl, rfl, rfl, rfl, rfl⟩, .inr rfl⟩
  · exact ⟨rfl, ⟨rfl, rfl, rfl, rfl, rfl, rfl, rfl⟩, .inl rfl⟩

variable (parser) in
/-- The header fields of a response, and their end. -/
theorem takeLines_fields {fs : List (CString × CString)} (next : ℕ) (hfs : ∀ f ∈ fs, FieldOk f)
    (hstate : c.state = .header) (herror : c.error = 0) :
    ∃ c', takeLines parser c next (fs.map fieldText ++ [[]]) = (c', .message) ∧
      SameAnswer c c' ∧ (c'.state = .data ∨ c'.state = .complete) := by
  induction fs generalizing c next with
  | nil =>
    obtain ⟨houtcome, hsame, hend⟩ := endOfHeaders_spec (next + 0 + 2) herror
    have htake : takeLine parser c [] (next + 0 + 2) =
        ((c.endOfHeaders (next + 0 + 2)).1, some (c.endOfHeaders (next + 0 + 2)).2) := by
      unfold takeLine
      rw [hstate]
    refine ⟨_, ?_, hsame, hend⟩
    rw [List.map_nil, List.nil_append, takeLines, List.length_nil, htake, houtcome]
  | cons f fs ih =>
    obtain ⟨hf, hfs⟩ := List.forall_mem_cons.mp hfs
    obtain ⟨hsame, hheader⟩ := headerField_same parser c (fieldText f)
    obtain ⟨c', hrest, hsame', hend⟩ := ih (next + (fieldText f).length + 2) hfs
      (hheader.trans hstate) ((headerField_error hf).trans herror)
    refine ⟨c', ?_, hsame.trans hsame', hend⟩
    rw [List.map_cons, List.cons_append, takeLines, takeLine_field hstate hf]
    exact hrest

variable (parser) in
/-- **A response** takes the first request from the queue. -/
theorem takeLines_head (next : ℕ) (hclient : c.client = true) (hstate : c.state = .start)
    (hwell : h.WellFormed) (hreq : c.request = r :: rs)
    (huri : requestTarget parser r.uri = some uri) :
    ∃ c', takeLines parser c next h.lines = (c', .message) ∧ c'.client = true ∧
      c'.request = rs ∧ c'.requestMethod = some r.method ∧ c'.uri = some uri ∧
      c'.context = r.context ∧ (c'.state = .data ∨ c'.state = .complete) := by
  have hline := statusLine_spec (c := c.reset) hwell.low hwell.high hreq huri
  obtain ⟨c', hfields, hsame, hend⟩ := takeLines_fields parser
    (next + h.statusText.length + 2) hwell.fields
    (c := { c.reset with
      state := .header
      status := h.status
      request := rs
      uri := some uri
      context := r.context
      method := .response
      requestMethod := some r.method }) rfl rfl
  refine ⟨c', ?_, hsame.client.trans hclient, hsame.request, hsame.requestMethod, hsame.uri,
    hsame.context, hend⟩
  have htake : takeLine parser c h.statusText (next + h.statusText.length + 2) =
      ({ c.reset with
        state := .header
        status := h.status
        request := rs
        uri := some uri
        context := r.context
        method := .response
        requestMethod := some r.method }, none) := by
    unfold takeLine
    rw [hstate]
    split
    · rename_i hnil
      exact absurd hnil (by simp [statusText, httpVersion, chars])
    · rw [if_pos hclient, hline]
    all_goals contradiction
  rw [lines, takeLines, htake]
  exact hfields

end Lines
end HttpConnection

/-! ## Runs -/

/-- What can happen to a connection: a request is queued, the last one gets its context, a
response comes, its body has been read.  A response is labelled with what `http_method`,
`http_path` and `http_context` return then, unless the connection is closed. -/
inductive HttpAct (C T : Type)
  | get (uri : CString)
  | delete (uri : CString)
  | send (uri : CString) (method : HttpMethod)
  | context (context : C)
  | response (head : ResponseHead) (answers : Option (Option HttpMethod × Option T × Option C))
  | body
deriving DecidableEq, Repr

section Runs
variable {C T : Type} (parser : UriParser T)
open HttpConnection

/-- What is known of the request that a response answers. -/
def HttpConnection.answers (c : HttpConnection C T) :
    Outcome → Option (Option HttpMethod × Option T × Option C)
  | .message => some (c.requestMethod, c.uri, c.context)
  | _ => none

/-- The steps. -/
inductive HttpStep : HttpConnection C T → HttpAct C T → HttpConnection C T → Prop
  | get {c : HttpConnection C T} (uri : CString) :
      HttpStep c (.get uri) (c.queueRequest .get uri)
  | delete {c : HttpConnection C T} (uri : CString) :
      HttpStep c (.delete uri) (c.queueRequest .delete uri)
  | send {c : HttpConnection C T} (uri : CString) (method : HttpMethod) :
      HttpStep c (.send uri method) (c.queueRequest method uri)
  | context {c : HttpConnection C T} (context : C) :
      HttpStep c (.context context) (c.setRequestContext context)
  | response {c c' : HttpConnection C T} {outcome : Outcome} (head : ResponseHead) :
      c.resume.state = .start → takeLines parser c.resume 0 head.lines = (c', outcome) →
      HttpStep c (.response head (c'.answers outcome)) c'
  | body {c : HttpConnection C T} : c.state = .data → HttpStep c .body { c with state := .complete }

namespace HttpAct

/-- What an act does to the requests that wait for their final response. -/
def note (w : List (QueuedRequest C)) : HttpAct C T → List (QueuedRequest C)
  | get uri => w ++ [⟨.get, uri, none⟩]
  | delete uri => w ++ [⟨.delete, uri, none⟩]
  | send uri method => w ++ [⟨method, uri, none⟩]
  | context x => attach x w
  | response head _ => if head.Interim then w else w.tail
  | body => w

/-- The requests that wait for their final response after a history, oldest first. -/
def pending (ls : List (HttpAct C T)) : List (QueuedRequest C) := ls.foldl note []

/-- What the server promises: responses are well-formed and there is a request to answer. -/
def Promised (w : List (QueuedRequest C)) : HttpAct C T → Prop
  | response head _ => w ≠ [] ∧ head.WellFormed
  | _ => True

/-- Responses are final, and the URI of the request that they answer can be parsed. -/
def Plain (w : List (QueuedRequest C)) : HttpAct C T → Prop
  | response head _ => ¬head.Interim ∧ ∀ r ∈ w.head?, (requestTarget parser r.uri).isSome
  | _ => True

/-- A final response is processed with the method, the URI and the context of its request. -/
def Paired (w : List (QueuedRequest C)) : HttpAct C T → Prop
  | response head answers => ¬head.Interim →
      answers = w.head?.map fun r => (some r.method, requestTarget parser r.uri, r.context)
  | _ => True

theorem pending_snoc {ls : List (HttpAct C T)} {act : HttpAct C T} :
    pending (ls ++ [act]) = note (pending ls) act := by
  simp [pending]

end HttpAct
open HttpAct

section Steps
variable {parser} {c c' : HttpConnection C T} {w : List (QueuedRequest C)} {act : HttpAct C T}

theorem resume_same : SameAnswer c c.resume := by
  unfold resume
  split
  · split <;> exact ⟨rfl, rfl, rfl, rfl, rfl, rfl, rfl⟩
  · exact .refl c

/-- **The step lemma.** -/
theorem HttpStep.pairs (h : HttpStep parser c act c') (hclient : c.client = true)
    (hreq : c.request = w) (hpromised : Promised w act) (hplain : Plain parser w act) :
    Paired parser w act ∧ c'.client = true ∧ c'.request = note w act := by
  subst hreq
  cases h with
  | get | delete | send | context | body => exact ⟨trivial, hclient, rfl⟩
  | @response _ outcome head hstart hres =>
    obtain ⟨hne, hwell⟩ := hpromised
    obtain ⟨hfinal, huri⟩ := hplain
    have hsame := resume_same (c := c)
    cases hq : c.request with
    | nil => exact absurd hq hne
    | cons r rs =>
      rw [hq] at huri
      obtain ⟨uri, huri⟩ := Option.isSome_iff_exists.mp (huri r rfl)
      obtain ⟨d, hlines, hd, hrequest, hmethod, htarget, hcontext, -⟩ :=
        takeLines_head parser 0 (hsame.client.trans hclient) hstart hwell
          (hsame.request.trans hq) huri
      rw [hlines] at hres
      obtain ⟨rfl, rfl⟩ := Prod.mk.inj hres
      refine ⟨fun _ => ?_, hd, ?_⟩
      · rw [answers, hmethod, htarget, hcontext, List.head?_cons, Option.map_some, huri]
      · rw [hrequest, note, if_neg hfinal, List.tail_cons]

end Steps

/-- **Requests and responses.**  In every run in which the responses are final, each is processed
with the method, the URI and the context of the request it answers, and the queue holds the
requests that have not got theirs. -/
theorem paired (ls : List (HttpAct C T)) (c : HttpConnection C T)
    (h : Run (HttpStep parser) {} ls c)
    (hpromised : ∀ past act future, ls = past ++ act :: future → Promised (pending past) act)
    (hplain : ∀ past act future, ls = past ++ act :: future → Plain parser (pending past) act) :
    c.request = pending ls ∧
      ∀ past act future, ls = past ++ act :: future → Paired parser (pending past) act := by
  have hinv : ∀ (ls : List (HttpAct C T)) (c : HttpConnection C T),
      Run (HttpStep parser) {} ls c →
      (∀ past act future, ls = past ++ act :: future → Promised (pending past) act) →
      (∀ past act future, ls = past ++ act :: future → Plain parser (pending past) act) →
      c.client = true ∧ c.request = pending ls := by
    intro ls c h
    induction h with
    | nil => exact fun _ _ => ⟨rfl, rfl⟩
    | @snoc ls t u act hrun hs ih =>
      intro hpromised hplain
      have hbefore : ∀ past i future, ls = past ++ i :: future →
          ls ++ [act] = past ++ i :: (future ++ [act]) := by
        rintro past i future rfl
        simp
      obtain ⟨hclient, hreq⟩ := ih
        (fun past i future hls => hpromised past i _ (hbefore past i future hls))
        (fun past i future hls => hplain past i _ (hbefore past i future hls))
      rw [pending_snoc]
      exact (hs.pairs hclient hreq (hpromised ls act [] rfl) (hplain ls act [] rfl)).2
  refine ⟨(hinv ls c h hpromised hplain).2, ?_⟩
  rintro past act future rfl
  obtain ⟨t, t', hpast, hs, -⟩ := h.split
  obtain ⟨hclient, hreq⟩ := hinv past t hpast
    (fun p i f hp => hpromised p i (f ++ act :: future) (by rw [hp]; simp))
    (fun p i f hp => hplain p i (f ++ act :: future) (by rw [hp]; simp))
  exact (hs.pairs hclient hreq (hpromised past act future rfl) (hplain past act future rfl)).1

end Runs

/-! ## Two requests -/

namespace HttpAct
open HttpConnection

/-- A parser of paths. -/
def pathParser : UriParser CString where
  target data := if data.head? = some 47 then some data else none
  host data := data

def headOk : ResponseHead := ⟨200, chars ['O', 'K'], []⟩

/-- Two requests and the response to the first. -/
def twoRequests : List (HttpAct ℕ CString) :=
  [.get (chars ['/', 'a']), .context 1, .delete (chars ['/', 'b']), .context 2,
    .response headOk (some (some .get, some (chars ['/', 'a']), some 1)), .body]

theorem twoRequests_paired : ∃ c, Run (HttpStep pathParser) {} twoRequests c ∧
    c.request = [⟨.delete, chars ['/', 'b'], some 2⟩] := by
  have hrun : ∃ c, Run (HttpStep pathParser) {} twoRequests c :=
    ⟨_, .cons (.get _) (.cons (.context 1) (.cons (.delete _) (.cons (.context 2)
      (.cons (.response headOk rfl rfl) (.single (.body rfl))))))⟩
  obtain ⟨c, h⟩ := hrun
  have hwell : headOk.WellFormed := ⟨by decide, by decide, by simp [headOk]⟩
  have hacts : ∀ past act future, twoRequests = past ++ act :: future →
      Promised (pending past) act ∧ Plain pathParser (pending past) act := by
    intro past act future hls
    rcases past with _ | ⟨a₁, _ | ⟨a₂, _ | ⟨a₃, _ | ⟨a₄, _ | ⟨a₅, _ | ⟨a₆, past⟩⟩⟩⟩⟩⟩ <;>
      simp only [twoRequests, List.cons_append, List.nil_append, List.cons.injEq] at hls
    · exact hls.1 ▸ ⟨trivial, trivial⟩
    · exact hls.2.1 ▸ ⟨trivial, trivial⟩
    · exact hls.2.2.1 ▸ ⟨trivial, trivial⟩
    · exact hls.2.2.2.1 ▸ ⟨trivial, trivial⟩
    · obtain ⟨rfl, rfl, rfl, rfl, rfl, -⟩ := hls
      exact ⟨⟨by decide, hwell⟩, by decide, by decide⟩
    · exact hls.2.2.2.2.2.1 ▸ ⟨trivial, trivial⟩
    · simp at hls
  refine ⟨c, h, ?_⟩
  exact (paired pathParser twoRequests c h (fun past act future hls => (hacts past act future hls).1)
    fun past act future hls => (hacts past act future hls).2).1

/-- An interim response comes first. -/
theorem not_paired :
    ¬∀ (ls : List (HttpAct ℕ CString)) (c : HttpConnection ℕ CString),
      Run (HttpStep pathParser) {} ls c →
      (∀ past act future, ls = past ++ act :: future → Promised (pending past) act) →
      ∀ past act future, ls = past ++ act :: future → Paired pathParser (pending past) act := by
  intro hclaim
  let before : List (HttpAct ℕ CString) :=
    [.get (chars ['/', 'a']), .context 1, .delete (chars ['/', 'b']), .context 2,
      .response ⟨100, [], []⟩ (some (some .get, some (chars ['/', 'a']), some 1))]
  let last : HttpAct ℕ CString :=
    .response headOk (some (some .delete, some (chars ['/', 'b']), some 2))
  have hrun : ∃ c, Run (HttpStep pathParser) {} (before ++ [last]) c :=
    ⟨_, .cons (.get _) (.cons (.context 1) (.cons (.delete _) (.cons (.context 2)
      (.cons (.response ⟨100, [], []⟩ rfl rfl) (.single (.response headOk rfl rfl))))))⟩
  obtain ⟨c, h⟩ := hrun
  have hwell : ∀ status, 100 ≤ status → status ≤ 999 → ∀ reason,
      ResponseHead.WellFormed ⟨status, reason, []⟩ :=
    fun _ hlow hhigh _ => ⟨hlow, hhigh, by simp⟩
  have hpaired := hclaim _ c h ?_ before last [] rfl
  · exact absurd (hpaired (by decide)) (by decide)
  · intro past act future hls
    rcases past with _ | ⟨a₁, _ | ⟨a₂, _ | ⟨a₃, _ | ⟨a₄, _ | ⟨a₅, _ | ⟨a₆, past⟩⟩⟩⟩⟩⟩ <;>
      simp only [before, List.cons_append, List.nil_append, List.cons.injEq] at hls
    · exact hls.1 ▸ trivial
    · exact hls.2.1 ▸ trivial
    · exact hls.2.2.1 ▸ trivial
    · exact hls.2.2.2.1 ▸ trivial
    · obtain ⟨rfl, rfl, rfl, rfl, rfl, -⟩ := hls
      exact ⟨by decide, hwell _ (by decide) (by decide) _⟩
    · obtain ⟨rfl, rfl, rfl, rfl, rfl, rfl, -⟩ := hls
      exact ⟨by decide, hwell _ (by decide) (by decide) _⟩
    · simp at hls

end HttpAct
end SeClient
