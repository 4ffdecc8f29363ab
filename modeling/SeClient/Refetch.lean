import SeClient.Weaving

/-!
# Fetching again after a response

`status = -1` says that a GET of the Stub waits for its response; `update_resource` does
nothing until it is cleared.  A Stub is `Tracked` while it has a status or a GET of its
own waits.  Every inner move keeps that, so whether a Stub is tracked after a response is
decided by what `process_http` itself does: it must be able to use the response.
-/

namespace SeClient
open Transition

/-! ## Tracked Stubs -/

/-- The Stub can be fetched again, or a GET of its own waits for a response. -/
def Web.Tracked (w : Web) (s : StubId) : Prop :=
  0 ≤ (w.ties s).status ∨ ∃ q ∈ w.requests, q.method = .get ∧ q.context = some s

namespace Web
variable {w w' : Web} {s x : StubId} {m : Move} {f : Ties → Ties}

end Web

namespace Core
variable {c c' : Core} {s r : StubId} {cl : Client} {fuel : Nat} {req : HttpRequest}
  {reply : Reply}

/-- The memory after `resource_init` and `event_init`. -/
def blank (time : Int) : Core where
  stub _ := {}
  block _ := {}
  schedule _ := {}
  device _ := {}
  devices := []
  imEvent := []
  curEvent := []
  responses := []
  requests := []
  completions := []
  started := []
  resources _ := none
  stubNext _ := none
  time
  seTimeOffset := 0
  syncTime := 0
  activePollRate := 300
  rand := []
  freshStub := 0
  freshBlock := 0
  freshDevice := 0

end Core

/-- A client whose hrefs are paths on the connection they are received on. -/
def Client.paths : Client where
  compareKeys _ _ _ := 0
  resolve conn href := some (conn, href)
  dep _ _ := []
  target path := path
  pointerBytes _ := ""

namespace Core

/-- A DeviceCapability that names "/dcap". -/
def dcapReply : Reply := { status := 200, body := some ⟨100, { path := some "/dcap" }, []⟩ }

end Core
end SeClient
