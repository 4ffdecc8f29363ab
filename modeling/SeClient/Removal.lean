import SeClient.Insertion

/-!
# Updates of the blocks that are there

`event_update` activates or removes the blocks of one event, `remove_programs` removes the
blocks of a list of programs, `delete_blocks` frees the blocks of an event.  Each is a loop
that treats one registered block after the other, and no pass changes what a later pass
finds.
-/

namespace SeClient
open Transition

namespace Core
variable (c : Core)

/-- What `remove_block` does to the queues and to the pending events. -/
def unqueueActs (s : ScheduleId) (eb : BlockId) : List Act :=
  match (c.block eb).status with
  | .scheduled => [.take s .scheduled eb]
  | .active => [.take s .active eb, .discard eb (c.pending eb)]
  | .activeWait => [.take s .active eb]
  | .scheduleSuperseded => [.take s .superseded eb]
  | _ => []

/-- A block is removed and gets a terminal status. -/
def dismissActs (s : ScheduleId) (eb : BlockId) (status : EventStatus)
    (posted : List Response) : List Act :=
  c.unqueueActs s eb ++ [.touch (c.ended s eb status posted)]

/-- The Responses of `remove_blocks`. -/
def removalPosted (event : StubId) (s : ScheduleId) (eb : BlockId) (response : ResponseType) :
    List Response :=
  if (c.block eb).status ≠ c.eventStatus event then
    c.posted (c.schedule s).device event response
  else []

/-- The Responses of `remove_programs`. -/
def abortPosted (s : ScheduleId) (eb : BlockId) : List Response :=
  if (c.block eb).status = .active then
    c.posted (c.schedule s).device (c.block eb).event .eventAbortedProgram
  else []

/-- What a loop over the Schedules of an event does, by what it does with one block. -/
def blockActs (event : StubId) (acts : ScheduleId → BlockId → List Act) : List Act :=
  (c.stub event).schedules.flatMap fun s =>
    match c.getBlock s event with
    | some eb => acts s eb
    | none => []

/-- What `activate_blocks` does. -/
def activateBlocksActs (event : StubId) : List Act :=
  c.blockActs event fun s eb =>
    if (c.block eb).status = .activeWait then c.activateActs s eb else []

/-- What `remove_blocks` does. -/
def removeBlocksActs (event : StubId) (response : ResponseType) : List Act :=
  c.blockActs event fun s eb =>
    c.dismissActs s eb (c.eventStatus event) (c.removalPosted event s eb response)

/-- What `remove_programs` does. -/
def removeProgramsActs (s : ScheduleId) (derpl : List StubId) : List Act :=
  if derpl = [] then []
  else (c.schedule s).blocks.flatMap fun eb =>
    if (c.block eb).program.any (· ∈ derpl) then c.dismissActs s eb .aborted (c.abortPosted s eb)
    else []

/-- What `delete_blocks` does. -/
def deleteBlocksActs (event : StubId) : List Act :=
  (c.blockActs event fun s eb => [.delete s eb (c.block eb).status]) ++ [.quiet]

variable {c}

theorem findBlock_spec {s : ScheduleId} {key : Nat} {eb : BlockId}
    (h : c.findBlock s key = some eb) : eb ∈ (c.schedule s).blocks ∧ c.mridKey eb = key :=
  ⟨List.mem_of_find?_eq_some h, by simpa using List.find?_some h⟩

theorem findBlock_congr {c' : Core} {s : ScheduleId} (key : Nat)
    (hblocks : (c'.schedule s).blocks = (c.schedule s).blocks)
    (hkey : ∀ b ∈ (c.schedule s).blocks, c'.mridKey b = c.mridKey b) :
    c'.findBlock s key = c.findBlock s key := by
  unfold findBlock
  rw [hblocks, ← List.head?_filter, ← List.head?_filter,
    List.filter_congr fun b hb => by rw [hkey b hb]]

theorem Ambient.mridKey {c' : Core} (h : c.Ambient c') {b : BlockId}
    (hevent : (c'.block b).event = (c.block b).event) : c'.mridKey b = c.mridKey b := by
  unfold Core.mridKey
  rw [hevent, h.mRID]

end Core

/-! ## One block -/

namespace Plan
variable {q : Board} {c : Core} {eb : BlockId}

/-- A block whose status is not that of a queue is not in the queue. -/
theorem Sound.loose_of_status (h : Sound ⟨q, c⟩) (hsched : (c.block eb).status ≠ .scheduled)
    (hsup : (c.block eb).status ≠ .scheduleSuperseded) (s' : ScheduleId) :
    eb ∉ q s' .scheduled ∧ eb ∉ q s' .superseded :=
  ⟨fun hb => hsched (h.fits hb), fun hb => hsup (h.fits hb)⟩

end Plan

namespace World
variable {w w₁ w' : World} {q : Board} {s : ScheduleId} {eb : BlockId} {event : StubId}
  {fuel : Nat} {derpl : List StubId}

/-- Taking a block out of the queue of its status leaves it in none of the queues whose
blocks have a fixed status. -/
private theorem out_of_take {n : QueueName} (hr : w.links.Represents q)
    (hs : Plan.Sound ⟨q, w.core⟩) (hhome : eb ∈ (w.core.schedule s).blocks)
    (hfits : n = .scheduled ∧ (w.core.block eb).status = .scheduled ∨
      n = .superseded ∧ (w.core.block eb).status = .scheduleSuperseded) (s' : ScheduleId) :
    eb ∉ (q.set s n ((q s n).erase eb)) s' .scheduled ∧
      eb ∉ (q.set s n ((q s n).erase eb)) s' .superseded := by
  have hgone : eb ∉ (q s n).erase eb := fun h => ((hr.nodup s n).mem_erase_iff.mp h).1 rfl
  have hsame : ∀ n', eb ∈ q s' n' → s' = s := fun n' hb => hs.once (hs.home hb) hhome
  constructor <;> intro hb <;> rcases (Board.mem_set _).mp hb with ⟨_, _, hb'⟩ | ⟨hne, hb'⟩
  · exact hgone hb'
  · rcases hfits with ⟨rfl, _⟩ | ⟨rfl, hst⟩
    · exact hne ⟨hsame _ hb', rfl⟩
    · have := hs.fits hb'
      simp only [QueueName.fits, hst] at this
      cases this
  · exact hgone hb'
  · rcases hfits with ⟨rfl, hst⟩ | ⟨rfl, _⟩
    · have := hs.fits hb'
      simp only [QueueName.fits, hst] at this
      cases this
    · exact hne ⟨hsame _ hb', rfl⟩

/-- **`remove_block`**, together with the status and the Responses that every caller
writes next. -/
theorem removeBlock_run (hr : w.links.Represents q) (hs : Plan.Sound ⟨q, w.core⟩)
    (hhome : eb ∈ (w.core.schedule s).blocks) (hres : w.removeBlock fuel s eb = some w₁)
    (status : EventStatus) {posted : List Response}
    (hposted : ∀ r ∈ posted, r.device = (w.core.schedule s).device ∧
      (w.core.data r.event).mRID = w.core.mridKey eb) :
    ∃ q', w₁.links.Represents q' ∧
      Run Plan.Change ⟨q, w.core⟩ (w.core.dismissActs s eb status posted)
        ⟨q', Core.modifyBlock { w₁.core with responses := w₁.core.responses ++ posted } eb
          fun b => { b with status := status }⟩ ∧
      (w₁.core.block eb).status = (w.core.block eb).status ∧
      (w₁.core.block eb).event = (w.core.block eb).event ∧
      w₁.core.schedule = w.core.schedule ∧ w₁.core.data = w.core.data := by
  have htouch : ∀ {q' : Board} {c : Core}, c.block = w.core.block → c.schedule = w.core.schedule →
      c.data = w.core.data → (∀ s', eb ∉ q' s' .scheduled ∧ eb ∉ q' s' .superseded) →
      Plan.Change ⟨q', c⟩ (.touch (w.core.ended s eb status posted))
        ⟨q', c.touch (w.core.ended s eb status posted)⟩ := by
    intro q' c hblock hsched hdata hout
    refine Plan.Change.touch (by rw [hblock]; rfl) (by rw [hsched]; exact hhome) ?_ (Or.inr hout)
    unfold Core.mridKey
    rw [hblock, hsched, hdata]
    exact hposted
  have hout : (w.core.block eb).status ≠ .scheduled → (w.core.block eb).status ≠
      .scheduleSuperseded → ∀ n s', eb ∉ (q.set s n ((q s n).erase eb)) s' .scheduled ∧
        eb ∉ (q.set s n ((q s n).erase eb)) s' .superseded := by
    intro h₁ h₂ n s'
    have hq := hs.loose_of_status h₁ h₂
    constructor <;> intro hb <;> rcases (Board.mem_set _).mp hb with ⟨rfl, rfl, hb'⟩ | ⟨_, hb'⟩
    · exact (hq s').1 (List.mem_of_mem_erase hb')
    · exact (hq s').1 hb'
    · exact (hq s').2 (List.mem_of_mem_erase hb')
    · exact (hq s').2 hb'
  have hquiet : ∀ (hst : (w.core.block eb).status ≠ .active),
      Core.modifyBlock { w.core with responses := w.core.responses ++ posted } eb
        (fun b => { b with status := status }) = w.core.touch (w.core.ended s eb status posted) := by
    intro hst
    rw [← Core.blockUpdate_eq]
    simp [Core.blockUpdate, hst]
  unfold removeBlock at hres
  split at hres
  · rename_i hst
    obtain ⟨l, hrem, rfl⟩ := Option.map_eq_some_iff.mp hres
    have hne : (w.core.block eb).status ≠ .active := by rw [hst]; decide
    unfold Core.dismissActs Core.unqueueActs
    rw [hst, hquiet hne]
    exact ⟨_, hr.listRemove hrem, Run.cons Plan.Change.take (Run.single
      (htouch rfl rfl rfl (out_of_take hr hs hhome (Or.inl ⟨rfl, hst⟩)))), rfl, rfl, rfl, rfl⟩
  · rename_i hst
    obtain ⟨l, hrem, rfl⟩ := Option.map_eq_some_iff.mp hres
    have hfinal : (w.core.removeEvent (.block eb)).touch (w.core.ended s eb status posted) =
        Core.modifyBlock { (Core.insertEvent (Core.removeEvent (w.core.modifyBlock eb
          fun b => { b with stop := w.core.seTime }) (.block eb)) (.block eb) .eventEnd 0) with
            responses := w.core.responses ++ posted } eb (fun b => { b with status := status }) := by
      simp [Core.touch, Core.ended, Core.starts, hst, Core.modifyBlock, Core.insertEvent,
        Core.removeEvent]
    unfold Core.dismissActs Core.unqueueActs
    rw [hst]
    refine ⟨_, hr.listRemove hrem, ?_, ?_, ?_, rfl, rfl⟩
    · refine Run.cons Plan.Change.take (Run.cons Plan.Change.discard (Run.single ?_))
      have := @htouch (q.set s .active ((q s .active).erase eb)) (w.core.removeEvent (.block eb))
        rfl rfl rfl (hout (by rw [hst]; decide) (by rw [hst]; decide) _)
      rw [hfinal] at this
      exact this
    · simp [Core.insertEvent, Core.removeEvent, hst]
    · simp [Core.insertEvent, Core.removeEvent]
  · rename_i hst
    obtain ⟨l, hrem, rfl⟩ := Option.map_eq_some_iff.mp hres
    have hne : (w.core.block eb).status ≠ .active := by rw [hst]; decide
    unfold Core.dismissActs Core.unqueueActs
    rw [hquiet hne, hst]
    exact ⟨_, hr.listRemove hrem, Run.cons Plan.Change.take (Run.single
      (htouch rfl rfl rfl (hout (by rw [hst]; decide) (by rw [hst]; decide) _))), rfl, rfl, rfl, rfl⟩
  · rename_i hst
    obtain ⟨l, hrem, rfl⟩ := Option.map_eq_some_iff.mp hres
    have hne : (w.core.block eb).status ≠ .active := by rw [hst]; decide
    unfold Core.dismissActs Core.unqueueActs
    rw [hst, hquiet hne]
    exact ⟨_, hr.listRemove hrem, Run.cons Plan.Change.take (Run.single
      (htouch rfl rfl rfl (out_of_take hr hs hhome (Or.inr ⟨rfl, hst⟩)))), rfl, rfl, rfl, rfl⟩
  · rename_i h₁ h₂ h₃ h₄
    obtain rfl := Option.some.inj hres
    rw [hquiet h₂]
    unfold Core.dismissActs Core.unqueueActs
    refine ⟨q, hr, ?_, rfl, rfl, rfl, rfl⟩
    split <;> try contradiction
    exact Run.single (htouch rfl rfl rfl (hs.loose_of_status h₁ h₄))

end World

/-! ## The loops -/

/-- In the middle of a loop that changes one block after the other: the blocks `bs` are
still to come, and the memory has for them what the description of the loop was read off. -/
structure Plan.Midway (c₀ : Core) (bs : List BlockId) (p : Plan) : Prop where
  sound : p.Sound
  nodup : bs.Nodup
  ambient : c₀.Ambient p.core
  blocks : ∀ s, (p.core.schedule s).blocks = (c₀.schedule s).blocks
  device : ∀ s, (p.core.schedule s).device = (c₀.schedule s).device
  event : ∀ b, (p.core.block b).event = (c₀.block b).event
  keeps : ∀ b ∈ bs, c₀.Keeps p.core b

namespace Plan.Midway
variable {c₀ : Core} {bs : List BlockId} {p p' : Plan} {eb : BlockId} {s : ScheduleId}
  {acts : List Act} {event : StubId}

theorem start (h : p.Sound) (hnd : bs.Nodup) : Midway p.core bs p :=
  ⟨h, hnd, Core.Ambient.refl _, fun _ => rfl, fun _ => rfl, fun _ => rfl,
    fun b _ => Core.Keeps.refl _ b⟩

theorem stamped (h : Midway c₀ (eb :: bs) p) : c₀.Stamped p.core s [eb] :=
  ⟨fun b hb => h.keeps b (by simp at hb; simp [hb]), h.ambient, h.device s, h.blocks⟩

theorem findBlock (h : Midway c₀ bs p) (s : ScheduleId) (key : Nat) :
    p.core.findBlock s key = c₀.findBlock s key :=
  Core.findBlock_congr key (h.blocks s) fun b _ => h.ambient.mridKey (h.event b)

theorem getBlock (h : Midway c₀ bs p) (s : ScheduleId) (event : StubId) :
    p.core.getBlock s event = c₀.getBlock s event := by
  unfold Core.getBlock
  rw [h.ambient.mRID, h.findBlock]

theorem skip (h : Midway c₀ (eb :: bs) p) : Midway c₀ bs p :=
  ⟨h.sound, (List.nodup_cons.mp h.nodup).2, h.ambient, h.blocks, h.device, h.event,
    fun b hb => h.keeps b (List.mem_cons_of_mem _ hb)⟩

/-- A pass of the loop changes its own block only. -/
theorem step (h : Midway c₀ (eb :: bs) p) (hr : Run Plan.Change p acts p')
    (hacts : ∀ a ∈ acts, a.Only eb) : Midway c₀ bs p' := by
  obtain ⟨hblocks, hdevice, hevent⟩ := Plan.run_plain hr fun a ha => (hacts a ha).1
  obtain ⟨heb, hnd⟩ := List.nodup_cons.mp h.nodup
  exact ⟨Plan.run_sound hr h.sound, hnd, h.ambient.trans (Plan.run_ambient hr),
    fun s => (hblocks s).trans (h.blocks s), fun s => (hdevice s).trans (h.device s),
    fun b => (hevent b).trans (h.event b),
    fun b hb => (h.keeps b (by simp [hb])).trans (Plan.run_only hr hacts fun he => heb (he ▸ hb))⟩

end Plan.Midway

namespace Core
variable {c : Core} {s : ScheduleId} {eb : BlockId}

theorem activateActs_only {a : Act} (ha : a ∈ c.activateActs s eb) : a.Only eb := by
  unfold activateActs at ha
  split at ha
  · rcases List.mem_cons.mp ha with rfl | ha
    · exact ⟨trivial, fun b hb => (Option.some.inj hb).symm⟩
    · rw [List.mem_singleton.mp ha]; exact ⟨trivial, fun b hb => by cases hb⟩
  · rw [List.mem_singleton.mp ha]; exact ⟨trivial, fun b hb => by cases hb⟩

theorem Stamped.dismissActs {c₀ : Core} (h : c₀.Stamped c s [eb]) (status : EventStatus)
    (posted : List Response) :
    c.dismissActs s eb status posted = c₀.dismissActs s eb status posted := by
  obtain ⟨_, hst, hs, hp, hpend⟩ := h.keeps eb (by simp)
  unfold Core.dismissActs Core.unqueueActs Core.ended
  rw [hst, hs, hp, hpend, h.ambient.seTime]

theorem dismissActs_only {status : EventStatus} {posted : List Response} {a : Act}
    (ha : a ∈ c.dismissActs s eb status posted) : a.Only eb := by
  rcases List.mem_append.mp ha with ha | ha
  · unfold unqueueActs at ha
    split at ha <;> simp at ha <;> rcases ha with rfl | rfl <;>
      exact ⟨trivial, fun b hb => by cases hb; try rfl⟩
  · rw [List.mem_singleton.mp ha]
    exact ⟨trivial, fun b hb => (Option.some.inj hb).symm⟩

/-- The blocks of an event in its Schedules. -/
def blocksOf (c : Core) (event : StubId) (ss : List ScheduleId) : List BlockId :=
  ss.filterMap fun s => c.getBlock s event

theorem mem_blocksOf {event : StubId} {ss : List ScheduleId} :
    eb ∈ c.blocksOf event ss ↔ ∃ s ∈ ss, c.getBlock s event = some eb := by
  simp [blocksOf]

end Core

theorem Plan.Sound.nodup_blocksOf {p : Plan} (h : p.Sound) (event : StubId)
    {ss : List ScheduleId} (hnd : ss.Nodup) : (p.core.blocksOf event ss).Nodup := by
  induction ss with
  | nil => exact List.nodup_nil
  | cons s ss ih =>
    obtain ⟨hs, hnd⟩ := List.nodup_cons.mp hnd
    unfold Core.blocksOf
    rw [List.filterMap_cons]
    split
    · exact ih hnd
    · rename_i eb heb
      refine List.nodup_cons.mpr ⟨fun hmem => ?_, ih hnd⟩
      obtain ⟨s', hs', heb'⟩ := Core.mem_blocksOf.mp hmem
      have := h.once (Core.findBlock_spec heb).1 (Core.findBlock_spec heb').1
      exact hs (this ▸ hs')

namespace World
variable {w w' : World} {q : Board} {s : ScheduleId} {event : StubId} {fuel : Nat}
  {derpl : List StubId}

/-- **A loop over the Schedules of an event.** -/
theorem blockLoop_run {f : World → ScheduleId → Option World}
    {acts : ScheduleId → BlockId → List Act} (hr : w.links.Represents q)
    (hs : Plan.Sound ⟨q, w.core⟩)
    (hpass : ∀ s eb bs (w₁ w₂ : World) q₁, w₁.links.Represents q₁ →
      Plan.Midway w.core (eb :: bs) ⟨q₁, w₁.core⟩ → w.core.getBlock s event = some eb →
      f w₁ s = some w₂ → ∃ q₂, w₂.links.Represents q₂ ∧
        Run Plan.Change ⟨q₁, w₁.core⟩ (acts s eb) ⟨q₂, w₂.core⟩ ∧ ∀ a ∈ acts s eb, a.Only eb)
    (hnone : ∀ s bs (w₁ w₂ : World) q₁, Plan.Midway w.core bs ⟨q₁, w₁.core⟩ →
      w.core.getBlock s event = none → f w₁ s = some w₂ → w₂ = w₁)
    (hres : (w.core.stub event).schedules.foldlM f w = some w') :
    ∃ q', w'.links.Represents q' ∧
      Run Plan.Change ⟨q, w.core⟩ (w.core.blockActs event acts) ⟨q', w'.core⟩ := by
  have h := Run.foldlM (T := Plan.Change) (f := f) (s := ⟨q, w.core⟩)
    (A := fun s => match w.core.getBlock s event with
      | some eb => acts s eb
      | none => [])
    (R := fun ss w₁ p => p.core = w₁.core ∧ w₁.links.Represents p.queue ∧
      Plan.Midway w.core (w.core.blocksOf event ss) p) ?_ hres
    ⟨rfl, hr, Plan.Midway.start hs (hs.nodup_blocksOf event (hs.lists event))⟩
  · obtain ⟨⟨q', c'⟩, ⟨rfl, hrep, _⟩, hrun⟩ := h
    exact ⟨q', hrep, hrun⟩
  · rintro s ss w₁ w₂ ⟨q₁, c₁⟩ ⟨hcore, hrep, hmid⟩ hf
    dsimp only at hcore hrep
    subst hcore
    unfold Core.blocksOf at hmid
    rw [List.filterMap_cons] at hmid
    cases hget : w.core.getBlock s event with
    | none =>
      rw [hget] at hmid
      obtain rfl := hnone s _ w₁ w₂ q₁ hmid hget hf
      exact ⟨⟨q₁, w₂.core⟩, ⟨rfl, hrep, hmid⟩, Run.nil⟩
    | some eb =>
      rw [hget] at hmid
      obtain ⟨q₂, hrep₂, hrun, honly⟩ := hpass s eb _ w₁ w₂ q₁ hrep hmid hget hf
      exact ⟨⟨q₂, w₂.core⟩, ⟨rfl, hrep₂, hmid.step hrun honly⟩, hrun⟩

/-- **`remove_blocks`.** -/
theorem removeBlocks_run {response : ResponseType} (hr : w.links.Represents q)
    (hs : Plan.Sound ⟨q, w.core⟩) (hres : w.removeBlocks fuel event response = some w') :
    ∃ q', w'.links.Represents q' ∧ Run Plan.Change ⟨q, w.core⟩
      (w.core.removeBlocksActs event response) ⟨q', w'.core⟩ := by
  refine blockLoop_run hr hs ?_ ?_ hres
  · intro s eb bs w₁ w₂ q₁ hrep hmid hget hf
    have hhome : eb ∈ (w₁.core.schedule s).blocks := by
      rw [hmid.blocks]; exact (Core.findBlock_spec hget).1
    rw [hmid.getBlock, hget, Option.bind_eq_bind, Option.bind_some] at hf
    obtain ⟨w₃, hrem, hf⟩ := Option.bind_eq_some_iff.mp hf
    have hst := hmid.stamped (s := s)
    have hposted : ∀ r ∈ w.core.removalPosted event s eb response,
        r.device = (w₁.core.schedule s).device ∧
          (w₁.core.data r.event).mRID = w₁.core.mridKey eb := by
      intro r hmem
      unfold Core.removalPosted at hmem
      split at hmem
      · rw [Core.posted_spec _ hmem, hmid.device, hmid.ambient.mRID,
          hmid.ambient.mridKey (hmid.event eb), (Core.findBlock_spec hget).2]
        exact ⟨rfl, rfl⟩
      · cases hmem
    obtain ⟨q₂, hrep₂, hrun, hstatus, _, hsched, hdata⟩ :=
      removeBlock_run hrep hmid.sound hhome hrem (w.core.eventStatus event) hposted
    refine ⟨q₂, ?_, ?_, fun a ha => Core.dismissActs_only ha⟩
    · rw [← Option.some.inj hf]; exact hrep₂
    · have hdevice : (w₃.core.schedule s).device = (w.core.schedule s).device := by
        rw [hsched, hmid.device]
      have hresp : (if (w₃.core.block eb).status ≠ w.core.eventStatus event then
          w₃.core.deviceResponse (w₃.core.schedule s).device event response else w₃.core) =
          { w₃.core with
            responses := w₃.core.responses ++ w.core.removalPosted event s eb response } := by
        unfold Core.removalPosted
        rw [hstatus, (hmid.keeps eb (by simp)).status, Core.deviceResponse_eq, hdevice]
        split
        · rw [← hmid.ambient.posted, Core.posted_congr (congrFun hdata event)]
        · rw [List.append_nil]
      rw [← Option.some.inj hf, ← hmid.stamped.dismissActs]
      dsimp only
      rw [hresp]
      exact hrun
  · intro s bs w₁ w₂ q₁ hmid hget hf
    rw [hmid.getBlock, hget] at hf
    cases hf

/-- **`activate_blocks`.** -/
theorem activateBlocks_run {c' : Core} (hr : w.links.Represents q)
    (hs : Plan.Sound ⟨q, w.core⟩) (hres : w.core.activateBlocks event = some c') :
    ∃ q', w.links.Represents q' ∧
      Run Plan.Change ⟨q, w.core⟩ (w.core.activateBlocksActs event) ⟨q', c'⟩ := by
  have hloop := foldlM_map (World.mk w.links)
    (g := fun w₁ s => (w₁.core.getBlock s event).map fun eb => World.mk w₁.links
      (if (w₁.core.block eb).status = .activeWait then w₁.core.activateBlock s eb else w₁.core))
    (fun c s => by rw [Option.map_map]; rfl) hres
  refine blockLoop_run hr hs ?_ ?_ hloop
  · intro s eb bs w₁ w₂ q₁ hrep hmid hget hf
    have hhome : eb ∈ (w₁.core.schedule s).blocks := by
      rw [hmid.blocks]; exact (Core.findBlock_spec hget).1
    have hst := (hmid.keeps eb (by simp)).status
    rw [hmid.getBlock, hget, Option.map_some] at hf
    rw [← Option.some.inj hf]
    dsimp only at hst ⊢
    rw [hst]
    refine ⟨q₁, hrep, ?_, fun a ha => ?_⟩
    · split
      · rename_i hwait
        refine activateBlock_run hhome hmid.stamped (hmid.sound.loose_of_status ?_ ?_) <;>
          rw [hst, hwait] <;> decide
      · exact Run.nil
    · split at ha
      · exact Core.activateActs_only ha
      · cases ha
  · intro s bs w₁ w₂ q₁ hmid hget hf
    rw [hmid.getBlock, hget] at hf
    cases hf

theorem removeBlock_program {w₁ : World} {eb : BlockId}
    (h : w.removeBlock fuel s eb = some w₁) (b : BlockId) :
    (w₁.core.block b).program = (w.core.block b).program := by
  unfold removeBlock at h
  split at h
  all_goals
    first
    | obtain ⟨l, _, rfl⟩ := Option.map_eq_some_iff.mp h
    | obtain rfl := Option.some.inj h
    try rfl
  simp only [Core.insertEvent, Core.removeEvent, if_pos, Core.modifyBlock_block]
  split
  · rename_i hb; rw [hb]
  · rfl

/-- **`remove_programs`.** -/
theorem removePrograms_run (hr : w.links.Represents q) (hs : Plan.Sound ⟨q, w.core⟩)
    (hres : w.removePrograms fuel s derpl = some w') :
    ∃ q', w'.links.Represents q' ∧ Run Plan.Change ⟨q, w.core⟩
      (w.core.removeProgramsActs s derpl) ⟨q', w'.core⟩ := by
  unfold removePrograms at hres
  unfold Core.removeProgramsActs
  by_cases hnil : derpl = []
  · rw [if_pos hnil] at hres ⊢
    obtain rfl := Option.some.inj hres
    exact ⟨q, hr, Run.nil⟩
  rw [if_neg hnil] at hres ⊢
  have h := Run.foldlM (T := Plan.Change) (s := ⟨q, w.core⟩)
    (A := fun eb => if (w.core.block eb).program.any (· ∈ derpl) then
      w.core.dismissActs s eb .aborted (w.core.abortPosted s eb) else [])
    (R := fun bs w₁ p => p.core = w₁.core ∧ w₁.links.Represents p.queue ∧
      Plan.Midway w.core bs p ∧ (∀ b ∈ bs, b ∈ (w.core.schedule s).blocks) ∧
      ∀ b, (w₁.core.block b).program = (w.core.block b).program) ?_ hres
    ⟨rfl, hr, Plan.Midway.start hs (hs.nodup s), fun _ hb => hb, fun _ => rfl⟩
  · obtain ⟨⟨q', c'⟩, ⟨rfl, hrep, _⟩, hrun⟩ := h
    exact ⟨q', hrep, hrun⟩
  · rintro eb bs w₁ w₂ ⟨q₁, c₁⟩ ⟨hcore, hrep, hmid, hsub, hprog⟩ hf
    dsimp only at hcore hrep
    subst hcore
    rw [hprog] at hf
    have hsub' : ∀ b ∈ bs, b ∈ (w.core.schedule s).blocks :=
      fun b hb => hsub b (List.mem_cons_of_mem _ hb)
    split at hf
    · rename_i hany
      rw [if_pos hany]
      have hhome : eb ∈ (w₁.core.schedule s).blocks := by rw [hmid.blocks]; exact hsub eb (by simp)
      obtain ⟨w₃, hrem, hf⟩ := Option.bind_eq_some_iff.mp hf
      have heb := hmid.keeps eb (by simp)
      have hposted : ∀ r ∈ w.core.abortPosted s eb, r.device = (w₁.core.schedule s).device ∧
          (w₁.core.data r.event).mRID = w₁.core.mridKey eb := by
        intro r hmem
        unfold Core.abortPosted at hmem
        split at hmem
        · rw [Core.posted_spec _ hmem, hmid.device]
          unfold Core.mridKey
          rw [heb.event]
          exact ⟨rfl, rfl⟩
        · cases hmem
      obtain ⟨q₂, hrep₂, hrun, hstatus, hevent, hsched, hdata⟩ :=
        removeBlock_run hrep hmid.sound hhome hrem .aborted hposted
      have honly : ∀ a ∈ w₁.core.dismissActs s eb .aborted (w.core.abortPosted s eb), a.Only eb :=
        fun a ha => Core.dismissActs_only ha
      have hresp : (if (w₃.core.block eb).status = .active then
          w₃.core.deviceResponse (w₃.core.schedule s).device (w₃.core.block eb).event
            .eventAbortedProgram else w₃.core) =
          { w₃.core with responses := w₃.core.responses ++ w.core.abortPosted s eb } := by
        have hdevice : (w₃.core.schedule s).device = (w.core.schedule s).device := by
          rw [hsched, hmid.device]
        unfold Core.abortPosted
        rw [hstatus, heb.status, Core.deviceResponse_eq, hdevice, hevent, heb.event]
        split
        · rw [← hmid.ambient.posted, Core.posted_congr (congrFun hdata _)]
        · rw [List.append_nil]
      have hmid₂ := hmid.step hrun honly
      rw [hmid.stamped.dismissActs] at hrun
      dsimp only at hf
      rw [hresp] at hf
      refine ⟨⟨q₂, w₂.core⟩, ⟨rfl, ?_, ?_, hsub', fun b => ?_⟩, ?_⟩
      · rw [← Option.some.inj hf]; exact hrep₂
      · rw [← Option.some.inj hf]; exact hmid₂
      · rw [← hprog b, ← removeBlock_program hrem b, ← Option.some.inj hf]
        dsimp only
        rw [Core.modifyBlock_block]
        split
        · rename_i hb; rw [hb]
        · rfl
      · rw [← Option.some.inj hf]; exact hrun
    · rename_i hany
      rw [if_neg hany]
      obtain rfl := Option.some.inj hf
      exact ⟨⟨q₁, w₁.core⟩, ⟨rfl, hrep, hmid.skip, hsub', hprog⟩, Run.nil⟩

/-- **`delete_blocks`**, of blocks in no queue. -/
theorem deleteBlocks_run (hs : Plan.Sound ⟨q, w.core⟩)
    (hloose : ∀ s ∈ (w.core.stub event).schedules, ∀ eb,
      w.core.getBlock s event = some eb → q.Loose eb) :
    Run Plan.Change ⟨q, w.core⟩ (w.core.deleteBlocksActs event)
      ⟨q, w.core.deleteBlocks event⟩ := by
  have hloop : ∀ (ss : List ScheduleId) (c : Core), ss.Nodup → c.block = w.core.block →
      c.data = w.core.data → (∀ s ∈ ss, c.schedule s = w.core.schedule s) →
      (∀ s ∈ ss, ∀ eb, w.core.getBlock s event = some eb → q.Loose eb) →
      Run Plan.Change ⟨q, c⟩ (ss.flatMap fun s => match w.core.getBlock s event with
        | some eb => [Act.delete s eb (w.core.block eb).status]
        | none => [])
      ⟨q, ss.foldl (fun c s => match c.findBlock s (w.core.data event).mRID with
        | some eb => c.strike s eb
        | none => c) c⟩ := by
    intro ss
    induction ss with
    | nil => exact fun c _ _ _ _ _ => Run.nil
    | cons s ss ih =>
      intro c hnd hblock hdata hsched hl
      obtain ⟨hs', hnd⟩ := List.nodup_cons.mp hnd
      have hfind : c.findBlock s (w.core.data event).mRID = w.core.getBlock s event := by
        refine Core.findBlock_congr _ (by rw [hsched s (by simp)]) fun b _ => ?_
        unfold Core.mridKey
        rw [hblock, hdata]
      rw [List.flatMap_cons, List.foldl_cons, hfind]
      have htail : ∀ s₁ ∈ ss, ∀ eb, w.core.getBlock s₁ event = some eb → q.Loose eb :=
        fun s₁ h₁ => hl s₁ (List.mem_cons_of_mem _ h₁)
      cases hget : w.core.getBlock s event with
      | none =>
        exact ih c hnd hblock hdata (fun s₁ h₁ => hsched s₁ (List.mem_cons_of_mem _ h₁)) htail
      | some eb =>
        have hhome : eb ∈ (c.schedule s).blocks := by
          rw [hsched s (by simp)]; exact (Core.findBlock_spec hget).1
        have hdelete := Plan.Change.delete (hl s (by simp) eb hget) hhome
        rw [hblock] at hdelete
        refine Run.cons hdelete ?_
        refine ih (c.strike s eb) hnd hblock hdata (fun s₁ h₁ => ?_) htail
        have hne : s₁ ≠ s := fun he => hs' (he ▸ h₁)
        rw [← hsched s₁ (List.mem_cons_of_mem _ h₁)]
        exact Core.modifySchedule_of_ne _ _ hne
  have hrun := hloop _ w.core (hs.lists event) rfl rfl (fun _ _ => rfl) hloose
  refine hrun.trans (Run.single (Plan.Change.quiet ?_))
  exact Quiet.modifyStub (g := fun t => { t with schedules := [] }) rfl fun _ => List.nodup_nil

end World
end SeClient
