import SeClient.Updating

/-!
# The schedule of a device

`schedule_der` finds or makes the DerDevice of an EndDevice, removes the programs that are gone,
clears the queues, and hands every control of every program to `schedule_event`.
-/

namespace SeClient
open Transition

namespace World

/-- The block is in no queue. -/
def Loose (w : World) (b : BlockId) : Prop := ∀ s n, b ∉ w.queue s n

end World

/-- A call `schedule_event (sched, event, primacy)`. -/
structure EventCall where
  world : World
  sched : ScheduleId
  event : StubId
  primacy : Nat

namespace EventCall
variable (x : EventCall)

/-- A block that is known already and not done with is in no queue. -/
def Tidy : Prop :=
  ∀ eb, x.world.core.getBlock x.sched x.event = some eb →
    (x.world.core.block eb).status.terminal = false → x.world.Loose eb

/-- What a call does on a board `q`. -/
inductive Acts (q : Board) : List Act → Prop
  | known {eb : BlockId} : x.world.core.getBlock x.sched x.event = some eb →
      ((x.world.core.block eb).status.terminal = false → q.Loose eb) →
      Acts q (.quiet :: if (x.world.core.block eb).status.terminal then []
        else (x.world.core.withPrimacy eb x.primacy).placeActs q x.sched x.event eb)
  | new {eb : BlockId} {c : Core} {expired : Bool} :
      x.world.core.getBlock x.sched x.event = none →
      x.world.core.registerEvent x.sched x.event x.primacy = some (c, eb, expired) →
      (r : Core.Registration x.world.core q x.sched x.event eb expired c) →
      Acts q (Core.registerActs x.sched eb x.event r.notice expired r.responses ++
        if expired then [] else c.placeActs q x.sched x.event eb)

end EventCall

namespace Plan

/-- A call of `schedule_event`, after which `schedule_der` notes the program of the block. -/
structure Admission (p : Plan) (x : EventCall) (p' : Plan) : Prop where
  core : p.core = x.world.core
  rep : x.world.links.Represents p.queue
  allocated : x.sched < p.core.freshDevice
  run : ∃ acts note, x.Acts p.queue acts ∧ (∀ a ∈ note, a = .quiet) ∧
    Run Change p (acts ++ note) p'

theorem Admission.sound {p p' : Plan} {x : EventCall} (h : Admission p x p') (hs : Sound p) :
    Sound p' :=
  let ⟨_, _, _, _, hrun⟩ := h.run
  run_sound hrun hs

/-- No DerDevice is ever freed. -/
theorem Change.freshDevice {p p' : Plan} {a : Act} (hc : Change p a p') :
    p.core.freshDevice ≤ p'.core.freshDevice := by
  cases hc with
  | quiet h => exact h.freshDevice
  | signal h => exact h.freshDevice
  | _ => exact Nat.le_refl _

theorem run_freshDevice {p p' : Plan} {acts : List Act} (hr : Run Change p acts p') :
    p.core.freshDevice ≤ p'.core.freshDevice :=
  hr.preserves (G := fun _ => True) (J := fun p' => p.core.freshDevice ≤ p'.core.freshDevice)
    (fun _ _ => trivial) (fun _ _ _ _ h hc => Nat.le_trans h hc.freshDevice) (Nat.le_refl _)

theorem Admission.freshDevice {p p' : Plan} {x : EventCall} (h : Admission p x p') :
    p.core.freshDevice ≤ p'.core.freshDevice :=
  let ⟨_, _, _, _, hrun⟩ := h.run
  run_freshDevice hrun

end Plan

namespace World
variable {w w' : World} {q : Board} {s d : ScheduleId} {event program edev fsa : StubId}
  {events derpl : List StubId} {eb : BlockId} {fuel primacy : Nat} {cl : Client}

theorem loose_iff (hr : w.links.Represents q) (hs : Plan.Sound ⟨q, w.core⟩) (b : BlockId) :
    w.Loose b ↔ q.Loose b := by
  unfold Loose Board.Loose
  simp only [queue_eq hr hs]

/-- **`schedule_event`.** -/
theorem scheduleEvent_run (hr : w.links.Represents q) (hs : Plan.Sound ⟨q, w.core⟩)
    (hallocated : s < w.core.freshDevice)
    (htidy : (EventCall.mk w s event primacy).Tidy)
    (hres : w.scheduleEvent fuel s event primacy = some (w', eb)) :
    ∃ acts q', w'.links.Represents q' ∧ (EventCall.mk w s event primacy).Acts q acts ∧
      Run Plan.Change ⟨q, w.core⟩ acts ⟨q', w'.core⟩ := by
  cases hget : w.core.getBlock s event with
  | some eb₀ =>
    have hloose : (w.core.block eb₀).status.terminal = false → q.Loose eb₀ :=
      fun ht => (loose_iff hr hs eb₀).mp (htidy eb₀ hget ht)
    obtain ⟨_, q', hrep, hrun⟩ := scheduleEvent_known_run hr hs hget hloose hres
    exact ⟨_, q', hrep, EventCall.Acts.known hget hloose, hrun⟩
  | none =>
    obtain ⟨c, expired, hreg, r, q', hrep, hrun⟩ :=
      scheduleEvent_new_run hr hs hallocated hget hres
    exact ⟨_, q', hrep, EventCall.Acts.new hget hreg r, hrun⟩

/-! ## The calls of `schedule_event` -/

/-- The calls `schedule_der` makes for the events of one program. -/
def controlCalls (fuel : Nat) (d : ScheduleId) (program : StubId) (w : World)
    (events : List StubId) : List EventCall :=
  (trace (scheduleControl fuel d program) w events).map fun x =>
    ⟨x.1, d, x.2, (x.1.core.data program).primacy⟩

/-- The calls `schedule_der` makes for a list of programs. -/
def programCalls (fuel : Nat) (d : ScheduleId) (w : World) (derpl : List StubId) :
    List EventCall :=
  (trace (scheduleProgram fuel d) w derpl).flatMap fun x =>
    match x.1.core.getSubordinate x.2 SeType.derControlList with
    | none => []
    | some t => controlCalls fuel d x.2 x.1 (x.1.core.stub t).reqs

/-- The calls of `schedule_event` that `schedule_der` makes. -/
def derCalls (w : World) (cl : Client) (fuel : Nat) (edev : StubId) : List EventCall :=
  let (w, d) := w.getDevice (w.core.data edev).sFDI
  match w.core.getSubordinate edev SeType.functionSetAssignmentsList with
  | none => []
  | some fsa =>
    match w.beginDer cl fuel d edev fsa with
    | none => []
    | some (w, derpl) => programCalls fuel d w derpl

/-- `schedule_der` of a device without function sets schedules nothing. -/
theorem derCalls_nil (h : (w.getDevice (w.core.data edev).sFDI).1.core.getSubordinate edev
    SeType.functionSetAssignmentsList = none) : w.derCalls cl fuel edev = [] := by
  unfold derCalls
  dsimp only
  rw [h]

theorem controls_run (hr : w.links.Represents q) (hs : Plan.Sound ⟨q, w.core⟩)
    (hd : d < w.core.freshDevice)
    (htidy : ∀ x ∈ controlCalls fuel d program w events, x.Tidy)
    (hres : events.foldlM (scheduleControl fuel d program) w = some w') :
    ∃ q', w'.links.Represents q' ∧ d < w'.core.freshDevice ∧
      Run Plan.Admission ⟨q, w.core⟩ (controlCalls fuel d program w events) ⟨q', w'.core⟩ := by
  induction events generalizing w q with
  | nil =>
    rw [foldlM_nil_eq_some] at hres
    subst hres
    exact ⟨q, hr, hd, Run.nil⟩
  | cons event events ih =>
    obtain ⟨w₁, hcontrol, hres⟩ := foldlM_cons_eq_some.mp hres
    unfold controlCalls at htidy ⊢
    rw [trace, hcontrol, List.map_cons] at htidy ⊢
    obtain ⟨⟨w₂, eb⟩, hsched, hw₁⟩ := Option.bind_eq_some_iff.mp hcontrol
    obtain ⟨acts, q₁, hrep, hacts, hrun⟩ :=
      scheduleEvent_run hr hs hd (htidy _ List.mem_cons_self) hsched
    have hnote : Plan.Change ⟨q₁, w₂.core⟩ .quiet ⟨q₁, w₁.core⟩ := by
      rw [← Option.some.inj hw₁]
      exact Plan.Change.quiet (Quiet.modifyBlock
        (f := fun b => { b with program := some program, context := some d })
        fun _ => ⟨rfl, rfl, rfl, rfl⟩)
    have hadm : Plan.Admission ⟨q, w.core⟩
        ⟨w, d, event, (w.core.data program).primacy⟩ ⟨q₁, w₁.core⟩ :=
      ⟨rfl, hr, hd, acts, [.quiet], hacts, by simp, hrun.snoc hnote⟩
    have hlinks : w₁.links = w₂.links := by rw [← Option.some.inj hw₁]
    obtain ⟨q', hrep', hd', hrun'⟩ := ih (by rw [hlinks]; exact hrep) (hadm.sound hs)
      (Nat.lt_of_lt_of_le hd hadm.freshDevice)
      (fun x hx => htidy x (List.mem_cons_of_mem _ hx)) hres
    exact ⟨q', hrep', hd', Run.cons hadm hrun'⟩

theorem programs_run (hr : w.links.Represents q) (hs : Plan.Sound ⟨q, w.core⟩)
    (hd : d < w.core.freshDevice) (htidy : ∀ x ∈ programCalls fuel d w derpl, x.Tidy)
    (hres : derpl.foldlM (scheduleProgram fuel d) w = some w') :
    ∃ q', w'.links.Represents q' ∧
      Run Plan.Admission ⟨q, w.core⟩ (programCalls fuel d w derpl) ⟨q', w'.core⟩ := by
  induction derpl generalizing w q with
  | nil =>
    rw [foldlM_nil_eq_some] at hres
    subst hres
    exact ⟨q, hr, Run.nil⟩
  | cons program derpl ih =>
    obtain ⟨w₁, hprogram, hres⟩ := foldlM_cons_eq_some.mp hres
    have hpass := hprogram
    unfold scheduleProgram at hprogram
    split at hprogram
    · rename_i hsub
      obtain rfl := Option.some.inj hprogram
      unfold programCalls at htidy ⊢
      rw [trace, hpass, List.flatMap_cons] at htidy ⊢
      dsimp only at htidy ⊢
      rw [hsub] at htidy ⊢
      exact ih hr hs hd htidy hres
    · rename_i t hsub
      unfold programCalls at htidy ⊢
      rw [trace, hpass, List.flatMap_cons] at htidy ⊢
      dsimp only at htidy ⊢
      rw [hsub] at htidy ⊢
      obtain ⟨q₁, hrep, hd₁, hrun⟩ := controls_run hr hs hd
        (fun x hx => htidy x (List.mem_append_left _ hx)) hprogram
      have hs₁ : Plan.Sound ⟨q₁, w₁.core⟩ := hrun.preserves (G := fun _ => True)
        (J := Plan.Sound) (fun _ _ => trivial) (fun _ _ _ _ h ha => ha.sound h) hs
      obtain ⟨q', hrep', hrun'⟩ := ih hrep hs₁ hd₁
        (fun x hx => htidy x (List.mem_append_right _ hx)) hres
      exact ⟨q', hrep', hrun.trans hrun'⟩

/-! ## Before and after the calls -/

/-- **`get_device`.** -/
theorem getDevice_spec (hr : w.links.Represents q) (hs : Plan.Sound ⟨q, w.core⟩) (sfdi : Nat) :
    (w.getDevice sfdi).1.links = w.links ∧ Still w.core (w.getDevice sfdi).1.core ∧
      (w.getDevice sfdi).2 < (w.getDevice sfdi).1.core.freshDevice := by
  unfold getDevice
  split
  · rename_i d hfind
    exact ⟨rfl, Still.refl _, hs.devices d (List.mem_of_find?_eq_some hfind)⟩
  · obtain ⟨hblocks, hdevice⟩ := hs.fresh w.core.freshDevice (Nat.le_refl _)
    have hkeep : ∀ {α : Type} (p : Schedule → α),
        p {} = p (w.core.schedule w.core.freshDevice) → ∀ s,
        p ((((w.core.modifyDevice w.core.freshDevice fun _ => { sfdi }).modifySchedule
          w.core.freshDevice fun _ => {}).schedule s)) = p (w.core.schedule s) := by
      intro α p hp s
      by_cases he : s = w.core.freshDevice
      · subst he; rw [Core.modifySchedule_same]; exact hp
      · rw [Core.modifySchedule_of_ne _ _ he]; rfl
    refine ⟨?_, ?_, Nat.lt_succ_self _⟩
    · have hhead : (fun _ => none) = w.links.head w.core.freshDevice := by
        funext n
        have hnil : q w.core.freshDevice n = [] := by
          refine List.eq_nil_iff_forall_not_mem.mpr fun b hb => ?_
          exact List.not_mem_nil (hblocks ▸ hs.home hb)
        have hlinked := hr.linked w.core.freshDevice n
        rw [hnil] at hlinked
        exact hlinked.symm
      dsimp only
      rw [hhead, Function.update_eq_self]
    · exact { Still.refl w.core with
        blocks := hkeep Schedule.blocks hblocks.symm
        device := hkeep Schedule.device hdevice.symm
        freshDevice := Nat.le_succ _
        devices := fun h d hd => by
          rcases List.mem_append.mp hd with hd | hd
          · exact Nat.lt_succ_of_lt (h d hd)
          · rw [List.mem_singleton.mp hd]; exact Nat.lt_succ_self _ }

/-- The queues of a Schedule are cleared. -/
def clearActs (q : Board) (s : ScheduleId) : List Act :=
  [.drop s .scheduled (q s .scheduled), .drop s .active (q s .active),
    .drop s .superseded (q s .superseded)]

/-- The board with the queues of a Schedule cleared. -/
def cleared (q : Board) (s : ScheduleId) : Board :=
  ((q.set s .scheduled []).set s .active []).set s .superseded []

theorem clear_run (p : Plan) (s : ScheduleId) :
    Run Plan.Change p (clearActs p.queue s) ⟨cleared p.queue s, p.core⟩ := by
  refine Run.cons (Plan.Change.drop (by simp)) (Run.cons (Plan.Change.drop ?_)
    (Run.single (Plan.Change.drop ?_))) <;> simp

theorem clearQueues_represents (hr : w.links.Represents q) (s : ScheduleId) :
    (w.clearQueues s).links.Represents (cleared q s) := by
  have hlinks : (w.clearQueues s).links = ((w.links.setHead s .scheduled none).setHead s
      .active none).setHead s .superseded none := by
    unfold clearQueues Links.setHead
    simp only [Function.update_self, Function.update_idem]
    congr 2
    funext n
    cases n <;> simp
  rw [hlinks]
  refine Links.Represents.setHead (Links.Represents.setHead (Links.Represents.setHead hr
    (x := q s .scheduled) (y := []) (by simp) rfl) (x := q s .active) (y := [])
    (by simp) rfl) (x := q s .superseded) (y := []) (by simp) rfl

/-- The memory `schedule_der` removes programs from: the EndDevice has its lFDI. -/
def withLFDI (w : World) (d : ScheduleId) (edev : StubId) : Core :=
  w.core.modifyStub edev fun t =>
    { t with
      data := t.data.map fun e =>
        { e with lFDI := some (e.lFDI.getD (w.core.device d).lfdi) } }

theorem withLFDI_quiet (w : World) (d : ScheduleId) (edev : StubId) :
    Quiet w.core (w.withLFDI d edev) := by
  refine Quiet.modifyStub ?_ id
  cases (w.core.stub edev).data <;> rfl

/-- The programs of the device that are gone. -/
def gonePrograms (w : World) (cl : Client) (d : ScheduleId) (edev fsa : StubId) : List StubId :=
  let c := w.withLFDI d edev
  Core.listSubtract (c.device d).derpl (c.derPrograms cl fsa)

theorem endDer_quiet (w : World) (d : ScheduleId) (derpl : List StubId) :
    Quiet w.core (w.endDer d derpl).core := by
  have hmodify : Quiet w.core (w.core.modifyDevice d fun t =>
      { t with derpl := derpl, dderc := derpl.foldl w.core.defaultControl none }) :=
    { Still.refl w.core with timer := fun e he => he, next := fun _ => rfl }
  exact (hmodify.trans (Quiet.insertEvent (d := .schedule d) (fun _ => EventData.noConfusion)
    .scheduleUpdate 0)).trans (Quiet.insertEvent (d := .device d)
      (fun _ => EventData.noConfusion) .deviceSchedule 0)

/-- The parts of a call of `schedule_der` for a device `d` that has programs, `w` being the
memory after `get_device`. -/
structure Derivation (w : World) (q : Board) (cl : Client) (d : ScheduleId) (edev fsa : StubId)
    (calls : List EventCall) (w' : World) where
  /-- After `remove_programs`. -/
  kept : Plan
  /-- After the calls of `schedule_event`. -/
  late : Plan
  remove : Run Plan.Change ⟨q, w.withLFDI d edev⟩
    ((w.withLFDI d edev).removeProgramsActs d (w.gonePrograms cl d edev fsa)) kept
  admitted : Run Plan.Admission ⟨cleared kept.queue d, kept.core.assign d edev⟩ calls late
  rep : w'.links.Represents late.queue
  finish : Quiet late.core w'.core

/-- **`schedule_der`.** -/
theorem scheduleDer_run (hr : w.links.Represents q) (hs : Plan.Sound ⟨q, w.core⟩)
    (htidy : ∀ x ∈ w.derCalls cl fuel edev, x.Tidy)
    (hres : w.scheduleDer cl fuel edev = some w') :
    let w₀ := (w.getDevice (w.core.data edev).sFDI).1
    let d := (w.getDevice (w.core.data edev).sFDI).2
    match w₀.core.getSubordinate edev SeType.functionSetAssignmentsList with
    | none => w' = w₀
    | some fsa => Nonempty (Derivation w₀ q cl d edev fsa (w.derCalls cl fuel edev) w') := by
  obtain ⟨hlinks, hstill, hd⟩ := getDevice_spec hr hs (w.core.data edev).sFDI
  unfold scheduleDer at hres
  unfold derCalls at htidy ⊢
  dsimp only at hres htidy ⊢
  generalize (w.getDevice (w.core.data edev).sFDI).1 = w₀ at *
  generalize (w.getDevice (w.core.data edev).sFDI).2 = d at *
  have hr₀ : w₀.links.Represents q := by rw [hlinks]; exact hr
  have hs₀ : Plan.Sound ⟨q, w₀.core⟩ := hs.still hstill
  cases hsub : w₀.core.getSubordinate edev SeType.functionSetAssignmentsList with
  | none =>
    rw [hsub] at hres
    exact (Option.some.inj hres).symm
  | some fsa =>
    rw [hsub] at hres htidy
    dsimp only at htidy ⊢
    obtain ⟨⟨w₁, derpl⟩, hbegin, hres⟩ := Option.bind_eq_some_iff.mp hres
    obtain ⟨w₂, hprograms, hres⟩ := Option.bind_eq_some_iff.mp hres
    rw [hbegin] at htidy ⊢
    dsimp only at htidy ⊢
    obtain ⟨w₃, hremove, hw₁⟩ := Option.bind_eq_some_iff.mp hbegin
    have hs₁ : Plan.Sound ⟨q, w₀.withLFDI d edev⟩ := hs₀.still (w₀.withLFDI_quiet d edev).toStill
    obtain ⟨q₁, hr₁, hrun₁⟩ := removePrograms_run (w := ⟨w₀.links, w₀.withLFDI d edev⟩) hr₀ hs₁
      hremove
    have hr₂ := clearQueues_represents hr₁ d
    have hrun₂ := clear_run ⟨q₁, w₃.core⟩ d
    have hd₁ : d < w₃.core.freshDevice := Nat.lt_of_lt_of_le hd (Plan.run_freshDevice hrun₁)
    obtain ⟨rfl, rfl⟩ := Prod.mk.inj (Option.some.inj hw₁)
    have hassign : Plan.Change ⟨cleared q₁ d, w₃.core⟩ (.assign d edev)
        ⟨cleared q₁ d, w₃.core.assign d edev⟩ := Plan.Change.assign hd₁
    obtain ⟨q₂, hr₃, hrun₃⟩ := programs_run (w := ⟨(w₃.clearQueues d).links, w₃.core.assign d edev⟩)
      hr₂ (hassign.sound (Plan.run_sound hrun₂ (Plan.run_sound hrun₁ hs₁))) hd₁ htidy hprograms
    exact ⟨{
      kept := ⟨q₁, w₃.core⟩
      late := ⟨q₂, w₂.core⟩
      remove := hrun₁
      admitted := hrun₃
      rep := by rw [← Option.some.inj hres]; exact hr₃
      finish := by rw [← Option.some.inj hres]; exact w₂.endDer_quiet d _ }⟩

end World
end SeClient
