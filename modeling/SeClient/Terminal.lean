import SeClient.StartWindow

/-!
# Terminal statuses

`schedule_event` leaves a block alone once its status is terminal; the other functions write the
status and respond on conditions of their own.  `Ledger` relates the Responses posted so far to
the blocks they were about, and `Act.Final` lists the changes that leave done blocks alone.
-/

namespace SeClient
open Transition

/-- The Responses that end an event for a device. -/
def ResponseType.terminal : ResponseType → Bool
  | .eventCompleted | .eventCanceled | .eventSuperseded | .eventAbortedProgram | .eventExpired =>
    true
  | .eventReceived | .eventStarted => false

namespace Core
variable (c : Core)

/-- The Responses posted for a device about the event with an mRID. -/
def responsesTo (device : Option StubId) (mRID : Nat) : List Response :=
  c.responses.filter fun r => r.device = device ∧ (c.data r.event).mRID = mRID

/-- The Responses posted about a block. -/
def responsesFor (s : ScheduleId) (b : BlockId) : List Response :=
  c.responsesTo (c.schedule s).device (c.mridKey b)

end Core

/-- The steps that leave the blocks alone that are done with, and keep the devices apart. -/
structure World.Final (cl : Client) (w : World) (i : Invocation) : Prop extends w.Tidy cl i where
  /-- `schedule_event` supersedes no active block that is done with. -/
  admitted : ∀ x ∈ w.calls cl i, ∀ c eb, x.placed = some (c, eb) → x.Activates c eb →
    ∀ a, (a, Fate.beats) ∈ (c.loadDer eb).contest eb (x.world.queue x.sched .active) →
      (c.block a).status.terminal = false
  /-- Nor does `update_schedule`. -/
  promoted : ∀ s, i.op = .updateSchedule s → ∀ call ∈ w.updateCalls i.fuel s,
    ∀ a, (a, Fate.beats) ∈ (call.core.loadDer call.block).contest call.block call.active →
      (call.core.block a).status.terminal = false
  /-- `update_schedule` completes no block that ended otherwise. -/
  expired : ∀ s, i.op = .updateSchedule s → ∀ b ∈ w.queue s .active,
    w.core.elapsed w.core.seTime b = true → (w.core.block b).status.terminal = true →
      (w.core.block b).status = .completed
  /-- A block that is removed is not done with, or has the status it gets already. -/
  dismissed : ∀ c s eb status posted, Dismisses cl w i c s eb status posted →
    (c.block eb).status.terminal = true → status = (c.block eb).status
  /-- A Schedule keeps its EndDevice, and has it to itself. -/
  device : ∀ edev fsa w₀ d, i.op = .scheduleDer edev →
    w.getDevice (w.core.data edev).sFDI = (w₀, d) →
    w₀.core.getSubordinate edev SeType.functionSetAssignmentsList = some fsa →
    ((w.core.schedule d).device = none ∨ (w.core.schedule d).device = some edev) ∧
      ∀ s, s ≠ d → (w.core.schedule s).device ≠ some edev
  kept : ∀ event, i.op ≠ .deleteBlocks event

/-! ## The changes that leave done blocks alone -/

/-- The changes of a step from `c` that leave done blocks alone. -/
def Act.Final (c : Core) : Act → Prop
  | .touch t =>
    (t.found.terminal = true → t.status = t.found ∧ t.mark = none ∧ t.posted = []) ∧
      (t.posted.filter fun r => r.status.terminal).length ≤ 1 ∧
      ∀ r ∈ t.posted, r.status.terminal = true → t.status.terminal = true
  | .discard b _ => (c.block b).status = .active
  | .assign d edev =>
    ((c.schedule d).device = none ∨ (c.schedule d).device = some edev) ∧
      ∀ s, s ≠ d → (c.schedule s).device ≠ some edev
  | .delete _ _ _ => False
  | _ => True

section Steps
variable {cl : Client} {w : World} {q : Board} {i : Invocation} {t : Touch} {s : ScheduleId}
  {c : Core} {eb : BlockId} {l : List BlockId}

theorem posted_length (c : Core) (device : Option StubId) (event : StubId) (status : ResponseType) :
    ((c.posted device event status).filter fun r => r.status.terminal).length ≤ 1 :=
  Nat.le_trans (List.length_filter_le _ _) (c.posted_length_le)

/-- A change that ends a block that is not done with. -/
theorem final_of_live {c₀ : Core} (hfound : t.found.terminal = false)
    (hstatus : t.status.terminal = true)
    (hposted : (t.posted.filter fun r => r.status.terminal).length ≤ 1) :
    (Act.touch t).Final c₀ := by
  refine ⟨fun h => ?_, hposted, fun _ _ _ => hstatus⟩
  rw [hfound] at h
  cases h

/-- A change that posts nothing, of a block that is not done with. -/
theorem final_of_nil {c₀ : Core} (hfound : t.found.terminal = false) (hposted : t.posted = []) :
    (Act.touch t).Final c₀ := by
  refine ⟨fun h => ?_, by simp [hposted], by simp [hposted]⟩
  rw [hfound] at h
  cases h

theorem Enters.live (h : Enters cl w i s c eb l) : (c.block eb).status.terminal = false := by
  cases h with
  | admitted hplaces _ => exact hplaces.places.live
  | promote _ _ hs hcore hblock =>
    have hfits : (Core.block _ _).status = .scheduled := hs.fits hblock
    rw [hcore] at hfits
    rw [hfits]
    rfl

theorem Enters.beaten_live (h : Enters cl w i s c eb l) (hok : w.Final cl i) {a : BlockId}
    (ha : (a, Fate.beats) ∈ (c.loadDer eb).contest eb l) : (c.block a).status.terminal = false := by
  cases h with
  | @admitted x q' c eb hplaces hst =>
    rw [← World.queue_eq hplaces.rep hplaces.sound] at ha
    exact hok.admitted x hplaces.call c eb hplaces.places.placed hst a ha
  | promote hop hcall => exact hok.promoted s hop _ hcall a ha

/-- **A step changes no block that is done with.** -/
theorem Cause.final (h : Cause cl w q i t) (hr : w.links.Represents q)
    (hs : Plan.Sound ⟨q, w.core⟩) (hok : w.Final cl i) (c₀ : Core) : (Act.touch t).Final c₀ := by
  have hbegun : ∀ (c : Core) (s : ScheduleId) (eb : BlockId), (c.block eb).status.terminal = false →
      (Act.touch (c.begun s eb)).Final c₀ := by
    intro c s eb hlive
    refine ⟨fun h => ?_, posted_length _ _ _ _, fun r hr hterm => ?_⟩
    · cases hlive.symm.trans h
    · unfold Core.begun Core.turn at hr
      rw [Core.posted_spec _ hr] at hterm
      cases hterm
  cases h with
  | beaten henter _ hbeats =>
    exact final_of_live (henter.beaten_live hok hbeats) rfl (posted_length _ _ _ _)
  | yields henter _ => exact final_of_live henter.live rfl (posted_length _ _ _ _)
  | waits henter _ _ => exact final_of_nil henter.live rfl
  | begins henter _ _ _ => exact hbegun _ _ _ henter.live
  | enqueued hplaces _ _ => exact final_of_nil hplaces.places.live rfl
  | demoted hfound _ _ hposted => exact final_of_nil (by rw [hfound]; rfl) hposted
  | shifted hfound _ _ hposted => exact final_of_nil (by rw [hfound]; rfl) hposted
  | concluded hplaces _ hk =>
    refine final_of_live hplaces.places.live ?_ (posted_length _ _ _ _)
    rcases hk with ⟨rfl | rfl, _⟩ | ⟨rfl, _⟩ <;> rfl
  | noticed _ _ _ r =>
    refine ⟨fun h => ?_, ?_, fun x hx hterm => ?_⟩
    · rw [r.found] at h; cases h
    · rw [List.filter_eq_nil_iff.mpr fun x hx => by rw [r.received x hx]; decide]
      exact Nat.zero_le _
    · rw [r.received x hx] at hterm; cases hterm
  | belated _ _ _ r =>
    refine final_of_live (t := { r.notice with status := .completed, posted := r.responses }) ?_ rfl
      (Nat.le_trans (List.length_filter_le _ _) r.brief)
    rw [r.found]
    rfl
  | @expires s b hop hb hover =>
    have hb' : b ∈ w.queue s .active := by rw [World.queue_eq hr hs]; exact hb
    by_cases hterm : (w.core.block b).status.terminal = true
    · have hst := hok.expired s hop b hb' hover hterm
      unfold Core.expired
      rw [if_neg (by rw [hst]; decide)]
      exact ⟨fun _ => ⟨hst.symm, rfl, rfl⟩, Nat.zero_le _, fun r hr => by cases hr⟩
    · have hterm : (w.core.block b).status.terminal = false := by simpa using hterm
      unfold Core.expired
      split
      · exact final_of_live hterm rfl (posted_length _ _ _ _)
      · exact final_of_nil hterm rfl
  | retires _ hb =>
    have hst : (w.core.block _).status = .scheduleSuperseded := hs.fits hb
    refine final_of_live ?_ rfl (posted_length _ _ _ _)
    exact (congrArg EventStatus.terminal hst).trans rfl
  | wakes _ _ _ _ hwait => exact hbegun _ _ _ (by rw [hwait]; rfl)
  | @dismissed c s eb status posted hdis =>
    have hshape : status.terminal = true ∧
        (posted.filter fun r => r.status.terminal).length ≤ 1 ∧
        ((c.block eb).status.terminal = true → status = (c.block eb).status → posted = []) := by
      cases hdis with
      | remove _ hst _ _ =>
        refine ⟨?_, ?_, fun _ he => ?_⟩
        · rcases hst with ⟨h | h, _⟩ | ⟨h, _⟩ <;> rw [h] <;> rfl
        · unfold Core.removalPosted
          split
          · exact posted_length _ _ _ _
          · exact Nat.zero_le _
        · unfold Core.removalPosted
          rw [if_neg (not_not.mpr he.symm)]
      | abort =>
        refine ⟨rfl, ?_, fun _ he => ?_⟩
        · unfold Core.abortPosted
          split
          · exact posted_length _ _ _ _
          · exact Nat.zero_le _
        · unfold Core.abortPosted
          rw [if_neg (by rw [← he]; decide)]
    obtain ⟨hstatus, hlen, hnil⟩ := hshape
    refine ⟨fun hterm => ?_, hlen, fun _ _ _ => hstatus⟩
    have he := hok.dismissed c s eb status posted hdis hterm
    refine ⟨he, ?_, hnil hterm he⟩
    have hne : (c.block eb).status ≠ .active := fun hactive => by
      have hterm : (c.block eb).status.terminal = true := hterm
      rw [hactive] at hterm
      cases hterm
    exact if_neg hne

theorem final_of_does {a : Act} (h : Effect.Does cl w q i a) (hr : w.links.Represents q)
    (hs : Plan.Sound ⟨q, w.core⟩) (hok : w.Final cl i) : a.Final w.core := by
  cases a with
  | touch t => exact h.cause.final hr hs hok w.core
  | discard b found =>
    obtain ⟨c, s, status, posted, hdis, hactive, _⟩ := h.dismisses
    cases hdis with
    | remove => exact hactive
    | abort _ hstill => exact (hstill.status b).symm.trans hactive
  | assign d edev =>
    obtain ⟨fsa, w₀, hop, hget, hfsa⟩ := h.assigns
    exact hok.device edev fsa w₀ d hop hget hfsa
  | delete s b found =>
    obtain ⟨event, hop, _⟩ := h.deletes
    exact hok.kept event hop
  | _ => trivial

end Steps

/-! ## The ledger of Responses -/

/-- The devices of the Schedules are apart, the blocks of a Schedule have different mRIDs, every
Response was about a registered block, and a Response that ends an event was posted once, for a
block that is done with. -/
structure Ledger (c : Core) : Prop where
  apart : ∀ s s', (c.schedule s).device ≠ none → (c.schedule s).device = (c.schedule s').device →
    s = s'
  equipped : ∀ s b, b ∈ (c.schedule s).blocks → (c.schedule s).device ≠ none
  unique : ∀ s b b', b ∈ (c.schedule s).blocks → b' ∈ (c.schedule s).blocks →
    c.mridKey b = c.mridKey b' → b = b'
  filed : ∀ r ∈ c.responses, ∃ s b, b ∈ (c.schedule s).blocks ∧
    r.device = (c.schedule s).device ∧ (c.data r.event).mRID = c.mridKey b ∧
    (r.status.terminal = true → (c.block b).status.terminal = true)
  single : ∀ device mRID,
    ((c.responsesTo device mRID).filter fun r => r.status.terminal).length ≤ 1

theorem Ledger.congr {c c' : Core} (h : Ledger c)
    (hblocks : ∀ s, (c'.schedule s).blocks = (c.schedule s).blocks)
    (hdevice : ∀ s, (c'.schedule s).device = (c.schedule s).device)
    (hkey : ∀ s b, b ∈ (c.schedule s).blocks → c'.mridKey b = c.mridKey b)
    (hstatus : ∀ b, (c'.block b).status = (c.block b).status)
    (hresponses : c'.responses = c.responses)
    (hdata : ∀ r ∈ c.responses, (c'.data r.event).mRID = (c.data r.event).mRID) : Ledger c' where
  apart s s' := by rw [hdevice, hdevice]; exact h.apart s s'
  equipped s b hb := by rw [hblocks] at hb; rw [hdevice]; exact h.equipped s b hb
  unique s b b' hb hb' he := by
    rw [hblocks] at hb hb'
    rw [hkey s b hb, hkey s b' hb'] at he
    exact h.unique s b b' hb hb' he
  filed r hr := by
    rw [hresponses] at hr
    obtain ⟨s, b, hb, hd, hm, ht⟩ := h.filed r hr
    exact ⟨s, b, by rw [hblocks]; exact hb, by rw [hdevice]; exact hd,
      by rw [hdata r hr, hkey s b hb]; exact hm, by rw [hstatus]; exact ht⟩
  single device mRID := by
    have hsame : c'.responsesTo device mRID = c.responsesTo device mRID := by
      unfold Core.responsesTo
      rw [hresponses]
      exact List.filter_congr fun r hr => by rw [hdata r hr]
    rw [hsame]
    exact h.single device mRID

theorem Ledger.still {c c' : Core} (h : Ledger c) (hc : Still c c') : Ledger c' :=
  h.congr hc.blocks hc.device (fun _ b _ => hc.ambient.mridKey (hc.event b)) hc.status hc.responses
    fun _ _ => hc.mRID _

theorem Ledger.environment {q : Board} {c c' : Core} (h : Ledger c) (hs : Plan.Sound ⟨q, c⟩)
    (hc : Environment c c') : Ledger c' := by
  have hdata : ∀ r ∈ c.responses, (c'.data r.event).mRID = (c.data r.event).mRID :=
    fun r hr => by rw [hc.data r.event (Or.inr ⟨r, hr, rfl⟩)]
  refine h.congr (fun s => by rw [hc.schedule]) (fun s => by rw [hc.schedule])
    (fun s b hb => ?_) (fun b => by rw [hc.block]) hc.responses hdata
  unfold Core.mridKey
  rw [hc.block, hc.data _ (Or.inl ⟨b, hs.alloc hb, rfl⟩)]

/-- The block a Response was about is told by its device and mRID. -/
theorem Ledger.same_block {c : Core} (h : Ledger c) {s s' : ScheduleId} {b b' : BlockId}
    (hb : b ∈ (c.schedule s).blocks) (hb' : b' ∈ (c.schedule s').blocks)
    (hdevice : (c.schedule s).device = (c.schedule s').device)
    (hkey : c.mridKey b = c.mridKey b') : s = s' ∧ b = b' := by
  obtain rfl := h.apart s s' (h.equipped s b hb) hdevice
  exact ⟨rfl, h.unique s b b' hb hb' hkey⟩

theorem Core.touch_mridKey (c : Core) (t : Touch) (b : BlockId) :
    (c.touch t).mridKey b = c.mridKey b := by
  have hevent : ((c.touch t).block b).event = (c.block b).event := by
    by_cases hb : b = t.block
    · subst hb; simp [Core.touch]
    · rw [Core.touch_block_of_ne hb]
  unfold Core.mridKey
  rw [hevent]
  rfl

/-- A change of a block posts Responses about the block. -/
theorem Core.responsesTo_touch (c : Core) (t : Touch) (device : Option StubId) (mRID : Nat) :
    (c.touch t).responsesTo device mRID = c.responsesTo device mRID ++
      t.posted.filter fun r => r.device = device ∧ (c.data r.event).mRID = mRID :=
  List.filter_append _ _

/-- A change keeps the devices apart. -/
def Act.Apart (c : Core) (a : Act) : Prop :=
  ∀ d edev, a = .assign d edev →
    ((c.schedule d).device = none ∨ (c.schedule d).device = some edev) ∧
      ∀ s, s ≠ d → (c.schedule s).device ≠ some edev

/-- **One change keeps the ledger.** -/
theorem Ledger.change {c₀ : Core} {p p' : Plan} {a : Act} (h : Ledger p.core) (hs : p.Sound)
    (ha : a.Final c₀) (hassign : a.Apart p.core) (hc : Plan.Change p a p') :
    Ledger p'.core := by
  cases hc with
  | quiet hq => exact h.still hq.toStill
  | signal hq => exact h.still hq
  | @assign q c d edev _ =>
    obtain ⟨hown, hother⟩ := hassign d edev rfl
    have hkept : ∀ s b, b ∈ (c.schedule s).blocks →
        ((c.assign d edev).schedule s).device = (c.schedule s).device := by
      intro s b hb
      rw [Core.assign_device]
      split
      · rename_i hs
        subst hs
        exact (hown.resolve_left (h.equipped s b hb)).symm
      · rfl
    refine ⟨fun s s' hne he => ?_, fun s b hb => ?_, fun s b b' hb hb' => ?_, fun r hr => ?_,
      h.single⟩
    · rw [Core.assign_device] at hne
      rw [Core.assign_device, Core.assign_device] at he
      split at he <;> split at he
      · rename_i hs hs'; rw [hs, hs']
      · rename_i hs hs'; exact absurd he.symm (hother s' hs')
      · rename_i hs hs'; exact absurd he (hother s hs)
      · rename_i hs hs'
        rw [if_neg hs] at hne
        exact h.apart s s' hne he
    · rw [Core.assign_blocks] at hb
      rw [hkept s b hb]
      exact h.equipped s b hb
    · rw [Core.assign_blocks] at hb hb'
      exact h.unique s b b' hb hb'
    · obtain ⟨s, b, hb, hd, hm, ht⟩ := h.filed r hr
      exact ⟨s, b, by rw [Core.assign_blocks]; exact hb, hd.trans (hkept s b hb).symm, hm, ht⟩
  | @touch q c t hfound hhome hposted _ =>
    obtain ⟨hkeep, hlen, hterm⟩ := ha
    have hstatus : ∀ b, (c.block b).status.terminal = true →
        ((c.touch t).block b).status.terminal = true := by
      intro b hb
      by_cases he : b = t.block
      · subst he
        have hnew : ((c.touch t).block t.block).status = t.status := by simp [Core.touch]
        rw [← hfound] at hb
        rw [hnew, (hkeep hb).1]
        exact hb
      · rw [Core.touch_block_of_ne he]; exact hb
    refine ⟨h.apart, h.equipped, fun s b b' hb hb' => ?_, fun r hr => ?_, fun device mRID => ?_⟩
    · rw [c.touch_mridKey, c.touch_mridKey]; exact h.unique s b b' hb hb'
    · rcases List.mem_append.mp hr with hr | hr
      · obtain ⟨s, b, hb, hd, hm, ht⟩ := h.filed r hr
        exact ⟨s, b, hb, hd, by rw [c.touch_mridKey]; exact hm, fun hrt => hstatus b (ht hrt)⟩
      · obtain ⟨hd, hm⟩ := hposted r hr
        refine ⟨t.sched, t.block, hhome, hd, by rw [c.touch_mridKey]; exact hm, fun hrt => ?_⟩
        have hnew : ((c.touch t).block t.block).status = t.status := by simp [Core.touch]
        rw [hnew]
        exact hterm r hr hrt
    · rw [c.responsesTo_touch, List.filter_append, List.length_append]
      by_cases hnone : (t.posted.filter fun r => r.device = device ∧
          (c.data r.event).mRID = mRID).filter (fun r => r.status.terminal) = []
      · rw [hnone, List.length_nil]
        exact h.single device mRID
      · obtain ⟨r, hr⟩ := List.exists_mem_of_ne_nil _ hnone
        rw [List.mem_filter, List.mem_filter] at hr
        obtain ⟨⟨hr, hfor⟩, hrt⟩ := hr
        have hfor : r.device = device ∧ (c.data r.event).mRID = mRID := by simpa using hfor
        have hlive : ¬ t.found.terminal = true := fun hf => by
          rw [(hkeep hf).2.2] at hr
          cases hr
        have hold : (c.responsesTo device mRID).filter (fun r => r.status.terminal) = [] := by
          refine List.filter_eq_nil_iff.mpr fun x hx hxt => hlive ?_
          obtain ⟨hx, hxfor⟩ := List.mem_filter.mp hx
          have hxfor : x.device = device ∧ (c.data x.event).mRID = mRID := by simpa using hxfor
          obtain ⟨s, b, hb, hd, hm, ht⟩ := h.filed x hx
          obtain ⟨hrd, hrm⟩ := hposted r hr
          obtain ⟨rfl, rfl⟩ := h.same_block hb hhome
            (hd.symm.trans (hxfor.1.trans (hfor.1.symm.trans hrd)))
            (hm.symm.trans (hxfor.2.trans (hfor.2.symm.trans hrm)))
          rw [hfound]
          exact ht hxt
        rw [hold, List.length_nil, Nat.zero_add]
        refine Nat.le_trans (List.Sublist.length_le ?_) hlen
        exact List.filter_sublist.filter _
  | @register q c s block _ hdevice _ hnone =>
    have hfresh : ∀ {s' b}, b ∈ (c.schedule s').blocks → b ≠ c.freshBlock :=
      fun hb he => Nat.lt_irrefl _ (he ▸ hs.alloc hb)
    have hold : ∀ {s' b}, b ∈ (c.schedule s').blocks → (c.enroll s block).block b = c.block b :=
      fun hb => Function.update_of_ne (hfresh hb) ..
    have hkey : ∀ {s' b}, b ∈ (c.schedule s').blocks →
        (c.enroll s block).mridKey b = c.mridKey b := by
      intro s' b hb
      unfold Core.mridKey
      rw [hold hb]
      rfl
    have hnew : ∀ b ∈ (c.schedule s).blocks,
        (c.enroll s block).mridKey c.freshBlock ≠ (c.enroll s block).mridKey b := by
      intro b hb he
      have hblock : (c.enroll s block).mridKey c.freshBlock = (c.data block.event).mRID := by
        unfold Core.mridKey Core.enroll
        simp [Core.modifySchedule, Core.data]
      rw [hblock, hkey hb] at he
      have := List.find?_eq_none.mp hnone b hb
      exact this (decide_eq_true he.symm)
    refine ⟨fun s₁ s₂ => ?_, fun s' b hb => ?_, fun s' b b' hb hb' he => ?_, fun r hr => ?_,
      h.single⟩
    · rw [Core.enroll_device, Core.enroll_device]; exact h.apart s₁ s₂
    · rw [Core.enroll_device]
      rcases (Core.mem_enroll_blocks c).mp hb with hb | ⟨rfl, _⟩
      · exact h.equipped s' b hb
      · exact hdevice
    · rcases (Core.mem_enroll_blocks c).mp hb with hb₁ | ⟨rfl, rfl⟩ <;>
        rcases (Core.mem_enroll_blocks c).mp hb' with hb₂ | ⟨hs₂, rfl⟩
      · rw [hkey hb₁, hkey hb₂] at he
        exact h.unique s' b b' hb₁ hb₂ he
      · subst hs₂
        exact absurd he.symm (hnew b hb₁)
      · exact absurd he (hnew b' hb₂)
      · rfl
    · obtain ⟨s', b, hb, hd, hm, ht⟩ := h.filed r hr
      exact ⟨s', b, (Core.mem_enroll_blocks c).mpr (Or.inl hb),
        hd.trans (c.enroll_device s s' block).symm, hm.trans (hkey hb).symm,
        fun hrt => by rw [hold hb]; exact ht hrt⟩
  | delete => exact absurd ha id
  | discard => exact ⟨h.apart, h.equipped, h.unique, h.filed, h.single⟩
  | _ => exact h

/-! ## Blocks that are done with -/

/-- What has been settled about a block: its status, the marks queued for it so far, and the
Responses posted about it. -/
structure Settled (s : ScheduleId) (b : BlockId) (status : EventStatus) (marks : List EventType)
    (responses : List Response) (past : List Event) (c : Core) : Prop where
  home : b ∈ (c.schedule s).blocks
  status : (c.block b).status = status
  marks : marksOf (past ++ c.imEvent) b = marks
  responses : c.responsesFor s b = responses
  timed : c.curEvent.filter Event.ofBlock = []

namespace Settled
variable {s : ScheduleId} {b : BlockId} {status : EventStatus} {marks : List EventType}
  {responses : List Response} {past : List Event} {c c' : Core} {a : Act} {p p' : Plan}

theorem congr (h : Settled s b status marks responses past c)
    (hblocks : (c'.schedule s).blocks = (c.schedule s).blocks)
    (hstatus : (c'.block b).status = (c.block b).status)
    (hpending : c'.pending b = c.pending b)
    (htimed : c'.curEvent.filter Event.ofBlock = c.curEvent.filter Event.ofBlock)
    (hresponses : c'.responsesFor s b = c.responsesFor s b) :
    Settled s b status marks responses past c' :=
  ⟨hblocks ▸ h.home, hstatus.trans h.status, (marksOf_congr hpending).trans h.marks,
    hresponses.trans h.responses, htimed.trans h.timed⟩

theorem responsesFor_congr (hdevice : (c'.schedule s).device = (c.schedule s).device)
    (hkey : c'.mridKey b = c.mridKey b) (hresponses : c'.responses = c.responses)
    (hdata : ∀ r ∈ c.responses, (c'.data r.event).mRID = (c.data r.event).mRID) :
    c'.responsesFor s b = c.responsesFor s b := by
  unfold Core.responsesFor Core.responsesTo
  rw [hdevice, hkey, hresponses]
  exact List.filter_congr fun r hr => by rw [hdata r hr]

theorem still (h : Settled s b status marks responses past c) (hc : Still c c') :
    Settled s b status marks responses past c' :=
  h.congr (hc.blocks s) (hc.status b) (hc.keeps b).pending hc.curEvent
    (responsesFor_congr (hc.device s) (hc.ambient.mridKey (hc.event b)) hc.responses
      fun _ _ => hc.mRID _)

theorem environment {q : Board} (h : Settled s b status marks responses past c)
    (hs : Plan.Sound ⟨q, c⟩) (hc : Environment c c') :
    Settled s b status marks responses past c' := by
  refine h.congr (by rw [hc.schedule]) (by rw [hc.block])
    (by rw [c'.pending_eq, c.pending_eq, hc.imEvent]) hc.curEvent
    (responsesFor_congr (by rw [hc.schedule]) ?_ hc.responses fun r hr => by
      rw [hc.data r.event (Or.inr ⟨r, hr, rfl⟩)])
  unfold Core.mridKey
  rw [hc.block, hc.data _ (Or.inl ⟨b, hs.alloc h.home, rfl⟩)]

/-- **No change that leaves done blocks alone unsettles one.** -/
theorem change {c₀ : Core} (h : Settled s b status marks responses past p.core) (hs : p.Sound)
    (hl : Ledger p.core) (hterm : status.terminal = true) (hc₀ : (c₀.block b).status = status)
    (ha : a.Final c₀) (hassign : a.Apart p.core) (hc : Plan.Change p a p') :
    Settled s b status marks responses past p'.core := by
  cases hc with
  | quiet hq => exact h.still hq.toStill
  | signal hq => exact h.still hq
  | @assign q c d edev _ =>
    refine h.congr (Core.assign_blocks ..) rfl rfl rfl
      (responsesFor_congr ?_ rfl rfl fun _ _ => rfl)
    rw [Core.assign_device]
    split
    · rename_i he
      subst he
      exact ((hassign s edev rfl).1.resolve_left (hl.equipped s b h.home)).symm
    · rfl
  | @touch q c t hfound hhome hposted _ =>
    by_cases hb : b = t.block
    · subst hb
      obtain ⟨hst, hmark, hpost⟩ := ha.1 (by rw [hfound, h.status]; exact hterm)
      refine h.congr rfl ?_ ?_ rfl ?_
      · simp [Core.touch, hst, hfound]
      · simp [Core.touch, Core.pending, hmark]
      · refine responsesFor_congr rfl (c.touch_mridKey t _) ?_ fun _ _ => rfl
        simp [Core.touch, hpost]
    · have hkeeps := Core.touch_keeps (c := c) hb
      refine h.congr rfl hkeeps.status hkeeps.pending rfl ?_
      unfold Core.responsesFor
      rw [c.touch_mridKey, c.responsesTo_touch]
      have hnone : (t.posted.filter fun r => r.device = ((c.touch t).schedule s).device ∧
          (c.data r.event).mRID = c.mridKey b) = [] := by
        refine List.filter_eq_nil_iff.mpr fun r hr hfor => hb ?_
        have hfor : r.device = ((c.touch t).schedule s).device ∧
            (c.data r.event).mRID = c.mridKey b := by simpa using hfor
        obtain ⟨hd, hm⟩ := hposted r hr
        exact (hl.same_block h.home hhome (hfor.1.symm.trans hd) (hfor.2.symm.trans hm)).2
      rw [hnone, List.append_nil]
      rfl
  | @discard q c x =>
    have hx : b ≠ x := fun he => by
      subst he
      have hactive : (c₀.block b).status = .active := ha
      rw [hc₀] at hactive
      rw [hactive] at hterm
      cases hterm
    refine h.congr rfl rfl (Core.pending_removeEvent hx) ?_
      (responsesFor_congr rfl rfl rfl fun _ _ => rfl)
    rw [removeEvent_timed h.timed x, h.timed]
  | @register q c s' block _ _ _ _ =>
    have hb : b ≠ c.freshBlock := fun he => Nat.lt_irrefl _ (he ▸ hs.alloc h.home)
    have hsame : (c.enroll s' block).block b = c.block b := Function.update_of_ne hb ..
    refine ⟨(Core.mem_enroll_blocks c).mpr (Or.inl h.home), by rw [hsame]; exact h.status, h.marks,
      ?_, h.timed⟩
    rw [← h.responses]
    refine responsesFor_congr (c.enroll_device ..) ?_ rfl fun _ _ => rfl
    unfold Core.mridKey
    rw [hsame]
    rfl
  | delete => exact absurd ha id
  | _ => exact h

end Settled

/-! ## Steps and runs -/

section Steps
variable {cl : Client} {w : World} {q : Board} {i : Invocation} {p p' : Plan} {a : Act}

/-- Within a step a Schedule has the device it had, or the one the step gives it. -/
def DevicesOf (w : World) (i : Invocation) (c : Core) : Prop :=
  ∀ s, (c.schedule s).device = (w.core.schedule s).device ∨
    ∃ edev w₀, i.op = .scheduleDer edev ∧ w.getDevice (w.core.data edev).sFDI = (w₀, s) ∧
      (c.schedule s).device = some edev

theorem Effect.Does.apart (h : Effect.Does cl w q i a) (hok : w.Final cl i) {c : Core}
    (hc : DevicesOf w i c) : a.Apart c := by
  intro d edev he
  subst he
  obtain ⟨fsa, w₀, hop, hget, hfsa⟩ := h.assigns
  obtain ⟨hown, hother⟩ := hok.device edev fsa w₀ d hop hget hfsa
  have huniq : ∀ s edev' w₀', i.op = .scheduleDer edev' →
      w.getDevice (w.core.data edev').sFDI = (w₀', s) → s = d ∧ edev' = edev := by
    intro s edev' w₀' hop' hget'
    obtain rfl := Op.scheduleDer.inj (hop.symm.trans hop')
    exact ⟨(Prod.mk.inj (hget'.symm.trans hget)).2, rfl⟩
  refine ⟨?_, fun s hne hs => ?_⟩
  · rcases hc d with hd | ⟨edev', w₀', hop', hget', hd⟩
    · rw [hd]; exact hown
    · rw [(huniq d edev' w₀' hop' hget').2] at hd
      exact Or.inr hd
  · rcases hc s with hd | ⟨edev', w₀', hop', hget', _⟩
    · exact hother s hne (hd.symm.trans hs)
    · exact hne (huniq s edev' w₀' hop' hget').1

theorem DevicesOf.change (h : DevicesOf w i p.core) (ha : Effect.Does cl w q i a)
    (hc : Plan.Change p a p') : DevicesOf w i p'.core := by
  cases hc with
  | quiet hq => intro s; rw [hq.device]; exact h s
  | signal hq => intro s; rw [hq.device]; exact h s
  | @assign q c d edev _ =>
    intro s
    rw [Core.assign_device]
    split
    · rename_i hs
      subst hs
      obtain ⟨fsa, w₀, hop, hget, _⟩ := ha.assigns
      exact Or.inr ⟨edev, w₀, hop, hget, rfl⟩
    · exact h s
  | register => intro s; rw [Core.enroll_device]; exact h s
  | @delete q c s b _ _ =>
    intro s'
    have hdevice : ((c.strike s b).schedule s').device = (c.schedule s').device := by
      unfold Core.strike
      by_cases he : s' = s
      · rw [he, Core.modifySchedule_same]
      · rw [Core.modifySchedule_of_ne _ _ he]
    rw [hdevice]
    exact h s'
  | _ => exact h

/-- A run of changes in a step keeps the ledger, and what follows from it for each change. -/
theorem Ledger.run {acts : List Act} {K : Plan → Prop}
    (hrun : Run Plan.Change ⟨q, w.core⟩ acts p) (hacts : ∀ a ∈ acts, Effect.Does cl w q i a)
    (hr : w.links.Represents q) (hs : Plan.Sound ⟨q, w.core⟩) (hok : w.Final cl i)
    (hl : Ledger w.core)
    (hK : ∀ p a p', a.Final w.core → p.Sound → Ledger p.core → a.Apart p.core →
      Plan.Change p a p' → K p → K p') (hK₀ : K ⟨q, w.core⟩) : Ledger p.core ∧ K p := by
  have h := hrun.preserves (G := Effect.Does cl w q i)
    (J := fun p => p.Sound ∧ DevicesOf w i p.core ∧ Ledger p.core ∧ K p) hacts
    (fun p a p' ha ⟨hs₁, hd, hl₁, hk⟩ hc => by
      have hfinal := final_of_does ha hr hs hok
      have hapart := ha.apart hok hd
      exact ⟨hc.sound hs₁, hd.change ha hc, hl₁.change hs₁ hfinal hapart hc,
        hK p a p' hfinal hs₁ hl₁ hapart hc hk⟩) ⟨hs, fun _ => Or.inl rfl, hl, hK₀⟩
  exact h.2.2

theorem Core.responses_next {c c' : Core} {e : Option Event} (hc : c.nextEvent = (c', e)) :
    c'.responses = c.responses ∧ c'.data = c.data := by
  rcases Core.nextEvent_spec hc with ⟨_, rfl⟩ | ⟨_, _, _, _, rfl⟩ | ⟨_, _, _, _, _, _, rfl⟩ <;>
    exact ⟨rfl, rfl⟩

/-- **One step keeps the ledger**, and leaves a settled block settled. -/
theorem Ledger.step {s : ScheduleId} {b : BlockId} {u : List Invocation}
    (hr : w.links.Represents q) (hs : Plan.Sound ⟨q, w.core⟩) (hok : w.Final cl i)
    (he : Effect cl w q i p) (hl : Ledger w.core) :
    Ledger p.core ∧ ∀ status marks responses, status.terminal = true →
      Settled s b status marks responses (delivered u) w.core →
      Settled s b status marks responses (delivered (u ++ [i])) p.core := by
  rw [delivered_snoc]
  by_cases hop : ∃ e, i.op = .nextEvent e
  · obtain ⟨e, hop⟩ := hop
    rw [delivered_of_next hop]
    obtain ⟨_, hnext⟩ := he.of_next hop
    obtain ⟨hblock, hsched, _, _⟩ := Core.frame_next hnext
    obtain ⟨hresponses, hdata⟩ := Core.responses_next hnext
    have hkey : ∀ b, p.core.mridKey b = w.core.mridKey b := fun b => by
      unfold Core.mridKey
      rw [hblock, hdata]
    refine ⟨hl.congr (fun _ => by rw [hsched]) (fun _ => by rw [hsched]) (fun _ b _ => hkey b)
      (fun _ => by rw [hblock]) hresponses (fun _ _ => by rw [hdata]),
      fun status marks responses _ h => ?_⟩
    obtain ⟨hmarks, htimed⟩ := marksOf_next (u := delivered u) hnext h.timed
    exact ⟨by rw [hsched]; exact h.home, by rw [hblock]; exact h.status,
      (hmarks b).trans h.marks, (Settled.responsesFor_congr (by rw [hsched]) (hkey b) hresponses
        fun _ _ => by rw [hdata]).trans h.responses, htimed⟩
  · have hop : ∀ e, i.op ≠ .nextEvent e := fun e he => hop ⟨e, he⟩
    rw [delivered_of_ne hop, List.append_nil]
    rcases he.run hs hop with ⟨_, henv⟩ | ⟨acts, hrun, hacts⟩
    · exact ⟨hl.environment hs henv, fun status marks responses _ h => h.environment hs henv⟩
    · refine ⟨(Ledger.run (K := fun _ => True) hrun hacts hr hs hok hl
        (fun _ _ _ _ _ _ _ _ _ => trivial) trivial).1, fun status marks responses hterm h => ?_⟩
      exact (Ledger.run hrun hacts hr hs hok hl
        (K := fun p => Settled s b status marks responses (delivered u) p.core)
        (fun p a p' ha hs hl hapart hc hk => hk.change hs hl hterm h.status ha hapart hc) h).2

end Steps

theorem World.Initial.ledger {w : World} (h : w.Initial) : Ledger w.core where
  apart := h.apart
  equipped s b hb := by rw [h.blocks] at hb; cases hb
  unique s b b' hb := by rw [h.blocks] at hb; cases hb
  filed r hr := by rw [h.responses] at hr; cases hr
  single device mRID := by
    unfold Core.responsesTo
    rw [h.responses]
    exact Nat.zero_le _

/-- What holds of two states of a run, the first one first: a block that was done with then
still has its status, no event about it was queued since and no Response about it posted; and
every device has got one terminal Response for every mRID at most. -/
structure TerminalFinal (w : World) (js : List Invocation) (w' : World) : Prop where
  final : ∀ s b, b ∈ (w.core.schedule s).blocks → (w.core.block b).status.terminal = true →
    (w'.core.block b).status = (w.core.block b).status ∧
      marksOf (delivered js ++ w'.core.imEvent) b = marksOf w.core.imEvent b ∧
      w'.core.responsesFor s b = w.core.responsesFor s b
  single : ∀ device mRID,
    ((w'.core.responsesTo device mRID).filter fun r => r.status.terminal).length ≤ 1

/-- **Terminal statuses are final**, in runs of steps that leave done blocks alone. -/
theorem terminal_final {cl : Client} {w₀ w w' : World} {is js : List Invocation}
    (h₀ : w₀.Initial) (h : Run (Guarded (Step cl) (World.Final cl)) w₀ is w)
    (h' : Run (Guarded (Step cl) (World.Final cl)) w js w') : TerminalFinal w js w' := by
  have htidy : ∀ w i, World.Final cl w i → w.Tidy cl i := fun _ _ hok => hok.toTidy
  obtain ⟨q, hr, hs, hl, htimed⟩ := run_invariant
    (J := fun _ p => Ledger p.core ∧ p.core.curEvent.filter Event.ofBlock = []) h h₀ htidy
    ⟨h₀.ledger, by rw [h₀.curEvent]; rfl⟩ (fun is w i q p hok hr hs he hJ =>
      ⟨(Ledger.step (s := 0) (b := 0) (u := []) hr hs hok he hJ.1).1,
        timed_step hJ.2 hs he⟩)
  refine ⟨fun s b hb hterm => ?_, ?_⟩
  · obtain ⟨q', _, _, _, hsettled⟩ := run_invariant_from (J := fun js p => Ledger p.core ∧
      Settled s b (w.core.block b).status (marksOf w.core.imEvent b) (w.core.responsesFor s b)
        (delivered js) p.core) h' hr hs htidy ⟨hl, hb, rfl, rfl, rfl, htimed⟩
      (fun js w i q p hok hr hs he hJ => by
        obtain ⟨hl', hsettled⟩ := Ledger.step (s := s) (b := b) (u := js) hr hs hok he hJ.1
        exact ⟨hl', hsettled _ _ _ hterm hJ.2⟩)
    exact ⟨hsettled.status, hsettled.marks, hsettled.responses⟩
  · obtain ⟨q', _, _, hl'⟩ := run_invariant_from (J := fun _ p => Ledger p.core) h' hr hs htidy hl
      (fun js w i q p hok hr hs he hJ =>
        (Ledger.step (s := 0) (b := 0) (u := []) hr hs hok he hJ).1)
    exact hl'.single

/-- A DERControl that is Canceled and over, on a client whose clock shows 150. -/
def endedControl : World :=
  World.boot (fun e => if e = 1 then Stub.control 7 .canceled 0 100 else {}) 150

theorem endedControl_initial : endedControl.Initial :=
  World.boot_initial 150 [] fun e => by split <;> rfl

/-- The control is scheduled: its block is Completed at once. -/
def expiredControl : World := ((endedControl.scheduleEvent 2 0 1 0).get (by decide)).1

theorem expiredControl_step {cl : Client} :
    Step cl endedControl ⟨.scheduleEvent 0 1 0, 2⟩ expiredControl :=
  Step.of_isSome (by decide) _

/-- The control is scheduled once more: the block that is Completed is found, and left alone. -/
def rescheduledControl : World := ((expiredControl.scheduleEvent 2 0 1 5).get (by decide)).1

theorem rescheduledControl_step {cl : Client} :
    Step cl expiredControl ⟨.scheduleEvent 0 1 5, 2⟩ rescheduledControl :=
  Step.of_isSome (by decide) _

/-- A call of `schedule_event` that places no block leaves blocks that are done with alone. -/
theorem World.final_of_unplaced {cl : Client} {w : World} {s : ScheduleId} {event : StubId}
    {primacy fuel : Nat}
    (hdone : ∀ eb, w.core.getBlock s event = some eb → (w.core.block eb).status.terminal = true)
    (hplaced : (EventCall.mk w s event primacy).placed = none) :
    w.Final cl ⟨.scheduleEvent s event primacy, fuel⟩ := by
  refine ⟨⟨fun x hx eb hget hterm => ?_, fun _ hop => (by cases hop)⟩,
    fun x hx c eb hsome _ => ?_, fun _ hop => (by cases hop), fun _ hop => (by cases hop), ?_,
    fun _ _ _ _ hop => (by cases hop), fun _ hop => (by cases hop)⟩
  · rw [List.mem_singleton.mp hx] at hget hterm
    cases (hdone eb hget).symm.trans hterm
  · rw [List.mem_singleton.mp hx, hplaced] at hsome
    cases hsome
  · rintro c s eb status posted (hop | ⟨hrem, _⟩)
    · cases hop
    · rcases hrem with hop | hop <;> cases hop

/-- The block is Completed, found again by `schedule_event`, and passed by `update_schedule`. -/
theorem terminal_final_rescheduledControl :
    TerminalFinal expiredControl [⟨.scheduleEvent 0 1 5, 2⟩, ⟨.updateSchedule 0, 2⟩]
      ((rescheduledControl.updateSchedule 2 0).get (by decide)) := by
  have hfirst := @expiredControl_step Client.idle
  have hagain := @rescheduledControl_step Client.idle
  have hupdate : Step Client.idle rescheduledControl ⟨.updateSchedule 0, 2⟩
      ((rescheduledControl.updateSchedule 2 0).get (by decide)) :=
    Step.updateSchedule (Option.some_get (by decide)).symm
  have hnew : endedControl.core.getBlock 0 1 = none := by decide
  have hfound : expiredControl.core.getBlock 0 1 = some 0 := by decide
  have hfinal₁ : endedControl.Final Client.idle ⟨.scheduleEvent 0 1 0, 2⟩ :=
    World.final_of_unplaced (fun eb hget => by cases hnew.symm.trans hget) (by decide)
  have hfinal₂ : expiredControl.Final Client.idle ⟨.scheduleEvent 0 1 5, 2⟩ := by
    refine World.final_of_unplaced (fun eb hget => ?_) (by decide)
    obtain rfl := Option.some.inj (hfound.symm.trans hget)
    decide
  have hfinal₃ : rescheduledControl.Final Client.idle ⟨.updateSchedule 0, 2⟩ := by
    have hcalls : rescheduledControl.updateCalls 2 0 = [] := by rfl
    have hqueue : rescheduledControl.queue 0 .active = [] := by decide
    refine ⟨⟨fun x hx => (by cases hx), fun _ hop => (by cases hop)⟩, fun x hx => (by cases hx),
      fun s hop call hcall => ?_, fun s hop b hb => ?_, ?_, fun _ _ _ _ hop => (by cases hop),
      fun _ hop => (by cases hop)⟩
    · obtain rfl := Op.updateSchedule.inj hop
      rw [hcalls] at hcall
      cases hcall
    · obtain rfl := Op.updateSchedule.inj hop
      rw [hqueue] at hb
      cases hb
    · rintro c s eb status posted (hop | ⟨hrem, _⟩)
      · cases hop
      · rcases hrem with hop | hop <;> cases hop
  exact terminal_final endedControl_initial (Run.single ⟨hfinal₁, hfirst⟩)
    ((Run.single ⟨hfinal₂, hagain⟩).snoc ⟨hfinal₃, hupdate⟩)

/-- `event_update` cancels the block that is Completed, and responds once more. -/
theorem not_terminal_final : ¬ ∀ (cl : Client) (w₀ w w' : World) (is js : List Invocation),
    (∀ i ∈ is ++ js, ∀ event, i.op ≠ .deleteBlocks event) → w₀.Initial →
    Run (Step cl) w₀ is w → Run (Step cl) w js w' → TerminalFinal w js w' := by
  intro h
  have hupdate : Step Client.idle expiredControl ⟨.eventUpdate 1, 2⟩
      ((expiredControl.eventUpdate 2 1).get (by decide)) :=
    Step.eventUpdate (Option.some_get (by decide)).symm
  have hfinal := h Client.idle endedControl expiredControl _ [⟨.scheduleEvent 0 1 0, 2⟩]
    [⟨.eventUpdate 1, 2⟩] (by simp) endedControl_initial (Run.single expiredControl_step)
    (Run.single hupdate)
  exact absurd (hfinal.single (some 0) 7) (by decide)

end SeClient
