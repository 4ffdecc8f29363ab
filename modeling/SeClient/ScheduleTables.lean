import SeClient.Causes
import SeClient.HashMaps

/-!
# The tables of the Schedules

The blocks of a Schedule are in a hash table by the mRIDs of their events.  The scheduler sees the
table through `hash_get`, `hash_put`, `hash_delete` and `foreach_h` only: the calls of a run, each
with the answer that the list of the blocks gives, are the calls on a finite map.

**The table gives the same answers** (`HashTable.Represents.answers`) as long as each call meets the
condition under which a hash table is a finite map.
-/

namespace SeClient
open Transition

/-! ## The table -/

/-- `int128_hash`, of the 16 bytes of an mRID; a `char` is signed. -/
def int128Hash (mRID : ℕ) : UInt32 :=
  let str := (List.range 16).map fun n => (UInt8.ofNat (mRID >>> (8 * (15 - n)))).toInt8
  let hash := str.foldl (fun (hash : UInt64) c => (hash <<< 5) + hash + c.toInt64.toUInt64) 5381
  hash.toUInt32

/-- `int128_compare` -/
def int128Compare (a b : ℕ) : ℤ := ((a : ℤ) - b).sign

/-- `new_int128_hash` with `mrid_key`, of blocks with their keys. -/
def blockKind : HashKind (BlockId × ℕ) ℕ := ⟨Prod.snd, int128Hash, int128Compare⟩

theorem int128Compare_eq_zero {a b : ℕ} : int128Compare a b = 0 ↔ a = b := by
  unfold int128Compare
  rw [Int.sign_eq_zero_iff_zero]
  omega

theorem blockKind_lawful : blockKind.Lawful where
  refl _ := int128Compare_eq_zero.mpr rfl
  symm _ _ h := int128Compare_eq_zero.mpr (int128Compare_eq_zero.mp h).symm
  trans _ _ _ h h' :=
    int128Compare_eq_zero.mpr ((int128Compare_eq_zero.mp h).trans (int128Compare_eq_zero.mp h'))
  hash _ _ h := congrArg int128Hash (int128Compare_eq_zero.mp h)

section
variable (held : ℕ → Option (BlockId × ℕ)) (d : BlockId × ℕ) (key key' : ℕ)

theorem heldThen_put :
    heldThen blockKind held (.put d) key = if key = d.2 then some d else held key :=
  if_congr int128Compare_eq_zero rfl rfl

theorem heldThen_delete :
    heldThen blockKind held (.delete key') key = if key = key' then none else held key :=
  if_congr int128Compare_eq_zero rfl rfl

end

/-- `schedule_init` -/
def scheduleInit : HashState (BlockId × ℕ) := ⟨some (.hashNew (2 ^ 6)), .first⟩

/-! ## The calls of a step -/

/-- A call on the table of a Schedule, with its answer. -/
abbrev Lookup := HashCall (BlockId × ℕ) ℕ × Option (BlockId × ℕ)

namespace Core
variable (c : Core)

/-- The map from the keys of a Schedule to its blocks. -/
def registry (s : ScheduleId) (key : ℕ) : Option (BlockId × ℕ) :=
  (c.findBlock s key).map fun eb => (eb, key)

/-- `hash_get (s->blocks, ev->mRID)` -/
def lookup (s : ScheduleId) (event : StubId) : Lookup :=
  (.get (c.data event).mRID, c.registry s (c.data event).mRID)

/-- The calls on the table of `s` in `event_update`. -/
def updateLookups (s : ScheduleId) (event : StubId) : List Lookup :=
  match c.eventStatus event with
  | .active | .canceled | .canceledRandom | .superseded => [c.lookup s event]
  | _ => []

end Core

/-- The calls on the table in `schedule_event`. -/
def EventCall.lookups (x : EventCall) : List Lookup :=
  let c := x.world.core
  match c.getBlock x.sched x.event with
  | some _ => [c.lookup x.sched x.event]
  | none =>
    [c.lookup x.sched x.event, (.put (c.freshBlock, (c.data x.event).mRID), none)]

/-- The calls on the table of `s` in a step. -/
def World.lookups (cl : Client) (w : World) (i : Invocation) (s : ScheduleId) : List Lookup :=
  let c := w.core
  match i.op with
  | .eventUpdate event =>
    if s ∈ (c.stub event).schedules then c.updateLookups s event else []
  | .deleteBlocks event =>
    if s ∈ (c.stub event).schedules then
      [(.delete (c.data event).mRID, c.registry s (c.data event).mRID)]
    else []
  | _ => ((w.calls cl i).filter fun x => x.sched = s).flatMap EventCall.lookups

/-! ## The map of a Schedule -/

namespace Core
variable {c c' : Core} {s s' : ScheduleId} {key key' : ℕ} {b eb : BlockId} {block : EventBlock}

theorem registry_congr (hblocks : (c'.schedule s).blocks = (c.schedule s).blocks)
    (hkey : ∀ b ∈ (c.schedule s).blocks, c'.mridKey b = c.mridKey b) :
    c'.registry s = c.registry s := by
  funext key
  unfold registry
  rw [findBlock_congr key hblocks hkey]

/-- No two blocks of a Schedule have one key. -/
def Apart (c : Core) : Prop :=
  ∀ s, ∀ b ∈ (c.schedule s).blocks, ∀ b' ∈ (c.schedule s).blocks,
    c.mridKey b = c.mridKey b' → b = b'

theorem Apart.congr (h : c.Apart) (hblocks : ∀ s, (c'.schedule s).blocks = (c.schedule s).blocks)
    (hkey : ∀ s, ∀ b ∈ (c.schedule s).blocks, c'.mridKey b = c.mridKey b) : c'.Apart := by
  intro s b hb b' hb' heq
  rw [hblocks] at hb hb'
  rw [hkey s b hb, hkey s b' hb'] at heq
  exact h s b hb b' hb' heq

theorem Apart.findBlock_iff (h : c.Apart) :
    c.findBlock s key = some b ↔ b ∈ (c.schedule s).blocks ∧ c.mridKey b = key := by
  constructor
  · exact findBlock_spec
  · rintro ⟨hb, rfl⟩
    cases hfind : c.findBlock s (c.mridKey b) with
    | none =>
      have hno := List.find?_eq_none.mp hfind b hb
      exact absurd (decide_eq_true rfl) hno
    | some b' =>
      obtain ⟨hb', hkey⟩ := findBlock_spec hfind
      rw [h s b' hb' b hb hkey]

theorem Apart.registry_iff (h : c.Apart) :
    c.registry s key = some (b, key') ↔
      (b ∈ (c.schedule s).blocks ∧ c.mridKey b = key) ∧ key' = key := by
  unfold registry
  rw [Option.map_eq_some_iff]
  constructor
  · rintro ⟨b', hfind, heq⟩
    obtain ⟨rfl, rfl⟩ := Prod.mk.inj heq
    exact ⟨h.findBlock_iff.mp hfind, rfl⟩
  · rintro ⟨hb, rfl⟩
    exact ⟨b, h.findBlock_iff.mpr hb, rfl⟩

theorem registry_eq_none (h : c.findBlock s key = none) : c.registry s key = none := by
  unfold registry
  rw [h]
  rfl

/-! ### A block is registered -/

theorem enroll_mridKey (hb : b ≠ c.freshBlock) :
    (c.enroll s block).mridKey b = c.mridKey b := by
  have hsame : (c.enroll s block).block b = c.block b := Function.update_of_ne hb ..
  unfold mridKey
  rw [hsame]
  rfl

theorem enroll_mridKey_fresh :
    (c.enroll s block).mridKey c.freshBlock = (c.data block.event).mRID := by
  have hnew : (c.enroll s block).block c.freshBlock = block := Function.update_self ..
  unfold mridKey
  rw [hnew]
  rfl

theorem Apart.enroll (h : c.Apart) (hfresh : ∀ s b, b ∈ (c.schedule s).blocks → b ≠ c.freshBlock)
    (hnone : c.findBlock s (c.data block.event).mRID = none) : (c.enroll s block).Apart := by
  have hnew : ∀ b ∈ (c.schedule s).blocks, c.mridKey b ≠ (c.data block.event).mRID := by
    intro b hb heq
    exact absurd (decide_eq_true heq) (List.find?_eq_none.mp hnone b hb)
  intro s' b hb b' hb' heq
  rcases (mem_enroll_blocks c).mp hb with hold | ⟨hs, rfl⟩ <;>
    rcases (mem_enroll_blocks c).mp hb' with hold' | ⟨hs', rfl⟩
  · rw [enroll_mridKey (hfresh s' b hold), enroll_mridKey (hfresh s' b' hold')] at heq
    exact h s' b hold b' hold' heq
  · rw [enroll_mridKey (hfresh s' b hold), enroll_mridKey_fresh] at heq
    exact absurd heq (hnew b (hs' ▸ hold))
  · rw [enroll_mridKey_fresh, enroll_mridKey (hfresh s' b' hold')] at heq
    exact absurd heq.symm (hnew b' (hs ▸ hold'))
  · rfl

/-- **A new block is put into the map.** -/
theorem Apart.registry_enroll (h : c.Apart)
    (hfresh : ∀ s b, b ∈ (c.schedule s).blocks → b ≠ c.freshBlock)
    (hnone : c.findBlock s (c.data block.event).mRID = none) :
    (c.enroll s block).registry s = heldThen blockKind (c.registry s)
      (.put (c.freshBlock, (c.data block.event).mRID)) := by
  have hapart := h.enroll hfresh hnone
  funext key
  refine Option.ext fun d => ?_
  obtain ⟨b, key'⟩ := d
  rw [hapart.registry_iff, mem_enroll_blocks]
  rw [heldThen_put]
  by_cases hkey : key = (c.data block.event).mRID
  · rw [if_pos hkey]
    constructor
    · rintro ⟨⟨hb | ⟨-, rfl⟩, hkeyb⟩, rfl⟩
      · rw [enroll_mridKey (hfresh s b hb)] at hkeyb
        have hfound := h.findBlock_iff.mpr ⟨hb, hkeyb.trans hkey⟩
        rw [hnone] at hfound
        cases hfound
      · rw [hkey]
    · intro heq
      obtain ⟨rfl, rfl⟩ := Prod.mk.inj (Option.some.inj heq)
      exact ⟨⟨Or.inr ⟨rfl, rfl⟩, enroll_mridKey_fresh.trans hkey.symm⟩, hkey.symm⟩
  · rw [if_neg hkey, h.registry_iff]
    refine and_congr_left fun _ => ?_
    constructor
    · rintro ⟨hb | ⟨-, rfl⟩, hkeyb⟩
      · rw [enroll_mridKey (hfresh s b hb)] at hkeyb
        exact ⟨hb, hkeyb⟩
      · exact absurd (hkeyb.symm.trans enroll_mridKey_fresh) hkey
    · rintro ⟨hb, hkeyb⟩
      exact ⟨Or.inl hb, (enroll_mridKey (hfresh s b hb)).trans hkeyb⟩

theorem registry_enroll_of_ne (hs : s' ≠ s)
    (hfresh : ∀ s b, b ∈ (c.schedule s).blocks → b ≠ c.freshBlock) :
    (c.enroll s block).registry s' = c.registry s' := by
  refine registry_congr ?_ fun b hb => enroll_mridKey (hfresh s' b hb)
  rw [enroll_blocks, if_neg hs]

/-! ### A block is freed -/

theorem Apart.strike (h : c.Apart) : (c.strike s eb).Apart := by
  intro s' b hb b' hb' heq
  exact h s' b (c.mem_of_mem_strike hb) b' (c.mem_of_mem_strike hb') heq

/-- **A block is deleted from the map.** -/
theorem Apart.registry_strike (h : c.Apart) (hnodup : (c.schedule s).blocks.Nodup)
    (hfind : c.findBlock s key = some eb) :
    (c.strike s eb).registry s = heldThen blockKind (c.registry s) (.delete key) := by
  have hapart : (c.strike s eb).Apart := h.strike
  obtain ⟨heb, hkeyeb⟩ := findBlock_spec hfind
  funext key'
  refine Option.ext fun d => ?_
  obtain ⟨b, k⟩ := d
  rw [hapart.registry_iff, strike_blocks, if_pos rfl, hnodup.mem_erase_iff]
  rw [heldThen_delete]
  have hsame : (c.strike s eb).mridKey b = c.mridKey b := rfl
  rw [hsame]
  by_cases hkey : key' = key
  · rw [if_pos hkey]
    constructor
    · rintro ⟨⟨⟨hne, hb⟩, hkeyb⟩, -⟩
      exact absurd (h s b hb eb heb (hkeyb.trans (hkey.trans hkeyeb.symm))) hne
    · intro heq
      cases heq
  · rw [if_neg hkey, h.registry_iff]
    refine and_congr_left fun _ => and_congr_left fun hkeyb => ?_
    refine and_iff_right_of_imp fun _ heq => ?_
    subst heq
    exact hkey (hkeyb.symm.trans hkeyeb)

theorem registry_strike_of_ne (hs : s' ≠ s) : (c.strike s eb).registry s' = c.registry s' := by
  refine registry_congr ?_ fun b _ => rfl
  rw [strike_blocks, if_neg hs]

/-- Nothing is deleted where nothing is held. -/
theorem registry_delete_none (hfind : c.findBlock s key = none) :
    heldThen blockKind (c.registry s) (.delete key) = c.registry s := by
  funext key'
  rw [heldThen_delete]
  by_cases hkey : key' = key
  · rw [if_pos hkey, hkey, registry_eq_none hfind]
  · rw [if_neg hkey]

end Core

/-! ## Changes -/

namespace Plan
variable {p p' : Plan} {a : Act} {acts : List Act} {s : ScheduleId} {b : BlockId} {event : StubId}

theorem Sound.unused (h : p.Sound) (s : ScheduleId) (b : BlockId)
    (hb : b ∈ (p.core.schedule s).blocks) : b ≠ p.core.freshBlock := by
  rintro rfl
  exact Nat.lt_irrefl _ (h.alloc hb)

/-- **Every change keeps the keys apart.** -/
theorem Change.apart (hc : Change p a p') (hs : p.Sound) (h : p.core.Apart) : p'.core.Apart := by
  cases hc with
  | quiet hq => exact h.congr hq.blocks fun _ b _ => hq.toStill.ambient.mridKey (hq.event b)
  | signal hq => exact h.congr hq.blocks fun _ b _ => hq.ambient.mridKey (hq.event b)
  | assign => exact h.congr (fun s => Core.assign_blocks _ _ s _) fun _ _ _ => rfl
  | @touch q c t =>
    have hambient : c.Ambient (c.touch t) := ⟨fun _ => rfl, rfl⟩
    exact h.congr (fun _ => rfl) fun _ b _ => hambient.mridKey (Core.touch_event b)
  | register _ _ _ hnone => exact h.enroll hs.unused hnone
  | delete => exact h.strike
  | _ => exact h

theorem run_apart (hr : Run Change p acts p') (hs : p.Sound) (h : p.core.Apart) : p'.core.Apart :=
  (hr.preserves (G := fun _ => True) (J := fun p => p.Sound ∧ p.core.Apart) (fun _ _ => trivial)
    (fun _ _ _ _ hp hc => ⟨hc.sound hp.1, hc.apart hp.1 hp.2⟩) ⟨hs, h⟩).2

/-- Plain changes leave the map of a Schedule alone. -/
theorem run_registry (hr : Run Change p acts p') (hacts : ∀ a ∈ acts, a.Plain) :
    p'.core.registry s = p.core.registry s := by
  obtain ⟨hblocks, -, hevent⟩ := run_plain hr hacts
  exact Core.registry_congr (hblocks s) fun b _ => (run_ambient hr).mridKey (hevent b)

/-- **`schedule_event`** on the table of a Schedule. -/
theorem Admission.answers {x : EventCall} (h : Admission p x p') (hs : p.Sound)
    (hapart : p.core.Apart) (s : ScheduleId) :
    Run (MapAnswers blockKind) (p.core.registry s) (if x.sched = s then x.lookups else [])
      (p'.core.registry s) := by
  obtain ⟨acts, note, hacts, hnote, hrun⟩ := h.run
  obtain ⟨q, c⟩ := p
  have hcore : c = x.world.core := h.core
  subst hcore
  have hget : MapAnswers blockKind (x.world.core.registry s)
      (x.world.core.lookup s x.event) (x.world.core.registry s) := ⟨rfl, rfl⟩
  cases hacts with
  | @known eb hknown =>
    have hsame : p'.core.registry s = x.world.core.registry s := by
      refine run_registry hrun fun a ha => ?_
      rcases List.mem_append.mp ha with ha | ha
      · rcases List.mem_cons.mp ha with rfl | ha
        · trivial
        · split at ha
          · cases ha
          · exact Core.plain_of_mem_placeActs ha
      · rw [hnote a ha]
        trivial
    have hlookups : x.lookups = [x.world.core.lookup x.sched x.event] := by
      unfold EventCall.lookups
      dsimp only
      rw [hknown]
    rw [hsame, hlookups]
    split
    · rename_i hx
      subst hx
      exact Run.single hget
    · exact Run.nil
  | @new eb c expired hnone hreg r =>
    -- the registration, with what comes before and after it
    have hsplit : Run Change ⟨q, x.world.core⟩ ([.quiet] ++ .register x.sched eb x.event ::
        (.touch r.notice :: ((if expired then [.touch { r.notice with
          status := .completed, posted := r.responses }] else []) ++
          ((if expired then [] else c.placeActs q x.sched x.event eb) ++ note)))) p' := by
      simpa [Core.registerActs] using hrun
    -- Only the registration changes the map.
    obtain ⟨p₁, p₂, hbefore, hregister, hafter⟩ := hsplit.split
    have hfirst : p₁.core.registry s = x.world.core.registry s :=
      run_registry hbefore fun a ha => by rw [List.mem_singleton.mp ha]; trivial
    have hlast : p'.core.registry s = p₂.core.registry s := by
      refine run_registry hafter fun a ha => ?_
      rcases List.mem_cons.mp ha with rfl | ha
      · trivial
      · rcases List.mem_append.mp ha with ha | ha
        · split at ha
          · rw [List.mem_singleton.mp ha]
            trivial
          · cases ha
        · rcases List.mem_append.mp ha with ha | ha
          · split at ha
            · cases ha
            · exact Core.plain_of_mem_placeActs ha
          · rw [hnote a ha]
            trivial
    have hs₁ := run_sound hbefore hs
    have hapart₁ := run_apart hbefore hs hapart
    have hmRID := (run_ambient hbefore).mRID x.event
    have heb := r.fresh
    have hlookups : x.lookups = [x.world.core.lookup x.sched x.event,
        (.put (x.world.core.freshBlock, (x.world.core.data x.event).mRID), none)] := by
      unfold EventCall.lookups
      dsimp only
      rw [hnone]
    rw [hlast, hlookups]
    generalize hsched : x.sched = d at *
    generalize hevent : x.event = event at *
    cases hregister with
    | @register q₁ c₁ _ block _ _ _ hfind =>
      split
      · rename_i hx
        subst hx
        refine Run.cons hget (Run.single ⟨rfl, ?_⟩)
        rw [hapart₁.registry_enroll hs₁.unused hfind, hfirst, hmRID, heb]
      · rename_i hx
        rw [Core.registry_enroll_of_ne (fun he => hx he.symm) hs₁.unused, hfirst]
        exact Run.nil

end Plan

/-! ## Steps -/

section Steps
variable {cl : Client} {w w' : World} {q q' : Board} {i : Invocation} {p p' : Plan}
  {c c' : Core} {event : StubId} {key : ℕ} {calls : List EventCall}

/-- The calls of `schedule_event` that `schedule_der` makes. -/
theorem Plan.run_answers (hrun : Run Plan.Admission p calls p') (hs : p.Sound)
    (hapart : p.core.Apart) (s : ScheduleId) :
    Run (MapAnswers blockKind) (p.core.registry s)
      ((calls.filter fun x => x.sched = s).flatMap EventCall.lookups) (p'.core.registry s) ∧
      p'.Sound ∧ p'.core.Apart := by
  induction hrun with
  | nil => exact ⟨Run.nil, hs, hapart⟩
  | @snoc xs p₁ p₂ x _ hx ih =>
    obtain ⟨hbefore, hs₁, hapart₁⟩ := ih
    obtain ⟨acts, note, -, -, hacts⟩ := hx.run
    refine ⟨?_, hx.sound hs₁, Plan.run_apart hacts hs₁ hapart₁⟩
    have hlast := hx.answers hs₁ hapart₁ s
    rw [List.filter_append, List.flatMap_append]
    refine hbefore.trans ?_
    by_cases hsched : x.sched = s
    · rw [if_pos hsched] at hlast
      simpa [hsched] using hlast
    · rw [if_neg hsched] at hlast
      simpa [hsched] using hlast

namespace Environment

theorem mridKey (h : Environment c c') (hs : Plan.Sound ⟨q, c⟩) (s : ScheduleId) (b : BlockId)
    (hb : b ∈ (c.schedule s).blocks) : c'.mridKey b = c.mridKey b := by
  unfold Core.mridKey
  rw [h.block, h.data _ (Or.inl ⟨b, hs.alloc hb, rfl⟩)]

theorem registry (h : Environment c c') (hs : Plan.Sound ⟨q, c⟩) (s : ScheduleId) :
    c'.registry s = c.registry s :=
  Core.registry_congr (by rw [h.schedule]) fun b hb => h.mridKey hs s b hb

theorem apart (h : Environment c c') (hs : Plan.Sound ⟨q, c⟩) (hapart : c.Apart) : c'.Apart :=
  hapart.congr (fun s => by rw [h.schedule]) (h.mridKey hs)

end Environment

theorem Core.nextEvent_registry {e : Option Event} (h : c.nextEvent = (c', e)) :
    (∀ s, c'.registry s = c.registry s) ∧ (c.Apart → c'.Apart) := by
  rcases Core.nextEvent_spec h with ⟨_, rfl⟩ | ⟨_, _, _, _, rfl⟩ | ⟨_, _, _, _, _, _, rfl⟩ <;>
    exact ⟨fun _ => rfl, fun h => h⟩

/-- **Every step keeps the keys apart.** -/
theorem Effect.apart (h : Effect cl w q i p) (hs : Plan.Sound ⟨q, w.core⟩)
    (hapart : w.core.Apart) : p.core.Apart := by
  by_cases hop : ∃ e, i.op = .nextEvent e
  · obtain ⟨e, hop⟩ := hop
    exact (Core.nextEvent_registry (h.of_next hop).2).2 hapart
  · rcases h.run hs (fun e he => hop ⟨e, he⟩) with ⟨-, henv⟩ | ⟨acts, hrun, -⟩
    · exact henv.apart hs hapart
    · exact Plan.run_apart hrun hs hapart

/-- A step that schedules nothing and frees nothing leaves the maps alone. -/
theorem Effect.registry (h : Effect cl w q i p) (hs : Plan.Sound ⟨q, w.core⟩)
    (hnext : ∀ e, i.op ≠ .nextEvent e) (hder : ∀ edev, i.op ≠ .scheduleDer edev)
    (hdelete : ∀ event, i.op ≠ .deleteBlocks event) (hcalls : w.calls cl i = [])
    (s : ScheduleId) : p.core.registry s = w.core.registry s := by
  rcases h.run hs hnext with ⟨-, henv⟩ | ⟨acts, hrun, hacts⟩
  · exact henv.registry hs s
  · refine Plan.run_registry hrun fun a ha => ?_
    rcases (hacts a ha).plain_or with h | ⟨_, _, _, _, h⟩ | ⟨_, edev, _, _, _, hop, _⟩ |
      ⟨event, _, _, _, hop, _⟩
    · exact h
    · exact absurd hcalls h
    · exact absurd hop (hder edev)
    · exact absurd hop (hdelete event)

/-- The loop of `delete_blocks`. -/
theorem Core.deleteLoop_registry {ss : List ScheduleId} (hss : ss.Nodup) (hapart : c.Apart)
    (hnodup : ∀ s, (c.schedule s).blocks.Nodup) (s : ScheduleId) :
    (ss.foldl (fun c s =>
      match c.findBlock s key with
      | some eb => c.strike s eb
      | none => c) c).registry s =
      if s ∈ ss then heldThen blockKind (c.registry s) (.delete key) else c.registry s := by
  induction ss generalizing c with
  | nil => rfl
  | cons s₁ ss ih =>
    obtain ⟨hs₁, hss⟩ := List.nodup_cons.mp hss
    rw [List.foldl_cons]
    cases hfind : c.findBlock s₁ key with
    | none =>
      dsimp only
      -- A Schedule without the block keeps its map, and what `delete` would leave is the same.
      rw [ih hss hapart hnodup]
      by_cases hs : s = s₁
      · subst hs
        rw [if_neg hs₁, if_pos List.mem_cons_self, registry_delete_none hfind]
      · simp only [List.mem_cons, hs, false_or]
    | some eb =>
      have hnodup' : ∀ s, ((c.strike s₁ eb).schedule s).blocks.Nodup := by
        intro s
        rw [strike_blocks]
        split
        · exact (hnodup s₁).erase eb
        · exact hnodup s
      dsimp only
      rw [ih hss hapart.strike hnodup']
      by_cases hs : s = s₁
      · subst hs
        rw [if_neg hs₁, if_pos List.mem_cons_self, hapart.registry_strike (hnodup s) hfind]
      · simp only [List.mem_cons, hs, false_or, registry_strike_of_ne hs]

/-- **`delete_blocks`** on the table of a Schedule. -/
theorem Core.deleteBlocks_answers (hs : Plan.Sound ⟨q, c⟩) (hapart : c.Apart) (s : ScheduleId) :
    Run (MapAnswers blockKind) (c.registry s)
      (if s ∈ (c.stub event).schedules then
        [(.delete (c.data event).mRID, c.registry s (c.data event).mRID)] else [])
      ((c.deleteBlocks event).registry s) := by
  have hquiet : Quiet _ (c.deleteBlocks event) :=
    Quiet.modifyStub (g := fun t => { t with schedules := [] }) rfl fun _ => List.nodup_nil
  have hlast : (c.deleteBlocks event).registry s =
      if s ∈ (c.stub event).schedules then
        heldThen blockKind (c.registry s) (.delete (c.data event).mRID)
      else c.registry s :=
    (registry_congr (hquiet.blocks s) fun b _ =>
      hquiet.toStill.ambient.mridKey (hquiet.event b)).trans
      (deleteLoop_registry (hs.lists event) hapart hs.nodup s)
  rw [hlast]
  split
  · exact Run.single ⟨rfl, rfl⟩
  · exact Run.nil

/-- **Every step** is a sequence of calls on the maps of the Schedules. -/
theorem Step.answers (h : Step cl w i w') (ht : w.Tidy cl i) (hr : w.links.Represents q)
    (hs : Plan.Sound ⟨q, w.core⟩) (hapart : w.core.Apart) (s : ScheduleId) :
    Run (MapAnswers blockKind) (w.core.registry s) (w.lookups cl i s) (w'.core.registry s) := by
  obtain ⟨q', -, he⟩ := h.effect ht hr hs
  have hnone : ∀ {c' : Core}, c'.registry s = w.core.registry s →
      Run (MapAnswers blockKind) (w.core.registry s) [] (c'.registry s) := by
    intro c' hsame
    rw [hsame]
    exact Run.nil
  obtain ⟨op, fuel⟩ := i
  cases op with
  | scheduleDer edev =>
    show Run _ _ (((w.derCalls cl fuel edev).filter fun x => x.sched = s).flatMap
      EventCall.lookups) _
    cases he with
    | ignore hstill hnil =>
      rw [hnil]
      exact hnone (Core.registry_congr (hstill.blocks s) fun b _ =>
        hstill.ambient.mridKey (hstill.event b))
    | @derive _ fsa d _ w₀ _ _ r hget hfsa hstill hd hq hc =>
      have hquiet := w₀.withLFDI_quiet d edev
      have hall := hstill.trans hquiet.toStill
      have hs₁ : Plan.Sound ⟨q, w₀.withLFDI d edev⟩ := hs.still hall
      have hd₂ : d < r.kept.core.freshDevice :=
        Nat.lt_of_lt_of_le hd (Nat.le_trans hquiet.freshDevice (Plan.run_freshDevice r.remove))
      -- Only the programs that are admitted behind all this make calls on the tables.
      have hassign : Plan.Change ⟨World.cleared r.kept.queue d, r.kept.core⟩ (.assign d edev)
          ⟨World.cleared r.kept.queue d, r.kept.core.assign d edev⟩ := Plan.Change.assign hd₂
      have hs₂ := Plan.run_sound (World.clear_run r.kept d) (Plan.run_sound r.remove hs₁)
      have hapart₁ : (w₀.withLFDI d edev).Apart := hapart.congr hall.blocks fun _ b _ =>
        hall.ambient.mridKey (hall.event b)
      have hapart₂ : r.kept.core.Apart := Plan.run_apart r.remove hs₁ hapart₁
      -- the device has its lFDI, the programs that are gone are removed, the device is set
      have hfirst : (r.kept.core.assign d edev).registry s = w.core.registry s := by
        have hkept : r.kept.core.registry s = (w₀.withLFDI d edev).registry s := by
          refine Plan.run_registry r.remove fun a ha => ?_
          obtain ⟨eb, -, -, ha⟩ := Core.mem_removeProgramsActs ha
          exact (Core.dismissActs_only ha).1
        have hassigned : (r.kept.core.assign d edev).registry s = r.kept.core.registry s :=
          Core.registry_congr (Core.assign_blocks _ _ s _) fun _ _ => rfl
        rw [hassigned, hkept]
        exact Core.registry_congr (hall.blocks s) fun b _ => hall.ambient.mridKey (hall.event b)
      have hlast : w'.core.registry s = r.late.core.registry s := by
        dsimp only at hc
        rw [hc]
        exact Core.registry_congr (r.finish.blocks s) fun b _ =>
          r.finish.toStill.ambient.mridKey (r.finish.event b)
      have hcalls := (Plan.run_answers r.admitted (hassign.sound hs₂)
        (hassign.apart hs₂ hapart₂) s).1
      dsimp only at hcalls
      rw [hfirst] at hcalls
      rw [hlast]
      exact hcalls
  | scheduleEvent d event primacy =>
    cases he with
    | admitted hadmitted =>
      exact (Plan.run_answers (Run.single hadmitted) hs hapart s).1
  | deleteBlocks event =>
    cases h with
    | deleteBlocks => exact Core.deleteBlocks_answers hs hapart s
  | eventUpdate event =>
    have hsame := he.registry hs (fun _ hop => by cases hop) (fun _ hop => by cases hop)
      (fun _ hop => by cases hop) rfl s
    dsimp only at hsame
    unfold World.lookups Core.updateLookups
    dsimp only
    rw [hsame]
    split
    · split
      all_goals first | exact Run.nil | exact Run.single ⟨rfl, rfl⟩
    · exact Run.nil
  | nextEvent e => exact hnone ((Core.nextEvent_registry (he.of_next rfl).2).1 s)
  | updateSchedule => exact hnone (he.registry hs (fun _ hop => by cases hop)
      (fun _ hop => by cases hop) (fun _ hop => by cases hop) rfl s)
  | removePrograms => exact hnone (he.registry hs (fun _ hop => by cases hop)
      (fun _ hop => by cases hop) (fun _ hop => by cases hop) rfl s)
  | insertEvent => exact hnone (he.registry hs (fun _ hop => by cases hop)
      (fun _ hop => by cases hop) (fun _ hop => by cases hop) rfl s)
  | environment => exact hnone (he.registry hs (fun _ hop => by cases hop)
      (fun _ hop => by cases hop) (fun _ hop => by cases hop) rfl s)

end Steps

/-! ## Runs with the tables -/

/-- The client, and the calls on the table of each Schedule so far. -/
structure Logged where
  world : World
  log : ScheduleId → List Lookup

/-- One step, with its calls. -/
structure LoggedStep (cl : Client) (l : Logged) (i : Invocation) (l' : Logged) : Prop where
  step : Step cl l.world i l'.world
  log : ∀ s, l'.log s = l.log s ++ l.world.lookups cl i s

namespace Logged
variable (l : Logged)

/-- The client before its first operation, with new tables. -/
structure Initial : Prop where
  world : l.world.Initial
  log : ∀ s, l.log s = []

/-- On the tables that the calls so far leave, no call of the step makes a table grow or shrink,
puts a block at the place of a deleted one, or searches a full table for what is not there. -/
def Served (cl : Client) (i : Invocation) : Prop :=
  ∀ s t, Run (HashState.Answers blockKind) scheduleInit (l.log s) t →
    Unhindered blockKind ((l.world.lookups cl i s).map Prod.fst) t

/-- **The tables answer as the lists of blocks do**, and a traversal goes through the blocks. -/
def TablesAgree : Prop :=
  ∀ s, ∃ ht p, Run (HashState.Answers blockKind) scheduleInit (l.log s) ⟨some ht, p⟩ ∧
    Traverses blockKind ht (l.world.core.registry s)

/-- The tables represent the maps. -/
structure Tabled : Prop where
  apart : l.world.core.Apart
  tables : ∀ s, ∃ ht p, Run (HashState.Answers blockKind) scheduleInit (l.log s) ⟨some ht, p⟩ ∧
    ht.Represents blockKind 6 (l.world.core.registry s)

variable {l} {l' : Logged} {cl : Client} {i : Invocation} {q q' : Board}

theorem Initial.tabled (h : l.Initial) : l.Tabled where
  apart s b hb := by
    rw [h.world.blocks] at hb
    cases hb
  tables s := by
    have hnone : l.world.core.registry s = fun _ => none := by
      funext key
      refine Core.registry_eq_none ?_
      unfold Core.findBlock
      rw [h.world.blocks]
      rfl
    rw [h.log, hnone]
    exact ⟨_, _, Run.nil, HashTable.represents_hashNew blockKind 6⟩

/-- **One step keeps the tables.** -/
theorem Tabled.step (h : l.Tabled) (hstep : LoggedStep cl l i l') (ht : l.world.Tidy cl i)
    (hr : l.world.links.Represents q) (hs : Plan.Sound ⟨q, l.world.core⟩)
    (he : Effect cl l.world q i ⟨q', l'.world.core⟩) (hserved : l.Served cl i) : l'.Tabled where
  apart := he.apart hs h.apart
  tables s := by
    obtain ⟨table, p, hrun, hrep⟩ := h.tables s
    -- What the calls of the step do to the map, they do to the table.
    obtain ⟨table', p', hcalls, hrep'⟩ := hrep.answers blockKind_lawful
      (hstep.step.answers ht hr hs h.apart s) (hserved s _ hrun)
    rw [hstep.log]
    exact ⟨table', p', hrun.trans hcalls, hrep'⟩

theorem Tabled.agree (h : l.Tabled) : l.TablesAgree := by
  intro s
  obtain ⟨table, p, hrun, hrep⟩ := h.tables s
  exact ⟨table, p, hrun, hrep.traverses blockKind_lawful⟩

end Logged
end SeClient
