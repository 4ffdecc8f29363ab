import SeClient.Propagation

/-!
# References to a removed Stub

`remove_stub` frees a Stub after it has taken it off the lists of others: off the
dependents of what it requires, and off one list of requirements of each dependent.  What
it reaches depends on the lists as they stand at that moment.  `Forgotten` says that
nothing refers to the Stub any more; `Removable` says which states `remove_stub` can
deal with.
-/

namespace SeClient
open Transition

namespace Web

/-! ## No Stub is listed twice -/

/-- The lists of every Stub are free of duplicates. -/
structure Distinct (w : Web) : Prop where
  deps : ∀ x, (w.ties x).deps.Nodup
  reqs : ∀ x, (w.ties x).reqs.Nodup
  list : ∀ x, (w.ties x).list.Nodup

variable {w w' : Web} {s d x y : StubId} {m : Move} {f : Ties → Ties}

theorem Distinct.set (h : w.Distinct) (hdeps : (f (w.ties x)).deps.Nodup)
    (hreqs : (f (w.ties x)).reqs.Nodup) (hlist : (f (w.ties x)).list.Nodup) :
    (w.set x f).Distinct := by
  have hset : ∀ p : Ties → List StubId, (p (f (w.ties x))).Nodup →
      (∀ y, (p (w.ties y)).Nodup) → ∀ y, (p ((w.set x f).ties y)).Nodup := by
    intro p hx hy y
    by_cases he : y = x
    · subst he; rw [set_same]; exact hx
    · rw [set_of_ne _ he]; exact hy y
  exact ⟨hset Ties.deps hdeps h.deps, hset Ties.reqs hreqs h.reqs, hset Ties.list hlist h.list⟩

theorem Distinct.sever (h : w.Distinct) (d : StubId) (rs : List StubId) :
    (w.sever d rs).Distinct := by
  refine ⟨fun x => (h.deps x).sublist (sever_deps w d rs).1, fun x => ?_, fun x => ?_⟩
  · rw [(sever_frame w d rs).1]; exact h.reqs x
  · rw [(sever_frame w d rs).2.1]; exact h.list x

theorem Distinct.release (h : w.Distinct) (s : StubId) : (w.release s).Distinct := by
  have hsever := h.sever s ((w.ties s).reqs ++ (w.ties s).list)
  exact hsever.set (hsever.deps s) List.nodup_nil List.nodup_nil

theorem Distinct.strike (h : w.Distinct) (s : StubId) : (w.strike s).Distinct := by
  unfold Web.strike
  generalize (w.ties s).deps = ds
  induction ds generalizing w with
  | nil => exact h
  | cons d ds ih =>
    rw [List.foldl_cons]
    refine ih (h.set ?_ ?_ ?_)
    · split <;> exact h.deps d
    · split
      · exact h.reqs d
      · exact (h.reqs d).erase s
    · split
      · exact (h.list d).erase s
      · exact h.list d

theorem Distinct.link (h : w.Distinct) (r d : StubId) : (w.link r d).Distinct :=
  h.set (insertUnique_nodup (h.deps d)) (h.reqs d) (h.list d)

theorem Distinct.shed (h : w.Distinct) (s : StubId) : (w.shed s).Distinct := by
  unfold Web.shed
  split
  · exact h.sever s _
  · exact h.release s

/-- Every move keeps the lists distinct. -/
theorem Step.distinct (h : Step w m w') (hw : w.Distinct) : w'.Distinct := by
  cases h with
  | create =>
    have hset := hw.set (x := w.fresh) (f := fun _ => {}) List.nodup_nil List.nodup_nil
      List.nodup_nil
    exact ⟨hset.deps, hset.reqs, hset.list⟩
  | link r d => exact hw.link r d
  | meet _ hl =>
    exact hw.set (hw.deps _) (hl.nodup_iff.mpr (insertUnique_nodup (hw.reqs _))) (hw.list _)
  | unmeet _ => exact hw.set (hw.deps _) ((hw.reqs _).erase _) (hw.list _)
  | dropOld d =>
    have hsever := hw.sever d (Core.listSubtract (w.ties d).list (w.ties d).reqs)
    exact hsever.set (hsever.deps d) (hsever.reqs d) List.nodup_nil
  | release s => exact hw.release s
  | refresh _ => exact hw.set (hw.deps _) List.nodup_nil (hw.reqs _)
  | @send s _ _ _ _ =>
    have hset := hw.set (x := s) (f := fun t => { t with status := -1 }) (hw.deps _) (hw.reqs _)
      (hw.list _)
    exact ⟨hset.deps, hset.reqs, hset.list⟩
  | answer s _ => exact hw.set (hw.deps s) (hw.reqs s) (hw.list s)
  | moveTo s t =>
    unfold Web.moveTo
    dsimp only
    refine Distinct.release ?_ s
    have hmoved : ∀ {w₁ : Web}, w₁.Distinct →
        ((w₁.link s t).set s fun u => { u with moved := some t }).Distinct := fun h₁ =>
      (h₁.link s t).set ((h₁.link s t).deps s) ((h₁.link s t).reqs s) ((h₁.link s t).list s)
    refine hmoved ?_
    split
    · split
      · exact hw.sever s _
      · exact hw
    · exact hw
  | remove s => exact (hw.shed s).strike s
  | page _ _ => exact ⟨hw.deps, hw.reqs, hw.list⟩
  | ask _ => exact ⟨hw.deps, hw.reqs, hw.list⟩
  | receive _ => exact ⟨hw.deps, hw.reqs, hw.list⟩
  | hang _ => exact ⟨hw.deps, hw.reqs, hw.list⟩

theorem Distinct.run {ms : List Move} (hw : w.Distinct) (h : Run Step w ms w') : w'.Distinct :=
  h.preserves (J := Distinct) (G := fun _ => True) (fun _ _ => trivial)
    (fun _ _ _ _ hw hs => hs.distinct hw) hw

theorem distinct_of_blank (h : ∀ s, w.ties s = {}) : w.Distinct := by
  refine ⟨fun x => ?_, fun x => ?_, fun x => ?_⟩ <;> rw [h x] <;> exact List.nodup_nil

/-! ## What removing a Stub does to another -/

/-- The Stubs whose dependents `s` is taken off when it is removed. -/
def shedding (w : Web) (s : StubId) : List StubId :=
  match (w.ties s).moved with
  | some m => [m]
  | none => (w.ties s).reqs ++ (w.ties s).list

/-- Shedding changes the dependents of other Stubs alone. -/
theorem shed_spec (hw : w.Distinct) (hx : x ≠ s) :
    (s ∈ ((w.shed s).ties x).deps ↔ s ∈ (w.ties x).deps ∧ x ∉ w.shedding s) ∧
      ((w.shed s).ties x).reqs = (w.ties x).reqs ∧ ((w.shed s).ties x).list = (w.ties x).list ∧
      ((w.shed s).ties x).moved = (w.ties x).moved ∧
      ((w.shed s).ties x).status = (w.ties x).status ∧
      (x ∈ ((w.shed s).ties s).deps ↔ x ∈ (w.ties s).deps) ∧
      (w.shed s).requests = w.requests := by
  have hsever : ∀ rs, (s ∈ ((w.sever s rs).ties x).deps ↔ s ∈ (w.ties x).deps ∧ x ∉ rs) ∧
      (x ∈ ((w.sever s rs).ties s).deps ↔ x ∈ (w.ties s).deps) := by
    intro rs
    refine ⟨⟨fun h => ⟨(sever_deps w s rs).1.subset h, fun hmem => ?_⟩, fun h => ?_⟩, fun h => ?_,
      fun h => ?_⟩
    · exact not_mem_sever w s rs (hw.deps x) hmem h
    · exact (sever_deps w s rs).2 s h.1 (Or.inr h.2)
    · exact (sever_deps w s rs).1.subset h
    · exact (sever_deps w s rs).2 x h (Or.inl hx)
  unfold shed shedding
  cases (w.ties s).moved with
  | some m =>
    obtain ⟨hreqs, hlist, hmoved, hstatus, hrequests, _⟩ := sever_frame (x := x) w s [m]
    exact ⟨(hsever [m]).1, hreqs, hlist, hmoved, hstatus, (hsever [m]).2, hrequests⟩
  | none =>
    obtain ⟨hreqs, hlist, hmoved, hstatus, hrequests, _⟩ :=
      sever_frame (x := x) w s ((w.ties s).reqs ++ (w.ties s).list)
    dsimp only
    unfold release
    rw [set_of_ne _ hx, set_same]
    exact ⟨(hsever _).1, hreqs, hlist, hmoved, hstatus, (hsever _).2, hrequests⟩

/-- Striking takes `s` off one of the two lists of each dependent. -/
theorem strike_spec (hw : w.Distinct) :
    ((w.strike s).ties x).deps = (w.ties x).deps ∧
      ((w.strike s).ties x).moved = (w.ties x).moved ∧
      (s ∈ ((w.strike s).ties x).reqs ↔
        s ∈ (w.ties x).reqs ∧ ¬ (x ∈ (w.ties s).deps ∧ 0 ≤ (w.ties x).status)) ∧
      (s ∈ ((w.strike s).ties x).list ↔
        s ∈ (w.ties x).list ∧ ¬ (x ∈ (w.ties s).deps ∧ (w.ties x).status < 0)) ∧
      (w.strike s).requests = w.requests := by
  unfold strike
  generalize (w.ties s).deps = ds
  induction ds generalizing w with
  | nil => simp
  | cons d ds ih =>
    rw [List.foldl_cons]
    generalize hg : (fun u : Ties => if u.status < 0 then { u with list := u.list.erase s }
      else { u with reqs := u.reqs.erase s }) = g at ih ⊢
    have hdistinct : (w.set d g).Distinct := by
      subst hg
      refine hw.set ?_ ?_ ?_
      · split <;> exact hw.deps d
      · split
        · exact hw.reqs d
        · exact (hw.reqs d).erase s
      · split
        · exact (hw.list d).erase s
        · exact hw.list d
    obtain ⟨hdeps, hmoved, hreqs, hlist, hrequests⟩ := ih hdistinct
    refine ⟨hdeps.trans ?_, hmoved.trans ?_, hreqs.trans ?_, hlist.trans ?_, hrequests⟩
    all_goals by_cases hx : x = d
    · subst hx; rw [set_same, ← hg]; dsimp only; split <;> rfl
    · rw [set_of_ne _ hx]
    · subst hx; rw [set_same, ← hg]; dsimp only; split <;> rfl
    · rw [set_of_ne _ hx]
    · subst hx
      rw [set_same, ← hg]
      dsimp only
      split
      · rename_i hneg
        have : ¬ 0 ≤ (w.ties x).status := not_le.mpr hneg
        simp [this]
      · rename_i hneg
        have hpos := not_lt.mp hneg
        simp [hpos, (hw.reqs x).mem_erase_iff]
    · rw [set_of_ne _ hx]
      simp [hx]
    · subst hx
      rw [set_same, ← hg]
      dsimp only
      split
      · rename_i hneg
        simp [hneg, (hw.list x).mem_erase_iff]
      · rename_i hneg
        simp [hneg]
    · rw [set_of_ne _ hx]
      simp [hx]

/-- `remove_stub` can deal with `s` in this state, where `past` are the moves so far and a
Stub they remove is gone. -/
structure Removable (w : Web) (past : List Move) (s : StubId) : Prop where
  /-- No Stub is redirected to it. -/
  moved : ∀ d, d ≠ s → Move.remove d ∉ past → (w.ties d).moved ≠ some s
  /-- No request of its own waits for a response. -/
  waiting : ∀ q ∈ w.requests, q.context ≠ some s
  /-- Each resource it was linked to is listed as a requirement of it, which an incomplete
  one is not; or is the one it moved to. -/
  required : ∀ d, d ≠ s → Move.remove d ∉ past → s ∈ (w.ties d).deps → d ∈ w.shedding s
  /-- A Stub that requires it depends on it and is not being updated. -/
  met : ∀ d, d ≠ s → Move.remove d ∉ past → s ∈ (w.ties d).reqs →
    d ∈ (w.ties s).deps ∧ 0 ≤ (w.ties d).status
  /-- A Stub that required it before an update depends on it and is still being updated. -/
  old : ∀ d, d ≠ s → Move.remove d ∉ past → s ∈ (w.ties d).list →
    d ∈ (w.ties s).deps ∧ (w.ties d).status < 0

/-- Nothing in the web refers to `s`. -/
structure Forgotten (w : Web) (past : List Move) (s : StubId) : Prop where
  deps : ∀ d, d ≠ s → Move.remove d ∉ past → s ∉ (w.ties d).deps
  reqs : ∀ d, d ≠ s → Move.remove d ∉ past → s ∉ (w.ties d).reqs
  list : ∀ d, d ≠ s → Move.remove d ∉ past → s ∉ (w.ties d).list
  moved : ∀ d, d ≠ s → Move.remove d ∉ past → (w.ties d).moved ≠ some s
  requests : ∀ q ∈ w.requests, q.context ≠ some s

/-- Removing a Stub leaves no reference exactly where it can be dealt with. -/
theorem forgotten_remove (hw : w.Distinct) {past : List Move} :
    (w.remove s).Forgotten past s ↔ w.Removable past s := by
  have hspec := fun x (hx : x ≠ s) => strike_spec (s := s) (x := x) (hw.shed s)
  have hshed := fun x (hx : x ≠ s) => shed_spec (s := s) (x := x) hw hx
  have hrequests : (w.remove s).requests = w.requests := by
    refine (strike_spec (s := s) (x := s) (hw.shed s)).2.2.2.2.trans ?_
    unfold shed
    split
    · exact (sever_frame (x := s) w s _).2.2.2.2.1
    · exact (sever_frame (x := s) w s _).2.2.2.2.1
  constructor
  · intro h
    refine ⟨fun d hd hl => ?_, ?_, fun d hd hl hs => ?_, fun d hd hl hs => ?_, fun d hd hl hs => ?_⟩
    · have := h.moved d hd hl
      rwa [remove, (hspec d hd).2.1, (hshed d hd).2.2.2.1] at this
    · rw [← hrequests]; exact h.requests
    · by_contra hno
      refine h.deps d hd hl ?_
      rw [remove, (hspec d hd).1, (hshed d hd).1]
      exact ⟨hs, hno⟩
    · by_contra hno
      refine h.reqs d hd hl ?_
      rw [remove, (hspec d hd).2.2.1, (hshed d hd).2.1, (hshed d hd).2.2.2.2.1,
        (hshed d hd).2.2.2.2.2.1]
      exact ⟨hs, hno⟩
    · by_contra hno
      refine h.list d hd hl ?_
      rw [remove, (hspec d hd).2.2.2.1, (hshed d hd).2.2.1, (hshed d hd).2.2.2.2.1,
        (hshed d hd).2.2.2.2.2.1]
      exact ⟨hs, hno⟩
  · intro h
    refine ⟨fun d hd hl hs => ?_, fun d hd hl hs => ?_, fun d hd hl hs => ?_, fun d hd hl => ?_, ?_⟩
    · rw [remove, (hspec d hd).1, (hshed d hd).1] at hs
      exact hs.2 (h.required d hd hl hs.1)
    · rw [remove, (hspec d hd).2.2.1, (hshed d hd).2.1, (hshed d hd).2.2.2.2.1,
        (hshed d hd).2.2.2.2.2.1] at hs
      exact hs.2 (h.met d hd hl hs.1)
    · rw [remove, (hspec d hd).2.2.2.1, (hshed d hd).2.2.1, (hshed d hd).2.2.2.2.1,
        (hshed d hd).2.2.2.2.2.1] at hs
      exact hs.2 (h.old d hd hl hs.1)
    · rw [remove, (hspec d hd).2.1, (hshed d hd).2.2.2.1]
      exact h.moved d hd hl
    · rw [hrequests]; exact h.waiting

end Web

namespace Core
variable {c₀ c₁ c c' : Core} {s : StubId} {cl : Client} {fuel : Nat}

/-- Nothing refers to `s`: no Stub that is left, no request and no event. -/
structure Forgotten (c : Core) (past : List Move) (s : StubId) : Prop where
  web : c.web.Forgotten past s
  events : ∀ e ∈ c.imEvent ++ c.curEvent, e.data ≠ .stub s

theorem removeStub_events (h : c.removeStub cl fuel s = some c') :
    ∀ e ∈ c'.imEvent ++ c'.curEvent, e.data ≠ .stub s := by
  obtain ⟨c₁, _, h⟩ := Option.bind_eq_some_iff.mp h
  obtain rfl := Option.some.inj h
  intro e he
  unfold removeEvent at he
  rcases List.mem_append.mp he with he | he
  · exact of_decide_eq_true (List.mem_filter.mp he).2
  · exact of_decide_eq_true (List.mem_filter.mp he).2

/-- **No dangling references.**  In every state a run of calls passes through, removing a
Stub leaves nothing that refers to it exactly where `remove_stub` can deal with it. -/
theorem no_dangling {is : List (Retrieval × List Move)} {ms : List Move}
    (h₀ : ∀ s, c₀.web.ties s = {}) (hrun : Run (Performs cl) c₀ is c₁)
    (hmid : Run Web.Step c₁.web ms c.web) (h : c.removeStub cl fuel s = some c') :
    c'.Forgotten (is.flatMap Prod.snd ++ ms) s ↔
      c.web.Removable (is.flatMap Prod.snd ++ ms) s := by
  have hdistinct : c.web.Distinct :=
    (Web.distinct_of_blank h₀).run ((Performs.run hrun).trans hmid)
  rw [← Web.forgotten_remove hdistinct, ← removeStub_web h]
  exact ⟨fun h => h.web, fun hweb => ⟨hweb, removeStub_events h⟩⟩

/-- An EndDeviceList with one item. -/
def edevReply (item : Name) : Reply :=
  { status := 200
    body := some ⟨115, { path := some "/edev", all := 1, results := 1 }, [{ path := some item }]⟩ }

/-- The list is fetched and updated, and it has another item now: Stub 1 is to be removed. -/
def listedCalls : List Retrieval :=
  [.getResource 0 115 "/edev" 1, .processHttp 0 (edevReply "/edev/1"), .updateResource 0,
    .processHttp 0 (edevReply "/edev/2")]

/-- The client after these calls. -/
def itemReplaced : Core :=
  (listedCalls.foldlM (perform Client.paths 4) (blank 1000000)).get (by decide +kernel)

/-- Nothing refers to Stub 1 when it has been removed. -/
theorem no_dangling_listed : ∃ is : List (Retrieval × List Move), is.map Prod.fst = listedCalls ∧
    Run (Performs Client.paths) (blank 1000000) is itemReplaced ∧
    ⟨.stub 1, .resourceRemove, 0⟩ ∈ itemReplaced.imEvent ∧
    ((itemReplaced.removeStub Client.paths 4 1).get (by decide +kernel)).Forgotten
      (is.flatMap Prod.snd ++ []) 1 := by
  have hlisted : listedCalls.foldlM (perform Client.paths 4) (blank 1000000) =
      some itemReplaced := by
    unfold itemReplaced
    exact (Option.some_get _).symm
  obtain ⟨is, hcalls, hrun⟩ := performs_of_foldlM hlisted
  refine ⟨is, hcalls, hrun, by decide +kernel, (no_dangling (fun _ => rfl) hrun Run.nil
    (Option.some_get _).symm).mpr ?_⟩
  -- the list has Stub 2 as its only requirement, and Stub 2 depends on the list
  have hties : ∀ d, d ≠ 1 → (itemReplaced.web.ties d).moved = none ∧
      1 ∉ (itemReplaced.web.ties d).deps ∧ 1 ∉ (itemReplaced.web.ties d).reqs ∧
      1 ∉ (itemReplaced.web.ties d).list
    | 0, _ => by decide +kernel
    | 1, h => absurd rfl h
    | 2, _ => by decide +kernel
    | d + 3, _ => ⟨rfl, List.not_mem_nil, List.not_mem_nil, List.not_mem_nil⟩
  refine ⟨fun d hd _ hmoved => ?_, ?_, fun d hd _ h => ?_, fun d hd _ h => ?_, fun d hd _ h => ?_⟩
  · rw [(hties d hd).1] at hmoved
    cases hmoved
  · have hnone : itemReplaced.web.requests = [] := rfl
    rw [hnone]
    exact fun _ hq => absurd hq List.not_mem_nil
  · exact absurd h (hties d hd).2.1
  · exact absurd h (hties d hd).2.2.1
  · exact absurd h (hties d hd).2.2.2

/-- The list is fetched; it and its item, Stub 1, are updated, and the list has another item
now: Stub 1 is to be removed, with its GET still waiting. -/
def edevCalls : List Retrieval :=
  [.getResource 0 115 "/edev" 1, .processHttp 0 (edevReply "/edev/1"), .updateResource 0,
    .updateResource 1, .processHttp 0 (edevReply "/edev/2")]

/-- The request that waits refers to the Stub after it is removed. -/
theorem not_no_dangling :
    ∃ c c', edevCalls.foldlM (perform Client.paths 4) (blank 1000000) = some c ∧
      ⟨.stub 1, .resourceRemove, 0⟩ ∈ c.imEvent ∧ c.removeStub Client.paths 4 1 = some c' ∧
      ¬ ∀ past, c'.Forgotten past 1 := by
  have hres : ((edevCalls.foldlM (perform Client.paths 4) (blank 1000000)).bind fun c =>
      (c.removeStub Client.paths 4 1).map fun c' => (c.imEvent, c'.requests)) =
        some ([⟨.stub 1, .resourceRemove, 0⟩], [⟨0, .get, "/edev/1", none, some 1⟩]) := by
    decide +kernel
  obtain ⟨c, hc, hres⟩ := Option.bind_eq_some_iff.mp hres
  obtain ⟨c', hc', hres⟩ := Option.map_eq_some_iff.mp hres
  obtain ⟨hevents, hrequests⟩ := Prod.mk.inj hres
  refine ⟨c, c', hc, ?_, hc', fun h =>
    (h []).web.requests ⟨0, .get, "/edev/1", none, some 1⟩ ?_ rfl⟩
  · rw [hevents]; exact List.mem_singleton_self _
  · rw [show c'.web.requests = _ from hrequests]; exact List.mem_singleton_self _

end Core
end SeClient
