import SeClient.HashTable
import SeClient.Transition

/-!
# The map of a hash table

What a table holds, and how long: each item can be reached by the probes for its key, and no two
have equal keys.  A put and a delete keep that, and a traversal goes through the items.

**The table is a finite map** (`hash_refines`) as long as it does not have to grow or shrink, a new
item does not get the place of a deleted one, and nothing that is not there is searched for in a
table without a place that has never been used.
-/

namespace SeClient
open Transition

namespace HashTable
variable {δ κ : Type} {k : HashKind δ κ} {ht ht' : HashTable δ} {index : ℕ} {key : κ} {n : ℕ}
  {data : δ}

/-! ## The map of a table -/

variable {m : ℕ} {held : κ → Option δ}

/-- The table of size `2 ^ m` holds a finite map: what is held can be reached, and it is there
once. -/
structure Represents (k : HashKind δ κ) (m : ℕ) (ht : HashTable δ) (held : κ → Option δ) :
    Prop where
  sound : ht.Sound
  size : ht.size = 2 ^ m
  length : ht.table.length = (2 ^ m + 57) / 58
  reached : ∀ index data, ht.cell index = some (some data) →
    ∃ n, ht.probe k (k.getKey data) n = index ∧
      ∀ j < n, ht.cell (ht.probe k (k.getKey data) j) ≠ none
  unique : ∀ i j data data', ht.cell i = some (some data) → ht.cell j = some (some data') →
    k.compare (k.getKey data) (k.getKey data') = 0 → i = j
  held : ∀ key data, held key = some data ↔
    ∃ index, ht.cell index = some (some data) ∧ k.compare key (k.getKey data) = 0

namespace Represents

theorem probe_lt (h : ht.Represents k m held) (key : κ) (n : ℕ) : ht.probe k key n < 2 ^ m := by
  unfold probe
  rw [h.size]
  exact Probing.probe_lt m _ n

theorem range (h : ht.Represents k m held) (key : κ) (n : ℕ) :
    ht.probe k key n / 58 < ht.table.length := by
  have hlt := h.probe_lt key n
  rw [h.length]
  omega

theorem probe_congr (hk : k.Lawful) {key key' : κ} (heq : k.compare key key' = 0) (n : ℕ) :
    ht.probe k key n = ht.probe k key' n := by
  unfold probe
  rw [hk.hash key key' heq]

/-- The first probe that meets the entry of a key. -/
theorem first_entry (hk : k.Lawful) (h : ht.Represents k m held) (hheld : held key = some data) :
    ∃ n, (∀ j < n, ht.Passed k key (ht.probe k key j)) ∧
      ht.cell (ht.probe k key n) = some (some data) ∧ k.compare key (k.getKey data) = 0 := by
  obtain ⟨index, hcell, hkey⟩ := (h.held key data).mp hheld
  obtain ⟨n₀, hn₀, hused⟩ := h.reached index data hcell
  have hsame : ∀ n, ht.probe k (k.getKey data) n = ht.probe k key n :=
    probe_congr hk (hk.symm _ _ hkey)
  have hexists : ∃ n, ∃ e, ht.cell (ht.probe k key n) = some (some e) ∧
      k.compare key (k.getKey e) = 0 :=
    ⟨n₀, data, by rw [← hsame, hn₀]; exact hcell, hkey⟩
  classical
  obtain ⟨n, ⟨e, he, hkeye⟩, hleast⟩ : ∃ n, (∃ e, ht.cell (ht.probe k key n) = some (some e) ∧
      k.compare key (k.getKey e) = 0) ∧ ∀ j < n, ¬∃ e, ht.cell (ht.probe k key j) = some (some e) ∧
      k.compare key (k.getKey e) = 0 :=
    ⟨Nat.find hexists, Nat.find_spec hexists, fun j hj => Nat.find_min hexists hj⟩
  have hle : n ≤ n₀ := by
    by_contra hlt
    refine hleast n₀ (by omega) ⟨data, ?_, hkey⟩
    rw [← hsame, hn₀]
    exact hcell
  have hindex : ht.probe k key n = index :=
    h.unique _ _ e data he hcell (hk.trans _ _ _ (hk.symm _ _ hkeye) hkey)
  refine ⟨n, fun j hj => ⟨?_, fun e' he' hkey' => hleast j hj ⟨e', he', hkey'⟩⟩, ?_, hkey⟩
  · rw [← hsame]
    exact hused j (Nat.lt_of_lt_of_le hj hle)
  · rw [hindex]
    exact hcell

/-- No entry has a key that is not held. -/
theorem not_held (h : ht.Represents k m held) (hheld : held key = none)
    (hcell : ht.cell index = some (some data)) : ¬k.compare key (k.getKey data) = 0 := by
  intro hkey
  have hsome := (h.held key data).mpr ⟨index, hcell, hkey⟩
  rw [hheld] at hsome
  cases hsome

theorem passed_of_used (h : ht.Represents k m held) (hheld : held key = none)
    (hused : ht.cell index ≠ none) : ht.Passed k key index :=
  ⟨hused, fun _ hcell => h.not_held hheld hcell⟩

/-- What does not concern the mark and the counter. -/
theorem congr (h : ht.Represents k m held) (htable : ht'.table = ht.table)
    (hsize : ht'.size = ht.size) : ht'.Represents k m held := by
  have hcell : ht'.cell = ht.cell := by
    funext index
    unfold cell
    rw [htable]
  have hprobe : ht'.probe k = ht.probe k := by
    funext key n
    unfold probe
    rw [hsize]
  constructor
  · unfold Sound
    rw [htable]
    exact h.sound
  · rw [hsize, h.size]
  · rw [htable, h.length]
  · rw [hcell, hprobe]
    exact h.reached
  · rw [hcell]
    exact h.unique
  · rw [hcell]
    exact h.held

/-- **An item is put** at a place that its probes reach. -/
theorem put (hk : k.Lawful) (h : ht.Represents k m held) (hsound : ht'.Sound)
    (hsize : ht'.size = ht.size) (hlength : ht'.table.length = ht.table.length)
    (hcell : ht'.cell = Function.update ht.cell index (some (some data)))
    (hreached : ∃ n, ht.probe k (k.getKey data) n = index ∧
      ∀ j < n, ht.cell (ht.probe k (k.getKey data) j) ≠ none)
    (honly : ∀ i e, ht.cell i = some (some e) → k.compare (k.getKey data) (k.getKey e) = 0 →
      i = index)
    (hplace : ∀ e, ht.cell index = some (some e) → k.compare (k.getKey data) (k.getKey e) = 0) :
    ht'.Represents k m fun key =>
      if k.compare key (k.getKey data) = 0 then some data else held key := by
  have hprobe : ht'.probe k = ht.probe k := by
    funext key n
    unfold probe
    rw [hsize]
  have hused : ∀ i, ht.cell i ≠ none → ht'.cell i ≠ none := by
    intro i hi
    rw [hcell]
    by_cases hindex : i = index
    · rw [hindex, Function.update_self]
      exact Option.some_ne_none _
    · rwa [Function.update_of_ne hindex]
  constructor
  · exact hsound
  · rw [hsize, h.size]
  · rw [hlength, h.length]
  · intro i e he
    rw [hprobe]
    rw [hcell] at he
    by_cases hi : i = index
    · rw [hi, Function.update_self] at he
      obtain rfl := Option.some.inj (Option.some.inj he)
      obtain ⟨n, hn, hbefore⟩ := hreached
      exact ⟨n, hn.trans hi.symm, fun j hj => hused _ (hbefore j hj)⟩
    · rw [Function.update_of_ne hi] at he
      obtain ⟨n, hn, hbefore⟩ := h.reached i e he
      exact ⟨n, hn, fun j hj => hused _ (hbefore j hj)⟩
  · intro i j e e' he he' hkey
    rw [hcell] at he he'
    by_cases hi : i = index
    · by_cases hj : j = index
      · exact hi.trans hj.symm
      · rw [hi, Function.update_self] at he
        rw [Function.update_of_ne hj] at he'
        obtain rfl := Option.some.inj (Option.some.inj he)
        exact hi.trans (honly j e' he' hkey).symm
    · rw [Function.update_of_ne hi] at he
      by_cases hj : j = index
      · rw [hj, Function.update_self] at he'
        obtain rfl := Option.some.inj (Option.some.inj he')
        exact (honly i e he (hk.symm _ _ hkey)).trans hj.symm
      · rw [Function.update_of_ne hj] at he'
        exact h.unique i j e e' he he' hkey
  · intro key e
    rw [hcell]
    by_cases hkey : k.compare key (k.getKey data) = 0
    · rw [if_pos hkey]
      constructor
      · intro he
        obtain rfl := Option.some.inj he
        exact ⟨index, by rw [Function.update_self], hkey⟩
      · rintro ⟨i, hi, hkeye⟩
        by_cases hindex : i = index
        · rw [hindex, Function.update_self] at hi
          exact Option.some.inj hi
        · rw [Function.update_of_ne hindex] at hi
          exact absurd (honly i e hi (hk.trans _ _ _ (hk.symm _ _ hkey) hkeye)) hindex
    · rw [if_neg hkey, h.held]
      constructor
      · rintro ⟨i, hi, hkeye⟩
        have hindex : i ≠ index := by
          rintro rfl
          exact hkey (hk.trans _ _ _ hkeye (hk.symm _ _ (hplace e hi)))
        exact ⟨i, by rw [Function.update_of_ne hindex]; exact hi, hkeye⟩
      · rintro ⟨i, hi, hkeye⟩
        by_cases hindex : i = index
        · rw [hindex, Function.update_self] at hi
          obtain rfl := Option.some.inj (Option.some.inj hi)
          exact absurd hkeye hkey
        · rw [Function.update_of_ne hindex] at hi
          exact ⟨i, hi, hkeye⟩

/-- **An item is deleted.** -/
theorem delete (hk : k.Lawful) (h : ht.Represents k m held) (hsound : ht'.Sound)
    (hsize : ht'.size = ht.size) (hlength : ht'.table.length = ht.table.length)
    (hcell : ht'.cell = Function.update ht.cell index (some none))
    (hdata : ht.cell index = some (some data)) (hkey : k.compare key (k.getKey data) = 0) :
    ht'.Represents k m fun key' => if k.compare key' key = 0 then none else held key' := by
  have hprobe : ht'.probe k = ht.probe k := by
    funext key n
    unfold probe
    rw [hsize]
  have hlive : ∀ {i e}, ht'.cell i = some (some e) ↔ ht.cell i = some (some e) ∧ i ≠ index := by
    intro i e
    rw [hcell]
    by_cases hi : i = index
    · rw [hi, Function.update_self]
      constructor
      · intro he
        cases he
      · intro he
        exact absurd rfl he.2
    · rw [Function.update_of_ne hi]
      exact ⟨fun he => ⟨he, hi⟩, fun he => he.1⟩
  have hused : ∀ i, ht.cell i ≠ none → ht'.cell i ≠ none := by
    intro i hi
    rw [hcell]
    by_cases hindex : i = index
    · rw [hindex, Function.update_self]
      exact Option.some_ne_none _
    · rwa [Function.update_of_ne hindex]
  constructor
  · exact hsound
  · rw [hsize, h.size]
  · rw [hlength, h.length]
  · intro i e he
    obtain ⟨n, hn, hbefore⟩ := h.reached i e (hlive.mp he).1
    rw [hprobe]
    exact ⟨n, hn, fun j hj => hused _ (hbefore j hj)⟩
  · intro i j e e' he he'
    exact h.unique i j e e' (hlive.mp he).1 (hlive.mp he').1
  · intro key' e
    by_cases hkey' : k.compare key' key = 0
    · rw [if_pos hkey']
      constructor
      · intro he
        cases he
      · rintro ⟨i, hi, hkeye⟩
        obtain ⟨hold, hne⟩ := hlive.mp hi
        have heq := hk.trans _ _ _ (hk.symm _ _ hkeye) (hk.trans _ _ _ hkey' hkey)
        exact absurd (h.unique i index e data hold hdata heq) hne
    · rw [if_neg hkey', h.held]
      constructor
      · rintro ⟨i, hi, hkeye⟩
        refine ⟨i, hlive.mpr ⟨hi, ?_⟩, hkeye⟩
        rintro rfl
        obtain rfl := Option.some.inj (Option.some.inj (hi.symm.trans hdata))
        exact hkey' (hk.trans _ _ _ hkeye (hk.symm _ _ hkey))
      · rintro ⟨i, hi, hkeye⟩
        exact ⟨i, (hlive.mp hi).1, hkeye⟩

end Represents
/-! ## Calls on a table that holds a map -/

/-- The table has an item with an equal key. -/
def Present (k : HashKind δ κ) (ht : HashTable δ) (key : κ) : Prop :=
  ∃ index data, ht.cell index = some (some data) ∧ k.compare key (k.getKey data) = 0

/-- A place of the table has never been used. -/
def Vacant (ht : HashTable δ) : Prop := ∃ index < ht.size, ht.cell index = none

/-- The probes for a key get to a place that has never been used, and to no deleted one before. -/
def Clear (k : HashKind δ κ) (ht : HashTable δ) (key : κ) : Prop :=
  ∃ n, ht.cell (ht.probe k key n) = none ∧ ∀ j < n, ht.cell (ht.probe k key j) ≠ some none

theorem Sound.setEntry (h : ht.Sound) (hindex : index / 58 < ht.table.length)
    (hused : ht.cell index ≠ none) (mark : Option (ℕ × ℕ)) (entry : Option δ) :
    ((ht.marked mark).setEntry (place index) entry).Sound ∧
      ((ht.marked mark).setEntry (place index) entry).cell =
        Function.update ht.cell index (some entry) := by
  refine h.write hindex fun g hg hcell => ?_
  have hi : index % 58 ≤ 57 := by omega
  exact hg.set hi (hcell ▸ hused)

theorem Sound.insert (h : ht.Sound) (hindex : index / 58 < ht.table.length)
    (hfree : ht.cell index = none) (data : δ) :
    ∃ ht', (ht.marked (some (place index))).hashInsert data = some ht' ∧ ht'.Sound ∧
      ht'.cell = Function.update ht.cell index (some (some data)) ∧ ht'.size = ht.size ∧
      ht'.table.length = ht.table.length := by
  have hgroup : ∀ g, g.Holds (cellOf g) → cellOf g (index % 58) = ht.cell index →
      (sgInsert none none g (index % 58) (some data)).Holds
        (Function.update (cellOf g) (index % 58) (some (some data))) := by
    intro g hg hcell
    exact hg.insert (by omega) (hcell.trans hfree)
  obtain ⟨hsound, hcell⟩ := h.write hindex hgroup
  exact ⟨_, rfl, hsound, hcell, rfl, List.length_modify ..⟩

theorem Sound.entry_eq (h : ht.Sound) (hindex : index / 58 < ht.table.length)
    (mark : Option (ℕ × ℕ)) {entry : Option δ} (hcell : ht.cell index = some entry) :
    (ht.marked mark).entry (place index) = entry := by
  obtain ⟨g, hg, -, -, helement⟩ := h.cell_group hindex
  have hsome := helement (hcell ▸ Option.some_ne_none entry)
  unfold HashTable.entry place marked
  dsimp only
  rw [hg]
  change (sgElement g (index % 58)).join = _
  rw [hsome, hcell]
  rfl

namespace Represents

theorem present_iff (h : ht.Represents k m held) : ht.Present k key ↔ ∃ d, held key = some d := by
  unfold Present
  constructor
  · rintro ⟨index, d, hcell, hkey⟩
    exact ⟨d, (h.held key d).mpr ⟨index, hcell, hkey⟩⟩
  · rintro ⟨d, hheld⟩
    obtain ⟨index, hcell, hkey⟩ := (h.held key d).mp hheld
    exact ⟨index, d, hcell, hkey⟩

theorem not_present_iff (h : ht.Represents k m held) : ¬ht.Present k key ↔ held key = none := by
  rw [h.present_iff]
  cases held key with
  | none =>
    refine ⟨fun _ => rfl, fun _ => ?_⟩
    rintro ⟨d, hd⟩
    cases hd
  | some d =>
    refine ⟨fun hnone => absurd ⟨d, rfl⟩ hnone, fun hnone => ?_⟩
    cases hnone

/-- The first probe that meets a place that has never been used. -/
theorem first_vacant (h : ht.Represents k m held) (hheld : held key = none)
    (hvacant : ∃ n, ht.cell (ht.probe k key n) = none) :
    ∃ n, (∀ j < n, ht.Passed k key (ht.probe k key j)) ∧ ht.cell (ht.probe k key n) = none := by
  classical
  exact ⟨Nat.find hvacant,
    fun j hj => h.passed_of_used hheld (Nat.find_min hvacant hj), Nat.find_spec hvacant⟩

theorem probes_vacant (h : ht.Represents k m held) (hvacant : ht.Vacant) (key : κ) :
    ∃ n, ht.cell (ht.probe k key n) = none := by
  obtain ⟨index, hlt, hcell⟩ := hvacant
  rw [h.size] at hlt
  obtain ⟨n, -, hn⟩ := Probing.exists_probe (k.hash key).toNat hlt
  refine ⟨n, ?_⟩
  unfold probe
  rw [h.size, hn]
  exact hcell

/-- **An item with a key that is held is replaced.** -/
theorem hashPut_present (hk : k.Lawful) (h : ht.Represents k m held) {old : δ}
    (hheld : held (k.getKey data) = some old) :
    ∃ fuel ht', ht.hashPut k fuel data = some (some ht') ∧
      ht'.Represents k m (heldThen k held (.put data)) := by
  obtain ⟨n, hpassed, hcell, hkey⟩ := h.first_entry hk hheld
  obtain ⟨fuel, mark, hfind⟩ := hashFind_entry h.sound (h.range _) hpassed hcell hkey
  have hused : ht.cell (ht.probe k (k.getKey data) n) ≠ none :=
    hcell ▸ Option.some_ne_none (some old)
  obtain ⟨hsound, hcells⟩ := h.sound.setEntry (h.range _ n) hused mark (some data)
  refine ⟨fuel, _, ?_, put hk h hsound rfl (List.length_modify ..) hcells
    ⟨n, rfl, fun j hj => (hpassed j hj).1⟩ ?_ ?_⟩
  · unfold hashPut
    rw [hfind]
    rfl
  · intro i e he hkeye
    exact h.unique i _ e old he hcell (hk.trans _ _ _ (hk.symm _ _ hkeye) hkey)
  · intro e he
    obtain rfl := Option.some.inj (Option.some.inj (hcell.symm.trans he))
    exact hkey

/-- **An item with a new key is put** at the end of its probes. -/
theorem hashPut_absent (hk : k.Lawful) (h : ht.Represents k m held)
    (hheld : held (k.getKey data) = none) (hmax : ht.items ≠ ht.max)
    (hclear : ht.Clear k (k.getKey data)) :
    ∃ fuel ht', ht.hashPut k fuel data = some (some ht') ∧
      ht'.Represents k m (heldThen k held (.put data)) := by
  obtain ⟨n₀, hn₀, hbefore⟩ := hclear
  have hexists : ∃ n, ht.cell (ht.probe k (k.getKey data) n) = none := ⟨n₀, hn₀⟩
  classical
  obtain ⟨n, hle, hcell, hleast⟩ : ∃ n ≤ n₀, ht.cell (ht.probe k (k.getKey data) n) = none ∧
      ∀ j < n, ht.cell (ht.probe k (k.getKey data) j) ≠ none :=
    ⟨Nat.find hexists, Nat.find_min' hexists hn₀, Nat.find_spec hexists,
      fun j hj => Nat.find_min hexists hj⟩
  -- `hash_find` ends at the first place that was never used, if no deleted one comes before it.
  obtain ⟨fuel, mark, hfind, hmark⟩ := hashFind_place h.sound (h.range _)
    (fun j hj => h.passed_of_used hheld (hleast j hj)) hcell
  have hplace := hmark fun j hj => hbefore j (Nat.lt_of_lt_of_le hj hle)
  obtain ⟨ht', hinsert, hsound, hcells, hsize, hlength⟩ :=
    h.sound.insert (h.range _ n) hcell data
  refine ⟨fuel, { ht' with items := ht'.items + 1 }, ?_,
    put hk h hsound hsize hlength hcells ⟨n, rfl, hleast⟩ ?_ ?_⟩
  · unfold hashPut
    rw [hfind]
    show (if ht.items = ht.max then _ else _) = _
    rw [if_neg hmax]
    dsimp only
    rw [hplace, hinsert]
    rfl
  · intro i e he hkeye
    exact absurd hkeye (h.not_held hheld he)
  · intro e he
    rw [hcell] at he
    cases he

theorem hashDelete_present (hk : k.Lawful) (h : ht.Represents k m held)
    (hheld : held key = some data) (hmin : ht.items ≠ ht.min) :
    ∃ fuel ht', ht.hashDelete k fuel key = some (some ht', some data) ∧
      ht'.Represents k m (heldThen k held (.delete key)) := by
  obtain ⟨n, hpassed, hcell, hkey⟩ := h.first_entry hk hheld
  obtain ⟨fuel, mark, hfind⟩ := hashFind_entry h.sound (h.range _) hpassed hcell hkey
  have hused : ht.cell (ht.probe k key n) ≠ none := hcell ▸ Option.some_ne_none (some data)
  obtain ⟨hsound, hcells⟩ := h.sound.setEntry (h.range _ n) hused mark none
  have hentry := h.sound.entry_eq (h.range _ n) mark hcell
  refine ⟨fuel, { (ht.marked mark).setEntry (place (ht.probe k key n)) none
    with items := ht.items - 1 }, ?_, delete hk h hsound rfl (List.length_modify ..) hcells hcell
      hkey⟩
  unfold hashDelete
  rw [hfind]
  show (if ht.items = ht.min then _ else some (_, HashTable.entry _ _)) = _
  rw [if_neg hmin, hentry]
  rfl

theorem hashFind_absent (h : ht.Represents k m held) (hheld : held key = none)
    (hvacant : ht.Vacant) :
    ∃ fuel mark, ht.hashFind k fuel key = some (ht.marked mark, none) := by
  obtain ⟨n, hpassed, hcell⟩ := h.first_vacant hheld (h.probes_vacant hvacant key)
  obtain ⟨fuel, mark, hfind, -⟩ := hashFind_place h.sound (h.range _) hpassed hcell
  exact ⟨fuel, mark, hfind⟩

theorem hashDelete_absent (h : ht.Represents k m held) (hk : k.Lawful) (hheld : held key = none)
    (hvacant : ht.Vacant) :
    ∃ fuel ht', ht.hashDelete k fuel key = some (some ht', none) ∧
      ht'.Represents k m (heldThen k held (.delete key)) := by
  obtain ⟨fuel, mark, hfind⟩ := h.hashFind_absent hheld hvacant
  have hsame : heldThen k held (.delete key) = held := by
    funext key'
    show (if k.compare key' key = 0 then none else held key') = _
    by_cases hkey : k.compare key' key = 0
    · rw [if_pos hkey]
      cases hother : held key' with
      | none => rfl
      | some d =>
        obtain ⟨index, hcell, hd⟩ := (h.held key' d).mp hother
        exact absurd (hk.trans _ _ _ (hk.symm _ _ hkey) hd) (h.not_held hheld hcell)
    · rw [if_neg hkey]
  refine ⟨fuel, ht.marked mark, ?_, hsame.symm ▸ h.congr rfl rfl⟩
  unfold hashDelete
  rw [hfind]
  rfl

theorem hashGet_eq (hk : k.Lawful) (h : ht.Represents k m held)
    (hends : ht.Present k key ∨ ht.Vacant) :
    ∃ fuel ht', ht.hashGet k fuel key = some (ht', held key) ∧ ht'.Represents k m held := by
  cases hheld : held key with
  | none =>
    have hvacant := hends.resolve_left (h.not_present_iff.mpr hheld)
    obtain ⟨fuel, mark, hfind⟩ := h.hashFind_absent hheld hvacant
    refine ⟨fuel, ht.marked mark, ?_, h.congr rfl rfl⟩
    unfold hashGet
    rw [hfind]
    rfl
  | some data =>
    obtain ⟨n, hpassed, hcell, hkey⟩ := h.first_entry hk hheld
    obtain ⟨fuel, mark, hfind⟩ := hashFind_entry h.sound (h.range _) hpassed hcell hkey
    refine ⟨fuel, ht.marked mark, ?_, h.congr rfl rfl⟩
    have hentry := h.sound.entry_eq (h.range _ n) mark hcell
    unfold hashGet
    rw [hfind, Option.map_some, Option.bind_some, hentry]

end Represents
/-! ## A traversal -/

theorem firstEntry_none {slots : List (Option δ)} {i : ℤ} (h : firstEntry slots i = none) :
    slots.filterMap id = [] := by
  induction slots generalizing i with
  | nil => rfl
  | cons slot slots ih =>
    cases slot with
    | none => exact ih h
    | some data => cases h

theorem firstEntry_some {slots : List (Option δ)} {i j : ℤ}
    (h : firstEntry slots i = some (j, data)) : ∃ n : ℕ, j = i + n ∧
      slots.filterMap id = data :: (slots.drop (n + 1)).filterMap id := by
  induction slots generalizing i with
  | nil => cases h
  | cons slot slots ih =>
    cases slot with
    | none =>
      obtain ⟨n, hj, hslots⟩ := ih h
      refine ⟨n + 1, ?_, hslots⟩
      rw [hj]
      omega
    | some data =>
      obtain ⟨rfl, rfl⟩ := Prod.mk.inj (Option.some.inj h)
      exact ⟨0, (Int.add_zero _).symm, rfl⟩

/-- The items of groups. -/
def itemsOf (groups : List (SparseGroup (Option δ))) : List δ :=
  groups.flatMap fun g => g.elements.filterMap id

/-- The items behind a pointer. -/
def behind (ht : HashTable δ) (p : HashPointer) : List δ :=
  ((ht.slotsAt p).drop (p.i + 1).toNat).filterMap id ++ itemsOf (ht.table.drop (p.g + 1))

variable {p : HashPointer} {groups : List (SparseGroup (Option δ))}

theorem nextGroup_spec (hgroups : ht.table.drop (p.g + 1) = groups) :
    ((nextGroup groups p).2 = none → itemsOf groups = []) ∧
      ∀ data, (nextGroup groups p).2 = some data →
        itemsOf groups = data :: ht.behind (nextGroup groups p).1 ∧
          -1 ≤ (nextGroup groups p).1.i := by
  induction groups generalizing p with
  | nil =>
    refine ⟨fun _ => rfl, fun data h => ?_⟩
    cases h
  | cons sg groups ih =>
    have hdrop : ht.table.drop (p.g + 1 + 1) = groups := by
      rw [← List.drop_drop, hgroups]
      rfl
    have hgroup : ht.table[p.g + 1]? = some sg := by
      rw [← List.head?_drop, hgroups]
      rfl
    unfold nextGroup itemsOf
    rw [List.flatMap_cons]
    cases hfirst : firstEntry sg.elements 0 with
    | none =>
      rw [firstEntry_none hfirst, List.nil_append]
      exact ih (p := ⟨p.g + 1, sg.elements.length⟩) hdrop
    | some found =>
      obtain ⟨n, hn, hslots⟩ := firstEntry_some hfirst
      refine ⟨fun h => absurd h (Option.some_ne_none _), fun data h => ?_⟩
      obtain rfl := Option.some.inj h
      have hi : (found.1 + 1).toNat = n + 1 := by omega
      refine ⟨?_, by show -1 ≤ found.1; omega⟩
      rw [hslots]
      unfold behind slotsAt
      dsimp only
      rw [hgroup, hdrop, hi]
      rfl

/-- **One step of a traversal.** -/
theorem hashNext_spec (ht : HashTable δ) (hi : -1 ≤ p.i) :
    ((ht.hashNext p).2 = none → ht.behind p = []) ∧
      ∀ data, (ht.hashNext p).2 = some data →
        ht.behind p = data :: ht.behind (ht.hashNext p).1 ∧ -1 ≤ (ht.hashNext p).1.i := by
  cases hfirst : firstEntry ((ht.slotsAt p).drop (p.i + 1).toNat) (p.i + 1) with
  | none =>
    have hnext : ht.hashNext p = nextGroup (ht.table.drop (p.g + 1))
        ⟨p.g, Max.max (p.i + 1) (ht.slotsAt p).length⟩ := by
      unfold hashNext
      dsimp only
      rw [hfirst]
    have hbehind : ht.behind p = itemsOf (ht.table.drop (p.g + 1)) := by
      unfold behind
      rw [firstEntry_none hfirst, List.nil_append]
    rw [hnext, hbehind]
    exact nextGroup_spec (p := ⟨p.g, Max.max (p.i + 1) (ht.slotsAt p).length⟩) rfl
  | some found =>
    obtain ⟨n, hn, hslots⟩ := firstEntry_some hfirst
    have hnext : ht.hashNext p = (⟨p.g, found.1⟩, some found.2) := by
      unfold hashNext
      dsimp only
      rw [hfirst]
    rw [hnext]
    refine ⟨fun h => absurd h (Option.some_ne_none _), fun data h => ?_⟩
    obtain rfl := Option.some.inj h
    have hindex : (found.1 + 1).toNat = (p.i + 1).toNat + (n + 1) := by omega
    refine ⟨?_, by show -1 ≤ found.1; omega⟩
    unfold behind
    rw [hslots, List.drop_drop]
    dsimp only
    rw [hindex]
    rfl

/-- **A traversal** visits the items behind its pointer. -/
theorem foreachFrom_eq {fuel : ℕ} (hi : -1 ≤ p.i) (hfuel : (ht.behind p).length < fuel) :
    ht.foreachFrom fuel p = some (ht.behind p) := by
  induction fuel generalizing p with
  | zero => exact absurd hfuel (Nat.not_lt_zero _)
  | succ fuel ih =>
    obtain ⟨hnone, hsome⟩ := hashNext_spec ht hi
    unfold foreachFrom
    rcases hnext : ht.hashNext p with ⟨p', _ | data⟩
    · rw [hnext] at hnone
      rw [hnone rfl]
    · rw [hnext] at hsome
      obtain ⟨hbehind, hi'⟩ := hsome data rfl
      rw [hbehind] at hfuel ⊢
      dsimp only at hfuel ⊢
      rw [ih hi' (Nat.lt_of_succ_lt_succ hfuel)]
      rfl

theorem behind_first : ht.behind .first = itemsOf ht.table := by
  unfold behind HashPointer.first slotsAt
  cases htable : ht.table with
  | nil => rfl
  | cons g groups => rfl

/-- The items of a group are in its cells. -/
theorem items_group {g : SparseGroup (Option δ)} (h : g.Holds (cellOf g)) :
    g.elements.filterMap id = (List.range 58).filterMap fun i => (cellOf g i).join := by
  have hcount : (g.bits >>> 58).toNat = (heldBelow (cellOf g) 58).length := by
    rw [UInt64.toNat_shiftRight, ← h.counted]
    exact Nat.shiftRight_eq_div_pow _ _
  unfold SparseGroup.elements
  rw [hcount, h.slots, List.take_length]
  unfold heldBelow
  rw [List.filterMap_filterMap]
  refine List.filterMap_congr fun i _ => ?_
  cases cellOf g i with
  | none => rfl
  | some entry => cases entry with
    | none => rfl
    | some data => rfl

/-- The item at an index, which is in a group. -/
theorem cell_of_group {g : SparseGroup (Option δ)} {n i : ℕ} (hn : ht.table[n]? = some g)
    (hi : i < 58) (hdata : (cellOf g i).join = some data) :
    ht.cell (58 * n + i) = some (some data) := by
  unfold cell
  rw [show (58 * n + i) / 58 = n by omega, show (58 * n + i) % 58 = i by omega, hn]
  exact Option.join_eq_some_iff.mp hdata

theorem Sound.mem_items (h : ht.Sound) :
    data ∈ itemsOf ht.table ↔ ∃ index, ht.cell index = some (some data) := by
  unfold itemsOf
  rw [List.mem_flatMap]
  constructor
  · rintro ⟨g, hg, hdata⟩
    rw [items_group (h g hg)] at hdata
    obtain ⟨i, hi, hcell⟩ := List.mem_filterMap.mp hdata
    obtain ⟨n, hn⟩ := List.mem_iff_getElem?.mp hg
    exact ⟨58 * n + i, cell_of_group hn (List.mem_range.mp hi) hcell⟩
  · rintro ⟨index, hcell⟩
    unfold cell at hcell
    obtain ⟨g, hg, hindex⟩ := Option.bind_eq_some_iff.mp hcell
    have hmem := List.mem_of_getElem? hg
    refine ⟨g, hmem, ?_⟩
    rw [items_group (h g hmem)]
    exact List.mem_filterMap.mpr ⟨index % 58, List.mem_range.mpr (by omega), by rw [hindex]; rfl⟩

theorem Represents.pairwise_items (h : ht.Represents k m held) :
    (itemsOf ht.table).Pairwise fun d e => ¬k.compare (k.getKey d) (k.getKey e) = 0 := by
  unfold itemsOf
  refine List.pairwise_flatMap.mpr ⟨fun g hg => ?_, List.pairwise_iff_getElem.mpr ?_⟩
  · obtain ⟨n, hn⟩ := List.mem_iff_getElem?.mp hg
    rw [items_group (h.sound g hg)]
    refine List.pairwise_filterMap.mpr (List.pairwise_lt_range.imp_of_mem ?_)
    intro i j hi hj hlt d hd e he hkey
    -- Two places of one group with one key would be the same place.
    have hsame := h.unique _ _ d e (cell_of_group hn (List.mem_range.mp hi) hd)
      (cell_of_group hn (List.mem_range.mp hj) he) hkey
    omega
  · intro a b ha hb hlt d hd e he hkey
    rw [items_group (h.sound _ (List.getElem_mem ha))] at hd
    rw [items_group (h.sound _ (List.getElem_mem hb))] at he
    obtain ⟨i, hi, hd⟩ := List.mem_filterMap.mp hd
    obtain ⟨j, hj, he⟩ := List.mem_filterMap.mp he
    have hi := List.mem_range.mp hi
    have hj := List.mem_range.mp hj
    have hsame := h.unique _ _ d e (cell_of_group (List.getElem?_eq_getElem ha) hi hd)
      (cell_of_group (List.getElem?_eq_getElem hb) hj he) hkey
    omega

/-- **A traversal visits each item that is held once.** -/
theorem Represents.traverses (hk : k.Lawful) (h : ht.Represents k m held) :
    Traverses k ht held := by
  refine ⟨(itemsOf ht.table).length + 1, itemsOf ht.table, ?_, h.pairwise_items, fun d => ?_⟩
  · unfold foreach
    rw [foreachFrom_eq (Int.le_refl _), behind_first]
    rw [behind_first]
    exact Nat.lt_succ_self _
  · rw [h.sound.mem_items, h.held]
    constructor
    · rintro ⟨index, hcell⟩
      exact ⟨index, hcell, hk.refl _⟩
    · rintro ⟨index, hcell, -⟩
      exact ⟨index, hcell⟩

/-! ## Runs -/

theorem cell_hashNew (size index : ℕ) : (hashNew size : HashTable δ).cell index = none := by
  unfold cell hashNew
  dsimp only
  rw [List.getElem?_replicate]
  split
  · rfl
  · rfl

theorem represents_hashNew (k : HashKind δ κ) (m : ℕ) :
    (hashNew (2 ^ m)).Represents k m fun _ => none := by
  constructor
  · intro g hg
    rw [List.eq_of_mem_replicate hg]
    exact newGroup_holds.cells
  · rfl
  · exact List.length_replicate
  · intro index d hcell
    rw [cell_hashNew] at hcell
    cases hcell
  · intro i j d e hcell
    rw [cell_hashNew] at hcell
    cases hcell
  · intro key d
    constructor
    · intro hnone
      cases hnone
    · rintro ⟨index, hcell, -⟩
      rw [cell_hashNew] at hcell
      cases hcell

/-- A call that meets no resize, no deleted place for a new item, and ends. -/
def Meets (k : HashKind δ κ) (ht : HashTable δ) : HashCall δ κ → Prop
  | .put data => ht.Present k (k.getKey data) ∨
      ht.items ≠ ht.max ∧ ht.Clear k (k.getKey data)
  | .delete key => ht.Present k key ∧ ht.items ≠ ht.min ∨ ¬ht.Present k key ∧ ht.Vacant
  | .get key => ht.Present k key ∨ ht.Vacant
  | .iterate => True
  | .next => True

/-- The mark is written before it is read. -/
theorem Meets.marked {c : HashCall δ κ} {mark : Option (ℕ × ℕ)} (h : ht.Meets k c) :
    (ht.marked mark).Meets k c := by
  cases c with
  | put data => exact h
  | delete key => exact h
  | get key => exact h
  | iterate => trivial
  | next => trivial

/-- **One call** on a table that holds a map. -/
theorem Represents.call (hk : k.Lawful) (h : ht.Represents k m held) {c : HashCall δ κ}
    (hmeets : ht.Meets k c) (p : HashPointer) :
    ∃ a ht' p', HashState.Returns k ⟨some ht, p⟩ c a ⟨some ht', p'⟩ ∧ Expected held c a ∧
      ht'.Represents k m (heldThen k held c) := by
  cases c with
  | put data =>
    have hput : ∃ fuel ht', ht.hashPut k fuel data = some (some ht') ∧
        ht'.Represents k m (heldThen k held (.put data)) := by
      cases hheld : held (k.getKey data) with
      | some old => exact h.hashPut_present hk hheld
      | none =>
        -- A new key: there is room, and its probes meet no deleted place.
        obtain ⟨hmax, hclear⟩ := hmeets.resolve_left (h.not_present_iff.mpr hheld)
        exact h.hashPut_absent hk hheld hmax hclear
    obtain ⟨fuel, ht', hresult, hnext⟩ := hput
    refine ⟨none, ht', p, ⟨fuel, ?_⟩, trivial, hnext⟩
    show (ht.hashPut k fuel data).map _ = _
    rw [hresult]
    rfl
  | delete key =>
    have hdelete : ∃ fuel ht', ht.hashDelete k fuel key = some (some ht', held key) ∧
        ht'.Represents k m (heldThen k held (.delete key)) := by
      cases hheld : held key with
      | some data =>
        rcases hmeets with ⟨-, hmin⟩ | ⟨hnot, -⟩
        · exact h.hashDelete_present hk hheld hmin
        · exact absurd (h.present_iff.mpr ⟨data, hheld⟩) hnot
      | none =>
        rcases hmeets with ⟨hpresent, -⟩ | ⟨-, hvacant⟩
        · exact absurd hpresent (h.not_present_iff.mpr hheld)
        · exact h.hashDelete_absent hk hheld hvacant
    obtain ⟨fuel, ht', hresult, hnext⟩ := hdelete
    refine ⟨held key, ht', p, ⟨fuel, ?_⟩, rfl, hnext⟩
    show (ht.hashDelete k fuel key).map _ = _
    rw [hresult]
    rfl
  | get key =>
    obtain ⟨fuel, ht', hresult, hnext⟩ := h.hashGet_eq hk hmeets
    refine ⟨held key, ht', p, ⟨fuel, ?_⟩, rfl, hnext⟩
    show (ht.hashGet k fuel key).map _ = _
    rw [hresult]
    rfl
  | iterate => exact ⟨_, ht, _, ⟨0, rfl⟩, trivial, h⟩
  | next => exact ⟨_, ht, _, ⟨0, rfl⟩, trivial, h⟩

end HashTable

section
variable {δ κ : Type} {k : HashKind δ κ} {m : ℕ} {held : κ → Option δ}

/-- Every call of a run meets the condition where it is made. -/
def Unhindered (k : HashKind δ κ) : List (HashCall δ κ) → HashState δ → Prop
  | [], _ => True
  | c :: calls, s => (∀ ht, s.table = some ht → ht.Meets k c) ∧
      ∀ a s', s.Returns k c a s' → Unhindered k calls s'

theorem HashTable.Represents.refines (hk : k.Lawful) {calls : List (HashCall δ κ)}
    {ht : HashTable δ} {p : HashPointer} (h : ht.Represents k m held)
    (hcalls : Unhindered k calls ⟨some ht, p⟩) : Refines k calls ⟨some ht, p⟩ held := by
  induction calls generalizing ht p held with
  | nil => exact ⟨ht, rfl, h.traverses hk⟩
  | cons c calls ih =>
    obtain ⟨hmeets, hrest⟩ := hcalls
    obtain ⟨a, ht', p', hreturns, hexpected, hnext⟩ := h.call hk (hmeets ht rfl) p
    exact ⟨a, _, hreturns, hexpected, ih hnext (hrest a _ hreturns)⟩

/-- What a call on a finite map returns, a traversal apart. -/
def answerOf (held : κ → Option δ) : HashCall δ κ → Option (Option δ)
  | .put _ => some none
  | .delete key | .get key => some (held key)
  | .iterate | .next => none

/-- A call on a finite map, with its answer. -/
def MapAnswers (k : HashKind δ κ) (held : κ → Option δ) (l : HashCall δ κ × Option δ)
    (held' : κ → Option δ) : Prop :=
  answerOf held l.1 = some l.2 ∧ held' = heldThen k held l.1

/-- A call on a table, with its answer. -/
def HashState.Answers (k : HashKind δ κ) (s : HashState δ) (l : HashCall δ κ × Option δ)
    (s' : HashState δ) : Prop := s.Returns k l.1 l.2 s'

theorem HashState.Returns.answer {s s' : HashState δ} {c : HashCall δ κ} {a a' : Option δ}
    (h : s.Returns k c a s') (hexpected : Expected held c a) (ha : answerOf held c = some a') :
    a = a' := by
  cases c with
  | put data =>
    obtain ⟨fuel, hcall⟩ := h
    obtain ⟨ht, -, hput⟩ := Option.bind_eq_some_iff.mp hcall
    obtain ⟨t, -, hpair⟩ := Option.map_eq_some_iff.mp hput
    exact (Prod.mk.inj hpair).1.symm.trans (Option.some.inj ha)
  | delete key => exact hexpected.trans (Option.some.inj ha)
  | get key => exact hexpected.trans (Option.some.inj ha)
  | iterate => cases ha
  | next => cases ha

/-- **A log of calls on a finite map** is a log of calls on a table that represents it. -/
theorem HashTable.Represents.answers (hk : k.Lawful) {log : List (HashCall δ κ × Option δ)}
    {held' : κ → Option δ} {ht : HashTable δ} {p : HashPointer} (h : ht.Represents k m held)
    (hlog : Run (MapAnswers k) held log held')
    (hcalls : Unhindered k (log.map Prod.fst) ⟨some ht, p⟩) :
    ∃ ht' p', Run (HashState.Answers k) ⟨some ht, p⟩ log ⟨some ht', p'⟩ ∧
      ht'.Represents k m held' := by
  induction log generalizing ht p held with
  | nil =>
    obtain rfl := hlog.eq_of_nil
    exact ⟨ht, p, Run.nil, h⟩
  | cons l log ih =>
    obtain ⟨held₁, ⟨hanswer, rfl⟩, hlog⟩ := hlog.uncons
    obtain ⟨hmeets, hrest⟩ := hcalls
    obtain ⟨a, ht', p', hreturns, hexpected, hnext⟩ := h.call hk (hmeets ht rfl) p
    obtain rfl := hreturns.answer hexpected hanswer
    obtain ⟨ht'', p'', hrun, hlast⟩ := ih hnext hlog (hrest _ _ hreturns)
    exact ⟨ht'', p'', Run.cons hreturns hrun, hlast⟩

/-- `hash_get` only marks a place. -/
theorem HashState.Returns.get {s s' : HashState δ} {key : κ} {a : Option δ}
    (h : s.Returns k (.get key) a s') :
    ∃ ht mark, s.table = some ht ∧ s'.table = some (ht.marked mark) := by
  obtain ⟨fuel, hcall⟩ := h
  obtain ⟨ht, htable, hget⟩ := Option.bind_eq_some_iff.mp hcall
  obtain ⟨r, hr, hpair⟩ := Option.map_eq_some_iff.mp hget
  obtain ⟨r', hr', rfl⟩ := Option.map_eq_some_iff.mp hr
  obtain ⟨m, -, rfl⟩ := Option.map_eq_some_iff.mp hr'
  exact ⟨ht, m.1, htable, congrArg HashState.table (Prod.mk.inj hpair).2.symm⟩

/-- How a search ends does not depend on its fuel. -/
theorem HashTable.hashFind_unique {ht : HashTable δ} {fuel fuel' : ℕ} {key : κ}
    {r r' : HashTable δ × Option (ℕ × ℕ)} (h : ht.hashFind k fuel key = some r)
    (h' : ht.hashFind k fuel' key = some r') : r = r' := by
  obtain ⟨x, hx, rfl⟩ := Option.map_eq_some_iff.mp h
  obtain ⟨x', hx', rfl⟩ := Option.map_eq_some_iff.mp h'
  have hends := Passes.ends_of_loop (Option.join_eq_some_iff.mp hx)
  have hends' := Passes.ends_of_loop (Option.join_eq_some_iff.mp hx')
  rw [Option.some.inj (hends.unique hends')]

theorem HashTable.hashPut_unique {ht : HashTable δ} {fuel fuel' : ℕ} {data : δ}
    {t t' : Option (HashTable δ)} (h : ht.hashPut k fuel data = some t)
    (h' : ht.hashPut k fuel' data = some t') : t = t' := by
  obtain ⟨⟨ht₁, e⟩, hfind, h⟩ := Option.bind_eq_some_iff.mp h
  obtain ⟨r', hfind', h'⟩ := Option.bind_eq_some_iff.mp h'
  obtain rfl := hashFind_unique hfind hfind'
  cases e with
  | some e => exact Option.some.inj (h.symm.trans h')
  | none =>
    dsimp only at h h'
    by_cases hmax : ht₁.items = ht₁.max
    · rw [if_pos hmax] at h h'
      obtain ⟨_, -, rfl⟩ := Option.map_eq_some_iff.mp h
      obtain ⟨_, -, rfl⟩ := Option.map_eq_some_iff.mp h'
      rfl
    · rw [if_neg hmax] at h h'
      exact Option.some.inj (h.symm.trans h')

theorem HashTable.hashDelete_unique {ht : HashTable δ} {fuel fuel' : ℕ} {key : κ}
    {t t' : Option (HashTable δ) × Option δ} (h : ht.hashDelete k fuel key = some t)
    (h' : ht.hashDelete k fuel' key = some t') : t = t' := by
  obtain ⟨⟨ht₁, e⟩, hfind, h⟩ := Option.bind_eq_some_iff.mp h
  obtain ⟨r', hfind', h'⟩ := Option.bind_eq_some_iff.mp h'
  obtain rfl := hashFind_unique hfind hfind'
  cases e with
  | none => exact Option.some.inj (h.symm.trans h')
  | some e =>
    dsimp only at h h'
    by_cases hmin : (ht₁.setEntry e none).items = (ht₁.setEntry e none).min
    · rw [if_pos hmin] at h h'
      obtain ⟨_, -, rfl⟩ := Option.map_eq_some_iff.mp h
      obtain ⟨_, -, rfl⟩ := Option.map_eq_some_iff.mp h'
      rfl
    · rw [if_neg hmin] at h h'
      exact Option.some.inj (h.symm.trans h')

/-- **What a call returns** does not depend on its fuel. -/
theorem HashState.Returns.unique {s s' s'' : HashState δ} {c : HashCall δ κ} {a a' : Option δ}
    (h : s.Returns k c a s') (h' : s.Returns k c a' s'') : a = a' ∧ s' = s'' := by
  obtain ⟨fuel, h⟩ := h
  obtain ⟨fuel', h'⟩ := h'
  refine Prod.mk.inj ?_
  have hsame : ∀ {α : Type} {f : ℕ → HashTable δ → Option α} {g : α → Option δ × HashState δ},
      (∀ ht r r', f fuel ht = some r → f fuel' ht = some r' → r = r') →
      (s.table.bind fun ht => (f fuel ht).map g) = some (a, s') →
      (s.table.bind fun ht => (f fuel' ht).map g) = some (a', s'') → (a, s') = (a', s'') := by
    intro α f g hunique h h'
    obtain ⟨ht, htable, h⟩ := Option.bind_eq_some_iff.mp h
    obtain ⟨ht', htable', h'⟩ := Option.bind_eq_some_iff.mp h'
    obtain rfl := Option.some.inj (htable.symm.trans htable')
    obtain ⟨r, hr, hpair⟩ := Option.map_eq_some_iff.mp h
    obtain ⟨r', hr', hpair'⟩ := Option.map_eq_some_iff.mp h'
    rw [← hpair, ← hpair', hunique ht r r' hr hr']
  cases c with
  | put data =>
    exact hsame (f := fun fuel ht => ht.hashPut k fuel data)
      (fun _ _ _ => HashTable.hashPut_unique) h h'
  | delete key =>
    exact hsame (f := fun fuel ht => ht.hashDelete k fuel key)
      (fun _ _ _ => HashTable.hashDelete_unique) h h'
  | get key =>
    refine hsame (f := fun fuel ht => ht.hashGet k fuel key) (fun ht r r' hr hr' => ?_) h h'
    obtain ⟨x, hx, rfl⟩ := Option.map_eq_some_iff.mp hr
    obtain ⟨x', hx', rfl⟩ := Option.map_eq_some_iff.mp hr'
    rw [HashTable.hashFind_unique hx hx']
  | iterate => exact Option.some.inj (h.symm.trans h')
  | next => exact Option.some.inj (h.symm.trans h')

/-- The first call of a run meets the condition, and so do the calls behind it. -/
theorem Unhindered.cons {calls : List (HashCall δ κ)} {s : HashState δ} {c : HashCall δ κ}
    {a : Option δ} (fuel : ℕ) (s' : HashState δ) (hcall : s.call k fuel c = some (a, s'))
    (hmeets : ∀ ht, s.table = some ht → ht.Meets k c) (hrest : Unhindered k calls s') :
    Unhindered k (c :: calls) s := by
  refine ⟨hmeets, fun a' s'' h => ?_⟩
  obtain ⟨-, rfl⟩ := HashState.Returns.unique ⟨fuel, hcall⟩ h
  exact hrest

/-- An item is looked up in a new table and put there. -/
theorem unhindered_first {size : ℕ}
    (hsize : 0 < size) (hmax : (HashTable.hashNew size : HashTable δ).max ≠ 0)
    (key : κ) (data : δ) (p : HashPointer) :
    Unhindered k [.get key, .put data] ⟨some (.hashNew size), p⟩ := by
  refine ⟨fun ht hht => ?_, fun a s' hget => ⟨fun ht hht => ?_, fun _ _ _ => trivial⟩⟩
  · obtain rfl := Option.some.inj hht
    exact Or.inr ⟨0, hsize, HashTable.cell_hashNew size 0⟩
  · obtain ⟨ht', mark, hht', hs'⟩ := hget.get
    obtain rfl := Option.some.inj hht'
    obtain rfl := Option.some.inj (hs'.symm.trans hht)
    refine HashTable.Meets.marked (Or.inr ⟨?_, 0, HashTable.cell_hashNew size _, fun j hj => ?_⟩)
    · exact hmax.symm
    · exact absurd hj (Nat.not_lt_zero j)

/-- **The hash table is a finite map** in every run that meets no resize, no deleted place for a new
item, and no search for what is not there when each place has been used. -/
theorem hash_refines (hk : k.Lawful) (m : ℕ) (calls : List (HashCall δ κ))
    (hcalls : Unhindered k calls ⟨some (.hashNew (2 ^ m)), .first⟩) :
    Refines k calls ⟨some (.hashNew (2 ^ m)), .first⟩ fun _ => none :=
  (HashTable.represents_hashNew k m).refines hk hcalls

end

/-- Numbers that are their own keys. -/
def natKind : HashKind ℕ ℕ := ⟨id, UInt32.ofNat, fun a b => (a : ℤ) - b⟩

theorem natKind_lawful : natKind.Lawful := by
  have heq : ∀ a b, natKind.compare a b = 0 → a = b := by
    intro a b h
    have hsub : (a : ℤ) - b = 0 := h
    omega
  constructor
  · intro a
    exact Int.sub_self _
  · intro a b h
    rw [heq a b h]
    exact Int.sub_self _
  · intro a b c h h'
    rwa [heq a b h]
  · intro a b h
    rw [heq a b h]

/-- A table of eight places, all in one group. -/
def eightPlaces (bits : UInt64) (slot : List (Option ℕ)) (items : ℤ) (mark : Option (ℕ × ℕ)) :
    HashState ℕ :=
  ⟨some { table := [⟨some slot, bits⟩], size := 8, min := 3, max := 6, items, mark }, .first⟩

/-- Two items with one hash are put into a table of eight places, the first is deleted, and the
second is still found and visited; a third one is not found. -/
def collidingCalls : List (HashCall ℕ ℕ) :=
  [.put 5, .put 13, .get 13, .get 2, .delete 5, .get 13, .iterate, .next]

theorem hash_refines_colliding :
    Refines natKind collidingCalls ⟨some (.hashNew (2 ^ 3)), .first⟩ fun _ => none := by
  refine hash_refines natKind_lawful 3 collidingCalls ?_
  -- both items begin at place 5
  refine .cons 2 (eightPlaces 0x400000000000020 [some 5] 1 (some (0, 5))) rfl ?_ ?_
  · rintro _ ⟨⟩
    refine Or.inr ⟨by decide, 0, HashTable.cell_hashNew _ _, fun j hj => ?_⟩
    exact absurd hj (Nat.not_lt_zero j)
  refine .cons 2 (eightPlaces 0x800000000000060 [some 5, some 13] 2 (some (0, 6))) rfl ?_ ?_
  · rintro _ ⟨⟩
    refine Or.inr ⟨by decide, 1, rfl, fun j hj => ?_⟩
    obtain rfl := Nat.lt_one_iff.mp hj
    exact fun h => by cases h
  refine .cons 2 (eightPlaces 0x800000000000060 [some 5, some 13] 2 none) rfl ?_ ?_
  · rintro _ ⟨⟩
    exact Or.inl ⟨6, 13, rfl, rfl⟩
  refine .cons 2 (eightPlaces 0x800000000000060 [some 5, some 13] 2 (some (0, 2))) rfl ?_ ?_
  · rintro _ ⟨⟩
    exact Or.inr ⟨2, by decide, rfl⟩
  -- the place of the first item stays used, with a null pointer
  refine .cons 2 (eightPlaces 0x800000000000060 [none, some 13] 1 none) rfl ?_ ?_
  · rintro _ ⟨⟩
    exact Or.inl ⟨⟨5, 5, rfl, rfl⟩, by decide⟩
  refine .cons 2 (eightPlaces 0x800000000000060 [none, some 13] 1 (some (0, 5))) rfl ?_ ?_
  · rintro _ ⟨⟩
    exact Or.inl ⟨6, 13, rfl, rfl⟩
  exact ⟨fun _ _ => trivial, fun _ _ _ => ⟨fun _ _ => trivial, fun _ _ _ => trivial⟩⟩

/-- The first item of a table of one place makes it grow, and the place in the new table is null. -/
theorem not_hash_refines : ¬∀ m (calls : List (HashCall ℕ ℕ)), Refines natKind calls
    ⟨some (.hashNew (2 ^ m)), .first⟩ fun _ => none := by
  intro h
  obtain ⟨a, s', ⟨fuel, hcall⟩, -⟩ := h 0 [.put 0]
  cases fuel with
  | zero => cases hcall
  | succ fuel =>
    have hnone : HashState.call natKind (fuel + 1) ⟨some (.hashNew (2 ^ 0)), .first⟩
        (.put 0) = none := by
      cases fuel with
      | zero => rfl
      | succ fuel => rfl
    rw [hnone] at hcall
    cases hcall

end SeClient
