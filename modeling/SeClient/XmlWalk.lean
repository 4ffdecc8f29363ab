import SeClient.SchemaWalk
import SeClient.XmlDriver

/-!
# The walk of the XML driver

`xml_next` looks for the current tag from an entry on and, behind the last one, from the first.
-/

namespace SeClient

variable {ρ : Type} {S : Schema} {k : XmlSource ρ} {f g : Front (XmlInput ρ)} {i : ℕ}
  {stack : List StackItem} {t : StackItem} {fuel : ℕ}

/-- `xml_rebuffer` -/
def XmlInput.Rebuffer (a b : XmlInput ρ) : Prop := ∃ source, b = { a with source := source }

/-- A function of the driver leaves the entry, and the state or sets PARSE_INVALID. -/
def Stays (f g : Front (XmlInput ρ)) : Prop :=
  g.se = f.se ∧ (g.state = f.state ∨ g.state = .parseInvalid)

theorem Stays.invalid {h : Front (XmlInput ρ)} (hs : Stays f g) (hse : h.se = g.se)
    (hstate : h.state = g.state ∨ h.state = .parseInvalid) : Stays f h := by
  refine ⟨hse.trans hs.1, ?_⟩
  rcases hstate with hsame | hinvalid
  · rw [hsame]
    exact hs.2
  · exact Or.inr hinvalid

theorem parseToken_stays (k : XmlSource ρ) (f : Front (XmlInput ρ)) : Stays f (parseToken k f) := by
  unfold parseToken
  split
  · dsimp only
    split
    · exact ⟨rfl, Or.inr rfl⟩
    · exact ⟨rfl, Or.inl rfl⟩
    · exact ⟨rfl, Or.inl rfl⟩
  · exact ⟨rfl, Or.inl rfl⟩

theorem parseTextToken_stays (f : Front (XmlInput ρ)) : Stays f (parseTextToken k f).2 := by
  have htoken := parseToken_stays k f
  unfold parseTextToken
  dsimp only
  split
  · exact htoken.invalid rfl (Or.inl rfl)
  · exact htoken.invalid rfl (Or.inl rfl)
  · exact htoken

theorem startTag_stays (i : ℕ) (f : Front (XmlInput ρ)) : Stays f (startTag S k i f).2 := by
  have htoken := parseToken_stays k f
  have htag : Stays f (if (parseToken k f).input.empty then
      (false, { parseToken k f with state := .parseInvalid })
    else if S.nameOf i ≠ k.name (parseToken k f).input.source then (false, parseToken k f)
    else
      let empty := (parseToken k f).input.token = .emptyTag
      let f := { parseToken k f with
        input := { (parseToken k f).input with empty := empty, needToken := true } }
      if empty ∧ (S.element i).simple then (false, { f with state := .parseInvalid })
      else (true, f)).2 := by
    dsimp only
    split
    · exact htoken.invalid rfl (Or.inr rfl)
    · split
      · exact htoken
      · split
        · exact htoken.invalid rfl (Or.inr rfl)
        · exact htoken.invalid rfl (Or.inl rfl)
  unfold startTag
  dsimp only
  split
  · exact htag
  · exact htag
  · exact htoken
  · exact htoken
  · exact htoken.invalid rfl (Or.inr rfl)

theorem endTag_stays (i : ℕ) (f : Front (XmlInput ρ)) : Stays f (endTag S k i f).2 := by
  have htoken := parseToken_stays k f
  unfold endTag
  dsimp only
  split
  · exact htoken.invalid rfl (Or.inl rfl)
  · exact htoken

theorem skipLoop_stays (depth : ℕ) (f : Front (XmlInput ρ)) :
    (skipLoop k fuel depth f).2.se = f.se ∧ (skipLoop k fuel depth f).2.state = f.state := by
  induction fuel generalizing depth f with
  | zero =>
    cases depth with
    | zero => exact ⟨rfl, rfl⟩
    | succ depth => exact ⟨rfl, rfl⟩
  | succ fuel ih =>
    cases depth with
    | zero => exact ⟨rfl, rfl⟩
    | succ depth =>
      unfold skipLoop
      dsimp only
      split
      · exact ih _ _
      · exact ih _ _
      · exact ⟨rfl, rfl⟩
      · exact ⟨rfl, rfl⟩
      · exact ih _ _

theorem xmlSkipUnknown_stays (f : Front (XmlInput ρ)) :
    (xmlSkipUnknown k fuel f).2.se = f.se ∧ (xmlSkipUnknown k fuel f).2.state = f.state := by
  unfold xmlSkipUnknown
  dsimp only
  split
  · exact ⟨rfl, rfl⟩
  · exact skipLoop_stays 1 _

/-- An element that is found stands in the type. -/
theorem findElement_entry {h found : ℕ} {name : CString}
    (hfound : findElement S (h + 1) name = some found) : S.Entry h found := by
  have hmem := List.mem_of_find?_eq_some hfound
  rw [List.mem_range'_1] at hmem
  exact ⟨⟨hmem.1, fun k hk hk' => S.n_ne_zero (i := h + 1) hk (by omega)⟩,
    S.n_ne_zero hmem.1 hmem.2⟩

/-- Where the loop of `xml_next` stands, at the entry `se`. -/
def XmlAt (S : Schema) (stack : List StackItem) (se : ℕ) (f : Front (XmlInput ρ)) : Prop :=
  match f.state, stack with
  | .parseNext, [] => (S.element se).n = 0
  | .parseNext, t :: _ => S.Place (S.element t.se).index se
  | .parseElement, t :: _ => S.Entry (S.element t.se).index (se - 1)
  | .parseEnd, _ => True
  | .parseInvalid, _ => True
  | _, _ => False

/-- Where `xml_next` leads from the entry `se`. -/
def XmlLeads (S : Schema) (stack : List StackItem) (se : ℕ) (g : Front (XmlInput ρ)) : Prop :=
  match g.state with
  | .parseElement => ∃ t rest, stack = t :: rest ∧ S.Entry (S.element t.se).index g.se
  | .parseNext => g.se = se
  | .parseEnd => True
  | .parseInvalid => True
  | _ => False

/-- The loop ends where its state is not PARSE_NEXT. -/
theorem XmlAt.leads {se se₀ : ℕ} (hat : XmlAt S stack se f) (hstate : f.state ≠ .parseNext) :
    XmlLeads S stack se₀ { f with se := se - 1 } := by
  unfold XmlAt at hat
  unfold XmlLeads
  dsimp only
  cases hf : f.state with
  | parseNext => exact absurd hf hstate
  | parseElement =>
    rw [hf] at hat
    cases stack with
    | nil => exact hat.elim
    | cons t rest => exact ⟨t, rest, rfl, hat⟩
  | parseEnd => exact trivial
  | parseInvalid => exact trivial
  | _ =>
    rw [hf] at hat
    exact hat.elim

/-- A function of the driver that was called in PARSE_NEXT. -/
theorem Stays.leads {se : ℕ} (hs : Stays f g) (hstate : f.state = .parseNext) (hse : f.se = se) :
    XmlLeads S stack se g := by
  unfold XmlLeads
  rcases hs.2 with hsame | hinvalid
  · rw [hsame, hstate]
    exact hs.1.trans hse
  · rw [hinvalid]
    exact trivial

/-- The loop goes on behind an entry. -/
theorem xmlAt_next {se : ℕ} (hat : XmlAt S stack se f) (hf : f.state = .parseNext)
    (hn : (S.element se).n ≠ 0) (hg : g.state = .parseNext ∨ g.state = .parseInvalid) :
    XmlAt S stack (se + 1) g := by
  unfold XmlAt at hat ⊢
  rw [hf] at hat
  rcases hg with hg | hg
  · rw [hg]
    cases stack with
    | nil => exact absurd hat hn
    | cons t rest => exact Schema.Entry.next ⟨hat, hn⟩
  · rw [hg]
    exact trivial

/-- The loop goes on with an entry that was found. -/
theorem xmlAt_element {se : ℕ} (hat : XmlAt S stack se f) (hf : f.state = .parseNext)
    (hn : (S.element se).n ≠ 0) (hg : g.state = .parseElement) :
    XmlAt S stack (se + 1) g := by
  unfold XmlAt at hat ⊢
  rw [hf] at hat
  rw [hg]
  cases stack with
  | nil => exact absurd hat hn
  | cons t rest => exact ⟨hat, hn⟩

theorem xmlNextLoop_leads (fuel₀ : ℕ) {se se₀ : ℕ} (hat : XmlAt S stack se f) (hse : f.se = se₀) :
    XmlLeads S stack se₀ (xmlNextLoop S k fuel₀ stack fuel se f).2 := by
  induction fuel generalizing se f with
  | zero =>
    unfold xmlNextLoop
    split
    · rename_i hstate
      exact hat.leads hstate
    · rename_i hstate
      exact Stays.leads (f := f) ⟨rfl, Or.inl rfl⟩ (not_not.mp hstate) hse
  | succ fuel ih =>
    unfold xmlNextLoop
    by_cases hstate : f.state ≠ .parseNext
    · rw [if_pos hstate]
      exact hat.leads hstate
    · rw [if_neg hstate]
      have hf := not_not.mp hstate
      by_cases hn : (S.element se).n = 0
      · rw [if_pos hn]
        cases stack with
        | nil => exact ih trivial hse
        | cons t rest =>
          dsimp only
          split
          · exact ih trivial hse
          · have htoken := parseToken_stays k f
            have hfound : ∀ found, findElement S ((S.element t.se).index + 1)
                (k.name (parseToken k f).input.source) = some found →
                XmlLeads S (t :: rest) se₀ (xmlNextLoop S k fuel₀ (t :: rest) fuel (found + 1)
                  { (startTag S k found (parseToken k f)).2 with state := .parseElement }).2 :=
              fun found h => ih (findElement_entry h)
                ((startTag_stays found _).1.trans (htoken.1.trans hse))
            have hunknown : XmlLeads S (t :: rest) se₀
                (if (xmlSkipUnknown k fuel₀ (parseToken k f)).1 then
                  xmlNextLoop S k fuel₀ (t :: rest) fuel se
                    (xmlSkipUnknown k fuel₀ (parseToken k f)).2
                else (false, (xmlSkipUnknown k fuel₀ (parseToken k f)).2)).2 := by
              obtain ⟨hskip, hskip'⟩ : (xmlSkipUnknown k fuel₀ (parseToken k f)).2.se =
                  (parseToken k f).se ∧
                  (xmlSkipUnknown k fuel₀ (parseToken k f)).2.state = (parseToken k f).state :=
                xmlSkipUnknown_stays _
              have hskipped : Stays f (xmlSkipUnknown k fuel₀ (parseToken k f)).2 :=
                htoken.invalid hskip (Or.inl hskip')
              split
              · refine ih ?_ (hskipped.1.trans hse)
                unfold XmlAt at hat ⊢
                rcases hskipped.2 with hsame | hinvalid
                · rw [hsame]
                  exact hat
                · rw [hinvalid]
                  exact trivial
              · exact hskipped.leads hf hse
            split
            · exact htoken.leads hf hse
            · exact ih trivial (htoken.1.trans hse)
            · split
              · rename_i found h
                exact hfound found h
              · exact hunknown
            · split
              · rename_i found h
                exact hfound found h
              · exact hunknown
            · exact ih trivial (htoken.1.trans hse)
      · rw [if_neg hn]
        dsimp only
        split
        · split
          · exact ih (xmlAt_element hat hf hn rfl) hse
          · exact ih (xmlAt_next hat hf hn (Or.inl hf)) hse
        · split
          · split
            · exact ih (xmlAt_next hat hf hn (Or.inr rfl)) hse
            · exact ih (xmlAt_next hat hf hn (Or.inl hf)) hse
          · have htag := startTag_stays (S := S) (k := k) se f
            split
            · exact ih (xmlAt_element hat hf hn rfl) (htag.1.trans hse)
            · split
              · exact htag.leads hf hse
              · refine ih (xmlAt_next hat hf hn (htag.2.imp_left fun h => h.trans hf))
                  (htag.1.trans hse)

theorem xmlParseValue_stays (f : Front (XmlInput ρ)) : Stays f (xmlParseValue S k f).2.2 ∧
    ((xmlParseValue S k f).2.1 = .flag → (S.element f.se).xsType = .boolean) := by
  have hsame : Stays f f := ⟨rfl, Or.inl rfl⟩
  have hnumber : ∀ t data, (k.number t data).2 ≠ .flag := by
    intro t data
    unfold XmlSource.number
    split
    · exact Stored.noConfusion
    · exact Stored.noConfusion
  unfold xmlParseValue
  dsimp only
  cases htype : (S.element f.se).xsType with
  | boolean =>
    dsimp only
    split_ifs
    · exact ⟨hsame, fun _ => rfl⟩
    · exact ⟨hsame, fun _ => rfl⟩
    · exact ⟨⟨rfl, Or.inr rfl⟩, fun _ => rfl⟩
  | string =>
    dsimp only
    split
    · exact ⟨hsame, fun h => Stored.noConfusion h⟩
    · exact ⟨hsame, fun h => Stored.noConfusion h⟩
  | hexBinary =>
    dsimp only
    split
    · exact ⟨hsame, fun h => Stored.noConfusion h⟩
    · exact ⟨hsame, fun h => Stored.noConfusion h⟩
  | anyURI => exact ⟨hsame, fun h => Stored.noConfusion h⟩
  | null => exact ⟨hsame, fun h => Stored.noConfusion h⟩
  | _ => exact ⟨hsame, fun h => absurd h (hnumber _ _)⟩

theorem parseTextValue_stays (f : Front (XmlInput ρ)) : Stays f (parseTextValue S k f).2.2 ∧
    ((parseTextValue S k f).2.1 = .flag → (S.element f.se).xsType = .boolean) := by
  have htext := parseTextToken_stays (k := k) f
  unfold parseTextValue
  dsimp only
  split
  · obtain ⟨hvalue, hflag⟩ := xmlParseValue_stays (S := S) (k := k) (parseTextToken k f).2
    refine ⟨htext.invalid hvalue.1 hvalue.2, fun h => ?_⟩
    rw [← htext.1]
    exact hflag h
  · exact ⟨htext, fun h => Stored.noConfusion h⟩

theorem xmlEnd_stays (i : ℕ) (f : Front (XmlInput ρ)) : Stays f (xmlEnd S k i f).2 := by
  have htag := endTag_stays (S := S) (k := k) i f
  unfold xmlEnd
  dsimp only
  split
  · exact ⟨rfl, Or.inl rfl⟩
  · split
    · exact htag.invalid rfl (Or.inl rfl)
    · exact htag

/-- What `xml_sequence` may return. -/
def Gives (S : Schema) (t : StackItem) (f : Front (XmlInput ρ)) (r : Bool × Front (XmlInput ρ)) :
    Prop :=
  r.2.se = f.se ∧ (r.1 = false → r.2.state = f.state ∨ r.2.state = .parseInvalid ∨
    r.2.state = .beyond ∨ r.2.state = .sequenceEnd ∧ (S.element t.se).min ≤ t.count)

/-- `xml_sequence`: where a sequence ends, there were enough occurrences. -/
theorem xmlSequence_gives (t : StackItem) (f : Front (XmlInput ρ)) :
    Gives S t f (xmlSequence S k t f) := by
  have htag := startTag_stays (S := S) (k := k) t.se f
  have hend : ∀ g : Front (XmlInput ρ), g.se = f.se → Gives S t f
      (if t.count < (S.element t.se).min then (false, { g with state := .parseInvalid })
      else if g.state = .parseInvalid then (false, { g with state := .beyond })
      else (false, { g with state := .sequenceEnd })) := by
    intro g hg
    split_ifs with hmin
    · exact ⟨hg, fun _ => Or.inr (Or.inl rfl)⟩
    · exact ⟨hg, fun _ => Or.inr (Or.inr (Or.inl rfl))⟩
    · exact ⟨hg, fun _ => Or.inr (Or.inr (Or.inr ⟨rfl, Nat.le_of_not_lt hmin⟩))⟩
  unfold xmlSequence
  dsimp only
  split
  · exact ⟨htag.1, fun h => absurd h.symm Bool.false_ne_true⟩
  · split
    · exact hend _ htag.1
    · exact hend _ htag.1
    · exact hend _ htag.1
    · exact ⟨htag.1, fun _ => htag.2.imp_right Or.inl⟩

/-- What `xml_start` may return. -/
def Starts (S : Schema) (f : Front (XmlInput ρ)) (r : Bool × Front (XmlInput ρ)) : Prop :=
  if r.1 then r.2.se < S.length else r.2.state = f.state ∨ r.2.state = .parseInvalid

theorem findSeName_lt {name : CString} (h : findSeName S name = some i) : i < S.length :=
  List.mem_range.mp (List.mem_of_find?_eq_some h)

theorem xmlStartLoop_starts (f : Front (XmlInput ρ)) : Starts S f (xmlStartLoop S k fuel f) := by
  induction fuel generalizing f with
  | zero => exact Or.inl rfl
  | succ fuel ih =>
    have htoken := parseToken_stays k f
    unfold xmlStartLoop
    dsimp only
    split
    · split
      · exact Or.inr rfl
      · have hagain := ih { parseToken k f with
          input := { (parseToken k f).input with xmlDecl := true, needToken := true } }
        unfold Starts at hagain ⊢
        split
        · rename_i hok
          rwa [if_pos hok] at hagain
        · rename_i hok
          rw [if_neg hok] at hagain
          rcases hagain with hsame | hinvalid
          · rw [hsame]
            exact htoken.2
          · exact Or.inr hinvalid
    · split
      · exact Or.inr rfl
      · rename_i i hfound
        exact findSeName_lt hfound
    · split
      · exact Or.inr rfl
      · rename_i i hfound
        exact findSeName_lt hfound
    · exact htoken.2
    · exact Or.inr rfl

theorem xmlWalks : (xmlParser S k fuel).Walks S XmlInput.Rebuffer fun _ => True where
  start := fun f => xmlStartLoop_starts { f with input := { f.input with needToken := true } }
  next := fun p hstate hs _ => by
    have hat : XmlAt S p.stack p.se p.toFront := by
      unfold XmlAt
      unfold Parser.Shape at hs
      rw [hstate] at hs
      rw [show p.toFront.state = .parseNext from hstate]
      cases hstack : p.stack with
      | nil =>
        rw [hstack] at hs
        exact hs
      | cons t stack =>
        rw [hstack] at hs
        exact hs.2.2.2.1
    exact xmlNextLoop_leads fuel hat rfl
  attrValue := fun f => by
    obtain ⟨hstays, hflag⟩ := xmlParseValue_stays (S := S) (k := k) f
    exact ⟨hstays.1, fun _ => hstays.2, hflag⟩
  value := fun f => by
    obtain ⟨hstays, hflag⟩ := parseTextValue_stays (S := S) (k := k) f
    exact ⟨hstays.1, fun _ => hstays.2, hflag⟩
  end_ := fun i f => by
    have hstays := xmlEnd_stays (S := S) (k := k) i f
    exact ⟨hstays.1, fun _ => hstays.2⟩
  sequence := xmlSequence_gives
  ready := fun _ _ _ _ _ => trivial

end SeClient
