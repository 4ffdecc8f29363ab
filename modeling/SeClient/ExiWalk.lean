import SeClient.ExiValues
import SeClient.SchemaWalk

/-!
# The walk of the EXI driver

The event codes lead to entries of the type that is open.  A code that ends a sequence is kept as
the token of the next entry.
-/

namespace SeClient

variable {ρ : Type} {S : Schema} {k : ExiBits ρ}

/-- `exi_rebuffer` -/
def ExiParser.Rebuffer (a b : ExiParser ρ) : Prop := ∃ source, b = { a with source := source }

/-- A token that is kept leads to no place behind the type. -/
def ExiReady (S : Schema) (p : Parser (ExiParser ρ)) : Prop :=
  match p.state, p.stack with
  | .parseElement, _ => p.input.needToken = true
  | .parseAttribute, _ => p.input.needToken = true
  | .parseValue, _ => p.input.needToken = true
  | .parseSequence, _ => p.input.needToken = true
  | .parseNext, _ => p.input.needToken = false →
      ∀ j < p.input.token, (S.element (p.se + j)).n ≠ 0
  | .sequenceEnd, t :: _ => p.input.needToken = false →
      ∀ j < p.input.token, (S.element (t.se + 1 + j)).n ≠ 0
  | _, _ => True

theorem productionsLoop_le (first : Bool) (l : List SchemaElement) :
    productionsLoop first l ≤ l.length + 1 := by
  induction l generalizing first with
  | nil => exact Nat.le_refl 1
  | cons se l ih =>
    unfold productionsLoop
    rw [List.length_cons]
    split
    · exact Nat.succ_le_succ (ih false)
    · split
      · omega
      · exact Nat.succ_le_succ (ih first)

/-- An event code leads to no place behind the type. -/
theorem Schema.Generated.code_le (hS : S.Generated) {i token : ℕ} (hi : (S.element i).n ≠ 0)
    (htoken : token < (S.element i).n) : ∀ j < token, (S.element (i + j)).n ≠ 0 := by
  intro j hj
  rw [hS.productions i hi] at htoken
  have hle := productionsLoop_le true (S.entries i)
  have hlength : token < (S.entries i).length + 1 := Nat.lt_of_lt_of_le htoken hle
  exact S.n_ne_zero (Nat.le_add_right i j) (by omega)

variable {f : Front (ExiParser ρ)} {n i : ℕ} {t : StackItem}

theorem exiEvent_spec (n : ℕ) (f : Front (ExiParser ρ)) :
    (exiEvent (exiSource S k) n f).2.se = f.se ∧
    (exiEvent (exiSource S k) n f).2.input.needToken = f.input.needToken ∧
    ((exiEvent (exiSource S k) n f).1 = true →
      (exiEvent (exiSource S k) n f).2.state = f.state ∧
        (exiEvent (exiSource S k) n f).2.input.token < n) ∧
    ((exiEvent (exiSource S k) n f).1 = false →
      (exiEvent (exiSource S k) n f).2.state = f.state ∨
        (exiEvent (exiSource S k) n f).2.state = .parseInvalid) := by
  unfold exiEvent
  dsimp only
  split
  · exact ⟨rfl, rfl, fun h => absurd h Bool.false_ne_true, fun _ => Or.inl rfl⟩
  · split
    · exact ⟨rfl, rfl, fun h => absurd h Bool.false_ne_true, fun _ => Or.inr rfl⟩
    · rename_i htoken
      exact ⟨rfl, rfl, fun _ => ⟨rfl, Nat.lt_of_not_le htoken⟩,
        fun h => absurd h.symm Bool.false_ne_true⟩

/-- A reading function leaves the state or sets PARSE_INVALID. -/
theorem ExiRead.front_state (r : ExiRead ρ) (f : Front (ExiParser ρ)) :
    (r.front f).state = f.state ∨ (r.front f).state = .parseInvalid := by
  unfold ExiRead.front
  dsimp only
  split
  · exact Or.inr rfl
  · exact Or.inl rfl

theorem exiParseStart_spec (f : Front (ExiParser ρ)) :
    if (exiParseStart S (exiSource S k) f).1 then
      (exiParseStart S (exiSource S k) f).2.se < S.length ∧
        (exiParseStart S (exiSource S k) f).2.input.needToken = true
    else (exiParseStart S (exiSource S k) f).2.state = f.state ∨
      (exiParseStart S (exiSource S k) f).2.state = .parseInvalid := by
  unfold exiParseStart
  dsimp only
  by_cases hheader : ((exiSource S k).header f.input.source).ok = true
  · rw [if_pos hheader]
    split
    · rename_i htype
      exact ⟨htype, rfl⟩
    · rw [if_neg Bool.false_ne_true]
      exact Or.inr rfl
  · rw [if_neg hheader, if_neg Bool.false_ne_true]
    exact ExiRead.front_state _ f

/-- `exi_parse_simple` leaves `need_token`, unless it has found the end of the element. -/
theorem exiParseSimple_spec (f : Front (ExiParser ρ)) :
    (exiParseSimple (exiSource S k) f).2.2.se = f.se ∧
    ((exiParseSimple (exiSource S k) f).1 = false →
      ((exiParseSimple (exiSource S k) f).2.2.state = f.state ∧
        (exiParseSimple (exiSource S k) f).2.2.input.needToken = f.input.needToken) ∨
      (exiParseSimple (exiSource S k) f).2.2.state = .parseInvalid) ∧
    ((exiParseSimple (exiSource S k) f).2.1 = .flag → (S.element f.se).xsType = .boolean) := by
  unfold exiParseSimple
  dsimp only
  split
  · split
    · exact ⟨rfl, fun _ => Or.inr rfl, fun h => Stored.noConfusion h⟩
    · exact ⟨rfl, fun h => absurd h.symm Bool.false_ne_true, fun h => Stored.noConfusion h⟩
  · refine ⟨rfl, fun _ => ?_, exiValue_flag S k⟩
    exact (ExiRead.front_state _ f).imp_left fun h => ⟨h, rfl⟩

theorem exiParseEnd_spec (f : Front (ExiParser ρ)) :
    (exiParseEnd (exiSource S k) i f).2.se = f.se ∧
    ((exiParseEnd (exiSource S k) i f).1 = true →
      (exiParseEnd (exiSource S k) i f).2.input.needToken = true) ∧
    ((exiParseEnd (exiSource S k) i f).1 = false →
      (exiParseEnd (exiSource S k) i f).2.state = .parseInvalid) := by
  unfold exiParseEnd
  dsimp only
  split
  · rename_i hneed
    split
    · exact ⟨rfl, fun h => absurd h Bool.false_ne_true, fun _ => rfl⟩
    · exact ⟨rfl, fun _ => hneed, fun h => absurd h.symm Bool.false_ne_true⟩
  · exact ⟨rfl, fun _ => rfl, fun h => absurd h.symm Bool.false_ne_true⟩

/-- `exi_parse_sequence`: where a sequence ends, there were enough occurrences and the token is that
of an entry behind. -/
theorem exiParseSequence_spec (hS : S.Generated) (f : Front (ExiParser ρ)) :
    (exiParseSequence S (exiSource S k) t f).2.se = f.se ∧
    ((exiParseSequence S (exiSource S k) t f).1 = true →
      (exiParseSequence S (exiSource S k) t f).2.input.needToken = f.input.needToken) ∧
    ((exiParseSequence S (exiSource S k) t f).1 = false →
      ((exiParseSequence S (exiSource S k) t f).2.state = f.state ∧
        (exiParseSequence S (exiSource S k) t f).2.input.needToken = f.input.needToken) ∨
      (exiParseSequence S (exiSource S k) t f).2.state = .parseInvalid ∨
      (exiParseSequence S (exiSource S k) t f).2.state = .sequenceEnd ∧
        (S.element t.se).min ≤ t.count ∧
        ∀ j < (exiParseSequence S (exiSource S k) t f).2.input.token,
          (S.element (t.se + 1 + j)).n ≠ 0) := by
  unfold exiParseSequence
  dsimp only
  generalize hn : (if t.count ≥ (S.element t.se).min then (S.element t.se).n else 1) = n
  obtain ⟨hse, hkept, hok, hfail⟩ := exiEvent_spec (S := S) (k := k) n f
  generalize exiEvent (exiSource S k) n f = r at hse hkept hok hfail
  obtain ⟨ok, g⟩ := r
  dsimp only at hse hkept hok hfail
  cases ok with
  | true =>
    obtain ⟨-, hlt⟩ := hok rfl
    by_cases htoken : g.input.token ≠ 0
    · rw [if_pos rfl, if_pos htoken]
      have hmin : t.count ≥ (S.element t.se).min := by
        by_contra hmin
        rw [if_neg hmin] at hn
        exact htoken (Nat.lt_one_iff.mp (hn ▸ hlt))
      rw [if_pos hmin] at hn
      refine ⟨hse, fun h => absurd h Bool.false_ne_true, fun _ => Or.inr (Or.inr ⟨rfl, hmin, ?_⟩)⟩
      intro j hj
      have hj : j < g.input.token - 1 := hj
      have hnt : (S.element t.se).n ≠ 0 := by omega
      have hentry := hS.code_le hnt (hn ▸ hlt) (j + 1) (by omega)
      rwa [Nat.add_comm j, ← Nat.add_assoc] at hentry
    · rw [if_pos rfl, if_neg htoken]
      exact ⟨hse, fun _ => hkept, fun h => absurd h.symm Bool.false_ne_true⟩
  | false =>
    rw [if_neg Bool.false_ne_true]
    refine ⟨hse, fun h => absurd h Bool.false_ne_true, fun _ => ?_⟩
    exact (hfail rfl).imp (fun h => ⟨h, hkept⟩) Or.inl

/-- Where the token of `exi_parse_next` leads. -/
def ExiLeads (S : Schema) (f g : Front (ExiParser ρ)) : Prop :=
  match g.state with
  | .parseElement => g.input.needToken = true ∧ (S.element f.se).n ≠ 0 ∧ (S.element g.se).n ≠ 0 ∧
      ∃ token, g.se = f.se + token ∧ ∀ j < token, (S.element (f.se + j)).n ≠ 0
  | .parseNext => g.se = f.se ∧ g.input.needToken = true
  | .parseEnd => True
  | .parseInvalid => True
  | _ => False

theorem takeToken_leads {g : Front (ExiParser ρ)} (hg : g.se = f.se) (hn : (S.element f.se).n ≠ 0)
    (hall : ∀ j < g.input.token, (S.element (f.se + j)).n ≠ 0) :
    ExiLeads S f (takeToken S g) := by
  unfold takeToken ExiLeads
  dsimp only
  by_cases hmore : (S.element (g.se + g.input.token)).n ≠ 0
  · rw [if_pos hmore]
    exact ⟨decide_eq_true hmore, hn, hmore, g.input.token, by rw [hg], hall⟩
  · rw [if_neg hmore]
    exact trivial

theorem exiParseNext_leads (hS : S.Generated) (stack : List StackItem)
    (hstate : f.state = .parseNext)
    (htoken : f.input.needToken = false → ∀ j < f.input.token, (S.element (f.se + j)).n ≠ 0) :
    ExiLeads S f (exiParseNext S (exiSource S k) stack f).2 := by
  unfold exiParseNext
  dsimp only
  by_cases hn : (S.element f.se).n ≠ 0
  · rw [if_pos hn]
    cases hneed : f.input.needToken with
    | true =>
      rw [if_pos rfl]
      obtain ⟨hse, hkept, hok, hfail⟩ :=
        exiEvent_spec (S := S) (k := k)
          (if (S.element f.se).min ≠ 0 then 1 else (S.element f.se).n) f
      cases hevent : (exiEvent (exiSource S k)
          (if (S.element f.se).min ≠ 0 then 1 else (S.element f.se).n) f).1 with
      | true =>
        rw [if_pos rfl]
        refine takeToken_leads hse hn ?_
        have hlt := (hok hevent).2
        refine hS.code_le hn (Nat.lt_of_lt_of_le hlt ?_)
        split
        · exact Nat.one_le_iff_ne_zero.mpr hn
        · exact Nat.le_refl _
      | false =>
        rw [if_neg Bool.false_ne_true]
        unfold ExiLeads
        dsimp only
        rcases hfail hevent with hsame | hinvalid
        · rw [hsame, hstate]
          exact ⟨hse, hkept.trans hneed⟩
        · rw [hinvalid]
          exact trivial
    | false =>
      rw [if_neg Bool.false_ne_true]
      exact takeToken_leads rfl hn (htoken hneed)
  · rw [if_neg hn]
    exact trivial

variable {p q : Parser (ExiParser ρ)}

/-- A token counts only in PARSE_NEXT and SEQUENCE_END. -/
theorem exiReady_of_need (h : p.input.needToken = true) : ExiReady S p := by
  have hvacuous : ∀ P : Prop, p.input.needToken = false → P := fun P h' =>
    absurd (h.symm.trans h') Bool.noConfusion
  unfold ExiReady
  split
  · exact h
  · exact h
  · exact h
  · exact h
  · exact hvacuous _
  · exact hvacuous _
  · exact trivial

/-- Nothing is asked of a parser that starts or has failed. -/
theorem exiReady_of_idle (h : p.state = .parseStart ∨ p.state = .parseInvalid) : ExiReady S p := by
  unfold ExiReady
  rcases h with h | h
  · rw [h]; exact trivial
  · rw [h]; exact trivial

theorem exiReady_rebuffer {r : ExiParser ρ} (h : ExiReady S q)
    (hr : r = q.input ∨ ExiParser.Rebuffer q.input r) : ExiReady S { q with input := r } := by
  rcases hr with rfl | ⟨source, rfl⟩
  · exact h
  · exact h

theorem parseElement_input (i : ℕ) : (Parser.parseElement S p i).input = p.input := by
  unfold Parser.parseElement
  split <;> rfl

theorem exiReady_next (hS : S.Generated) (hs : p.Shape S) (hr : ExiReady S p)
    (h : Parser.Next S (exiParser S (exiSource S k)) ExiParser.Rebuffer p q) : ExiReady S q := by
  obtain ⟨r, hsame, rfl⟩ := h.parser
  refine exiReady_rebuffer ?_ hsame
  unfold Parser.step
  unfold ExiReady at hr
  cases hstate : p.state with
  | parseStart =>
    dsimp only
    have hstart := exiParseStart_spec (S := S) (k := k) p.toFront
    split
    · rename_i hok
      rw [if_pos (show (exiParseStart S (exiSource S k) p.toFront).1 = true from hok)] at hstart
      exact exiReady_of_need hstart.2
    · rename_i hok
      rw [if_neg (show ¬(exiParseStart S (exiSource S k) p.toFront).1 = true from hok),
        hstate] at hstart
      exact exiReady_of_idle hstart
  | parseElement =>
    rw [hstate] at hr
    refine exiReady_of_need (Eq.trans ?_ hr)
    show (Parser.stepElement S p).parser.input.needToken = _
    unfold Parser.stepElement
    dsimp only
    split_ifs
    · rfl
    · rfl
    · rfl
    · show ExiParser.needToken (Parser.parseElement S _ _).input = _
      rw [parseElement_input]
      rfl
    · show ExiParser.needToken (Parser.parseElement S _ _).input = _
      rw [parseElement_input]
    · show ExiParser.needToken (Parser.parseElement S _ _).input = _
      rw [parseElement_input]
  | parseNext =>
    rw [hstate] at hr
    have hleads := exiParseNext_leads (k := k) hS p.stack hstate hr
    have hresult :
        ExiReady S (p.withFront (exiParseNext S (exiSource S k) p.stack p.toFront).2) := by
      unfold ExiLeads at hleads
      unfold ExiReady Parser.withFront
      dsimp only
      generalize (exiParseNext S (exiSource S k) p.stack p.toFront).2 = g at hleads ⊢
      cases hg : g.state with
      | parseElement =>
        rw [hg] at hleads
        exact hleads.1
      | parseNext =>
        rw [hg] at hleads
        exact fun h => absurd (hleads.2.symm.trans h) Bool.noConfusion
      | parseEnd => exact trivial
      | parseInvalid => exact trivial
      | _ =>
        rw [hg] at hleads
        exact hleads.elim
    dsimp only
    split <;> exact hresult
  | parseAttribute =>
    rw [hstate] at hr
    dsimp only
    split
    · exact exiReady_of_need hr
    · exact exiReady_of_need hr
  | parseValue =>
    rw [hstate] at hr
    obtain ⟨-, hfail, -⟩ := exiParseSimple_spec (S := S) (k := k) p.toFront
    dsimp only
    split
    · exact trivial
    · rename_i hok
      rcases hfail (Bool.eq_false_iff.mpr hok) with ⟨-, hneed⟩ | hinvalid
      · exact exiReady_of_need (hneed.trans hr)
      · exact exiReady_of_idle (Or.inr hinvalid)
  | parseEnd =>
    cases hstack : p.stack with
    | nil => exact trivial
    | cons t stack =>
      dsimp only
      obtain ⟨-, hok, hfail⟩ := exiParseEnd_spec (S := S) (k := k) (i := t.se) p.toFront
      split
      · rename_i hend
        exact exiReady_of_need (hok hend)
      · rename_i hend
        exact exiReady_of_idle (Or.inr (hfail (Bool.eq_false_iff.mpr hend)))
  | parseSequence =>
    rw [hstate] at hr
    cases hstack : p.stack with
    | nil =>
      unfold Parser.Shape at hs
      rw [hstate, hstack] at hs
      exact hs.elim
    | cons t stack =>
      obtain ⟨-, hok, hfail⟩ := exiParseSequence_spec (k := k) (t := t) hS p.toFront
      dsimp only
      split
      · rename_i hmore
        refine exiReady_of_need (Eq.trans ?_ ((hok hmore).trans hr))
        show ExiParser.needToken (Parser.stepSequence S _ t).parser.input = _
        unfold Parser.stepSequence
        dsimp only
        split_ifs
        · show ExiParser.needToken (Parser.parseElement S _ _).input = _
          rw [parseElement_input]
          rfl
        · show ExiParser.needToken (Parser.parseElement S _ _).input = _
          rw [parseElement_input]
          rfl
        · rfl
      · rename_i hend
        have hresult : ExiReady S
            (p.withFront (exiParseSequence S (exiSource S k) t p.toFront).2) := by
          rcases hfail (Bool.eq_false_iff.mpr hend) with ⟨-, hneed⟩ | hinvalid |
            ⟨hstop, -, hall⟩
          · exact exiReady_of_need (hneed.trans hr)
          · exact exiReady_of_idle (Or.inr hinvalid)
          · unfold ExiReady Parser.withFront
            dsimp only
            rw [hstop, hstack]
            exact fun _ => hall
        split <;> exact hresult
  | sequenceEnd =>
    cases hstack : p.stack with
    | nil =>
      unfold Parser.Shape at hs
      rw [hstate, hstack] at hs
      exact hs.elim
    | cons t stack =>
      rw [hstate, hstack] at hr
      exact hr
  | parseInvalid => exact exiReady_of_idle (Or.inr hstate)
  | beyond =>
    unfold ExiReady ParseStep.parser
    dsimp only
    rw [hstate]
    exact trivial

theorem exiWalks (hS : S.Generated) :
    (exiParser S (exiSource S k)).Walks S ExiParser.Rebuffer (ExiReady S) where
  start := fun f => by
    have hstart := exiParseStart_spec (S := S) (k := k) f
    show if (exiParseStart S (exiSource S k) f).1 then _ else _
    split
    · rename_i hok
      rw [if_pos hok] at hstart
      exact hstart.1
    · rename_i hok
      rw [if_neg hok] at hstart
      exact hstart
  next := fun p hstate hs hr => by
    unfold ExiReady at hr
    rw [hstate] at hr
    have hleads := exiParseNext_leads (k := k) hS p.stack hstate hr
    unfold ExiLeads at hleads
    show match (exiParseNext S (exiSource S k) p.stack p.toFront).2.state with
      | .parseElement => ∃ t stack, p.stack = t :: stack ∧ S.Entry (S.element t.se).index
          (exiParseNext S (exiSource S k) p.stack p.toFront).2.se
      | .parseNext => (exiParseNext S (exiSource S k) p.stack p.toFront).2.se = p.se
      | .parseEnd => True
      | .parseInvalid => True
      | _ => False
    generalize (exiParseNext S (exiSource S k) p.stack p.toFront).2 = g at hleads ⊢
    cases hg : g.state with
    | parseElement =>
      rw [hg] at hleads
      obtain ⟨-, hn, hgn, token, hse, hall⟩ := hleads
      unfold Parser.Shape at hs
      rw [hstate] at hs
      cases hstack : p.stack with
      | nil =>
        rw [hstack] at hs
        exact absurd hs hn
      | cons t stack =>
        rw [hstack] at hs
        obtain ⟨-, -, -, hplace, -⟩ := hs
        refine ⟨t, stack, rfl, ?_, hgn⟩
        rw [hse]
        exact hplace.add hall
    | parseNext =>
      rw [hg] at hleads
      exact hleads.1
    | parseEnd => exact trivial
    | parseInvalid => exact trivial
    | _ =>
      rw [hg] at hleads
      exact hleads
  attrValue := fun f => ⟨rfl, fun _ => ExiRead.front_state _ f, exiValue_flag S k⟩
  value := fun f => by
    obtain ⟨hse, hfail, hflag⟩ := exiParseSimple_spec (S := S) (k := k) f
    exact ⟨hse, fun h => (hfail h).imp_left And.left, hflag⟩
  end_ := fun i f => by
    obtain ⟨hse, -, hfail⟩ := exiParseEnd_spec (S := S) (k := k) (i := i) f
    exact ⟨hse, fun h => Or.inr (hfail h)⟩
  sequence := fun t f => by
    obtain ⟨hse, -, hfail⟩ := exiParseSequence_spec (k := k) (t := t) hS f
    refine ⟨hse, fun h => ?_⟩
    rcases hfail h with ⟨hsame, -⟩ | hinvalid | ⟨hend, hmin, -⟩
    · exact Or.inl hsame
    · exact Or.inr (Or.inl hinvalid)
    · exact Or.inr (Or.inr (Or.inr ⟨hend, hmin⟩))
  ready := fun _ _ hs hr h => exiReady_next hS hs hr h

end SeClient
