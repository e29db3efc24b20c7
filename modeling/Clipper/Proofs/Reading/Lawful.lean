import Clipper.Proofs.Reading.Progress

/-!
The expressions of the grammar are lawful: reading one moves onward, and a token has
been taken when it is carried through. With that every loop of the grammar is known by
its derivations, down to the one that reads a whole text.
-/

namespace Clipper.Grammar

variable {α : Type} {e : Expressions} {c : Context} {r r' : Reader}

/-! ### Operands -/

theorem steady_argument (he : e.Lawful) :
    Steady (liftM (expressionOrMissing e c loosest) : Attempt Expr).run :=
  .of_attempt (fun _ _ _ hr h => steady_expressionOrMissing he _ hr (yields_lift.mp h))
    fun _ _ _ h => absurd h refuses_lift

theorem steady_arguments (he : e.Lawful) (close : Punctuation) :
    Steady (arguments e c close).run :=
  steady_listUpTo (steady_argument he)

theorem steady_body (he : e.Lawful) (closers : List Keyword) : Steady (body e c closers) :=
  steady_block fun _ _ _ _ => past_statement he

theorem steady_guarded (he : e.Lawful) (t : Token) (closers : List Keyword) :
    Steady (guarded e c t closers) := by
  intro r g r' hr h
  obtain ⟨x, s, b, hx, hb, _⟩ := run_guarded.mp h
  have hs := steady_expressionOrMissing he _ hr hx
  exact hs.trans (steady_body he _ hs.sound hb)

/-- Every further branch takes its introducing word. -/
theorem past_elseIf (he : e.Lawful) ⦃r : Reader⦄ ⦃gs : List Guarded⦄ ⦃r' : Reader⦄
    (hr : r.Sound) (hm : r.current.isKeyword .kwElseIf = true)
    (h : Run (do return [← guarded e c (← advance) branchClosers]) r gs r') : r.Past r' := by
  obtain ⟨g, hg, _⟩ := run_elseIf.mp h
  have ha := Reader.past_advanced hr (Reader.atEnd_of_keyword hm)
  exact ha.trans_onward (steady_guarded he _ _ ha.onward.sound hg)

theorem run_otherBranches (he : e.Lawful) (hr : r.Sound) {gs : List Guarded} :
    Run (otherBranches e c) r gs r' ↔
      Repeats (·.current.isKeyword .kwElseIf)
        (do return [← guarded e c (← advance) branchClosers]) r gs r' :=
  run_repeated (past_elseIf he) hr

theorem steady_otherBranches (he : e.Lawful) : Steady (otherBranches e c) := by
  intro r gs r' hr h
  exact ((run_otherBranches he hr).mp h).onward (past_elseIf he) hr

theorem steady_alternative (he : e.Lawful) : Steady (alternative e c) := by
  intro r b r' hr h
  rw [run_alternative] at h
  split at h
  · obtain ⟨b, hb, _⟩ := h
    have ha := Reader.onward_advanced hr
    exact ha.trans (steady_body he _ ha.sound hb)
  · obtain ⟨_, rfl⟩ := h
    exact .refl hr

theorem steady_requireKeyword (k : Keyword) : Steady (requireKeyword k) := by
  intro r u r' hr h
  rw [run_requireKeyword] at h
  split at h
  · exact h ▸ Reader.onward_advanced hr
  · exact h ▸ Reader.onward_reported hr _ rfl

theorem steady_repeatedCounter (counter : Name) : Steady (repeatedCounter counter) := by
  intro r u r' hr h
  have ha := Reader.onward_advanced hr
  rw [run_repeatedCounter] at h
  split at h
  · split at h
    · exact h ▸ ha.trans (Reader.onward_reported ha.sound _ rfl)
    · exact h ▸ ha
  · exact h ▸ .refl hr

theorem steady_counterSign (counter : Name) : Steady (counterSign counter) := by
  intro r u r' hr h
  rw [run_counterSign] at h
  split at h
  · exact h ▸ Reader.onward_advanced hr
  split at h
  · exact h ▸ .refl hr
  · exact h ▸ Reader.onward_reported hr _ rfl

theorem steady_stepClause (he : e.Lawful) : Steady (stepClause e c) := by
  intro r x r' hr h
  rw [run_stepClause] at h
  split at h
  · obtain ⟨y, hy, _⟩ := h
    have ha := Reader.onward_advanced hr
    exact ha.trans (steady_expressionOrMissing he _ ha.sound hy)
  · obtain ⟨_, rfl⟩ := h
    exact .refl hr

theorem onward_branch (he : e.Lawful) {x : Expr} (hr : r.Sound)
    (h : Run (branch e c) r x r') : r.advanced.Onward r' := by
  obtain ⟨g, s, gs, s₁, b, s₂, hg, hgs, hb, closed, hc, _⟩ := run_branch.mp h
  have h₁ := steady_guarded he _ _ (Reader.sound_advanced hr) hg
  have h₂ := steady_otherBranches he h₁.sound hgs
  have h₃ := steady_alternative he h₂.sound hb
  exact h₁.trans (h₂.trans (h₃.trans (steady_closing _ _ h₃.sound hc)))

theorem onward_whileLoop (he : e.Lawful) {x : Expr} (hr : r.Sound)
    (h : Run (whileLoop e c) r x r') : r.advanced.Onward r' := by
  obtain ⟨s, g, s₁, hs, hg, closed, hc, _⟩ := run_whileLoop.mp h
  have h₁ : r.advanced.Onward s := by
    split at hs
    · exact steady_requireKeyword _ (Reader.sound_advanced hr) hs
    · exact hs ▸ .refl (Reader.sound_advanced hr)
  have h₂ := steady_guarded he _ _ h₁.sound hg
  exact h₁.trans (h₂.trans (steady_closing _ _ h₂.sound hc))

theorem onward_forLoop (he : e.Lawful) {x : Expr} (hr : r.Sound)
    (h : Run (forLoop e c) r x r') : r.advanced.Onward r' := by
  obtain ⟨n, s, s₁, a, s₂, s₃, b, s₄, step, s₅, bl, s₆, closed, s₇, hn, hs, ha, hto, hb, hst, hbl,
    hc, hend, _⟩ := run_forLoop.mp h
  have h₁ := steady_nameOrMissing _ (Reader.sound_advanced hr) hn
  have h₂ := h₁.trans (steady_counterSign _ h₁.sound hs)
  have h₃ := h₂.trans (steady_expressionOrMissing he _ h₂.sound ha)
  have h₄ := h₃.trans (steady_requireKeyword _ h₃.sound hto)
  have h₅ := h₄.trans (steady_expressionOrMissing he _ h₄.sound hb)
  have h₆ := h₅.trans (steady_stepClause he h₅.sound hst)
  have h₇ := h₆.trans (steady_body he _ h₆.sound hbl)
  have h₈ := h₇.trans (steady_closing _ _ h₇.sound hc)
  split at hend
  · exact h₈.trans (steady_repeatedCounter _ h₈.sound hend)
  · exact hend ▸ h₈

/-- Every operand takes its first token. -/
theorem onward_begun (he : e.Lawful) {s : Starter} {x : Except Refusal Expr} (hr : r.Sound)
    (h : Run (begun e c s).run r x r') : r.advanced.Onward r' := by
  have ha := Reader.onward_advanced hr
  have hs := ha.sound
  have hrefl : r.advanced.Onward r.advanced := .refl hs
  rcases run_attempt h with ⟨x, -, h⟩ | ⟨-, h⟩
  · cases s with
    | name | date | boolean | nil =>
        simp only [begun, yields_bind, yields_lift, run_advance, yields_pure] at h
        obtain ⟨_, _, ⟨_, rfl⟩, _, rfl⟩ := h
        exact hrefl
    | integer =>
        obtain ⟨_, _, rfl⟩ := yields_integer.mp h
        exact hrefl
    | float =>
        obtain ⟨_, _, _, rfl⟩ := yields_float.mp h
        exact hrefl
    | string =>
        obtain ⟨_, rfl⟩ := run_string.mp (yields_lift.mp h)
        exact hrefl
    | unary op =>
        obtain ⟨y, hy, _⟩ := run_unary.mp (yields_lift.mp h)
        exact steady_expressionOrMissing he _ hs hy
    | group =>
        obtain ⟨s, hx, _, rfl⟩ := yields_group.mp h
        have ho := (he.past hs hx).onward
        exact ho.trans (Reader.onward_advanced ho.sound)
    | array =>
        obtain ⟨xs, h, _⟩ := yields_array.mp h
        exact (steady_arguments he _).yields hs h
    | ownMember =>
        obtain ⟨n, h, _⟩ := yields_ownMember.mp h
        exact (steady_name _).yields hs h
    | branch => exact onward_branch he hr (yields_lift.mp h)
    | whileLoop => exact onward_whileLoop he hr (yields_lift.mp h)
    | forLoop => exact onward_forLoop he hr (yields_lift.mp h)
  · cases s with
    | name | date | boolean | nil | string | unary | branch | whileLoop | forLoop =>
        simp [begun] at h
    | integer =>
        obtain ⟨_, rfl⟩ := refuses_integer.mp h
        exact Reader.onward_reported hs _ rfl
    | float =>
        obtain ⟨_, rfl⟩ := refuses_float.mp h
        exact Reader.onward_reported hs _ rfl
    | group =>
        rcases refuses_group.mp h with h | ⟨x, s, hx, h⟩
        · exact (he.steady _ _).refuses hs h
        · have ho := (he.past hs hx).onward
          exact ho.trans ((steady_expectPunctuation _).refuses ho.sound h)
    | array => exact (steady_arguments he _).refuses hs (refuses_array.mp h)
    | ownMember => exact (steady_name _).refuses hs (refuses_ownMember.mp h)

theorem atEnd_of_starter {s : Starter} (h : Starter.ofKind? r.current.kind = some s) :
    r.atEnd = false := by
  refine Reader.atEnd_of_kind rfl fun hk => ?_
  simp [hk, Starter.ofKind?] at h

theorem past_operand (he : e.Lawful) {x : Expr} (hr : r.Sound)
    (h : Yields (operand e c) r x r') : r.Past r' := by
  obtain ⟨s, hs, h⟩ := yields_operand.mp h
  exact (Reader.past_advanced hr (atEnd_of_starter hs)).trans_onward
    (onward_begun he hr (run_ok.mpr h))

theorem steady_operand (he : e.Lawful) : Steady (operand e c).run := by
  refine .of_attempt (fun r x r' hr h => (past_operand he hr h).onward) fun r r' hr h => ?_
  rcases refuses_operand.mp h with ⟨s, _, h⟩ | ⟨_, rfl⟩
  · exact (Reader.onward_advanced hr).trans (onward_begun he hr (run_error.mpr h))
  · exact Reader.onward_reported hr _ rfl

/-! ### Chains -/

theorem steady_nextStep (p : Nat) (bracket : Option Token) :
    Steady (nextStep c p bracket).run := by
  refine .of_attempt (fun r s r' hr h => ?_) fun r r' hr h => ?_
  · cases bracket with
    | none =>
        obtain ⟨_, rfl⟩ := yields_nextStep_none.mp h
        exact .refl hr
    | some t =>
        rw [yields_nextStep_some] at h
        split at h
        · exact h.2 ▸ Reader.onward_advanced hr
        · exact h.2.2 ▸ Reader.onward_advanced hr
  · cases bracket with
    | none => exact absurd h refuses_nextStep_none
    | some t => exact (steady_expectPunctuation _).refuses hr (refuses_nextStep_some.mp h).2

theorem steady_subscript (he : e.Lawful) (bracket : Token) (left : Expr) :
    Steady (subscript e c bracket left) := by
  intro r out r' hr h
  obtain ⟨i, h, _⟩ := run_subscript.mp h
  exact steady_expressionOrMissing he _ hr h

theorem steady_attach (he : e.Lawful) (left : Expr) (s : Step) :
    Steady (attach e c left s).run := by
  refine .of_attempt (fun r out r' hr h => ?_) fun r r' hr h => ?_
  · have ha := Reader.onward_advanced hr
    obtain l | bracket := s
    · cases l with
      | binary op =>
          obtain ⟨y, hy, _⟩ := yields_attach_binary.mp h
          exact ha.trans (steady_expressionOrMissing he _ ha.sound hy)
      | assign =>
          obtain ⟨y, hy, _⟩ := yields_attach_assign.mp h
          split at hy
          · exact ha.trans (steady_expressionOrMissing he _ ha.sound hy)
          · have ho := ha.trans (Reader.onward_reported ha.sound (.notAssignable left.token) rfl)
            exact ho.trans (steady_expressionOrMissing he _ ho.sound hy)
      | call =>
          obtain ⟨xs, h, _⟩ := yields_attach_call.mp h
          exact ha.trans ((steady_arguments he _).yields ha.sound h)
      | index => exact ha.trans (steady_subscript he _ _ ha.sound (yields_attach_index.mp h))
      | member =>
          obtain ⟨n, h, _⟩ := yields_attach_member.mp h
          exact ha.trans ((steady_name _).yields ha.sound h)
    · exact steady_subscript he _ _ hr (yields_attach_subscript.mp h)
  · have ha := Reader.onward_advanced hr
    rcases refuses_attach.mp h with ⟨_, h⟩ | ⟨_, h⟩
    · exact ha.trans ((steady_arguments he _).refuses ha.sound h)
    · exact ha.trans ((steady_name _).refuses ha.sound h)

/-- A chain over lawful readings of every smaller depth. -/
theorem steady_chain {n : Nat} (he : ∀ m < n, (expression m).Lawful) (p : Nat)
    (bracket : Option Token) (left : Expr) : Steady (chain n c p bracket left).run := by
  induction n generalizing bracket left with
  | zero =>
      refine .of_attempt (fun r x r' hr h => ?_) fun r r' hr h => ?_
      · rcases yields_chain.mp h with ⟨h, _⟩ | ⟨_, _, _, _, _, _, _, hn, _⟩
        · exact (steady_nextStep p bracket).yields hr h
        · simp at hn
      · rcases refuses_chain.mp h with h | ⟨step, s, hstep, ⟨_, rfl⟩ | ⟨_, hn, _⟩⟩
        · exact (steady_nextStep p bracket).refuses hr h
        · have ho := (steady_nextStep p bracket).yields hr hstep
          exact ho.trans (Reader.onward_silenced ho.sound)
        · simp at hn
  | succ n ih =>
      have hn := he n (Nat.lt_succ_self n)
      have ih := ih fun m hm => he m (Nat.lt_succ_of_lt hm)
      refine .of_attempt (fun r x r' hr h => ?_) fun r r' hr h => ?_
      · rcases yields_chain.mp h with ⟨h, _⟩ | ⟨step, s, m, y, b, s', h, hm, h', h''⟩
        · exact (steady_nextStep p bracket).yields hr h
        · obtain rfl := Nat.succ.inj hm
          have h₁ := (steady_nextStep p bracket).yields hr h
          have h₂ := h₁.trans ((steady_attach hn _ _).yields h₁.sound h')
          exact h₂.trans ((ih b y).yields h₂.sound h'')
      · rcases refuses_chain.mp h with h | ⟨step, s, h, ⟨hz, _⟩ | ⟨m, hm, h'⟩⟩
        · exact (steady_nextStep p bracket).refuses hr h
        · simp at hz
        · obtain rfl := Nat.succ.inj hm
          have h₁ := (steady_nextStep p bracket).yields hr h
          rcases h' with h' | ⟨y, b, s', h', h''⟩
          · exact h₁.trans ((steady_attach hn _ _).refuses h₁.sound h')
          · have h₂ := h₁.trans ((steady_attach hn _ _).yields h₁.sound h')
            exact h₂.trans ((ih b y).refuses h₂.sound h'')

/-- Whatever its depth, reading an expression is lawful. -/
theorem lawful_expression (n : Nat) : (expression n).Lawful := by
  induction n using Nat.strongRecOn with
  | ind n ih =>
      cases n with
      | zero =>
          refine ⟨fun c p => .of_attempt (fun r x r' _ h => ?_) fun r r' hr h => ?_,
            fun c p r x r' _ h => ?_⟩
          · exact absurd h yields_expression_zero
          · exact refuses_expression_zero.mp h ▸ Reader.onward_silenced hr
          · exact absurd h yields_expression_zero
      | succ n =>
          have hn := ih n (Nat.lt_succ_self n)
          have hc : ∀ c p left, Steady (chain n c p none left).run := fun c p left =>
            steady_chain (fun m hm => ih m (Nat.lt_succ_of_lt hm)) p none left
          have past : ∀ ⦃c p r x r'⦄, r.Sound → Yields (expression (n + 1) c p) r x r' →
              r.Past r' := by
            intro c p r x r' hr h
            obtain ⟨left, s, h, h'⟩ := yields_expression_succ.mp h
            have hp := past_operand hn hr h
            exact hp.trans_onward ((hc c p left).yields hp.onward.sound h')
          refine ⟨fun c p => .of_attempt (fun r x r' hr h => (past hr h).onward)
            fun r r' hr h => ?_, past⟩
          rcases refuses_expression_succ.mp h with h | ⟨left, s, h, h'⟩
          · exact (steady_operand hn).refuses hr h
          · have hp := past_operand hn hr h
            exact hp.onward.trans ((hc c p left).refuses hp.onward.sound h')

end Clipper.Grammar
