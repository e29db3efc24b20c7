import Clipper.Proofs.Reading.Statement

/-!
Rules for the runs of operands and of chains of links. Behind this module no
production is unfolded again.
-/

namespace Clipper.Grammar

variable {α : Type} {e : Expressions} {c : Context} {r r' : Reader}

/-! ### Operands -/

theorem yields_integer {x : Expr} :
    Yields integer r x r' ↔
      Binary64.ofDigits r.current.literal.toList < integerBound ∧
        .integer r.current (Binary64.ofDigits r.current.literal.toList) = x ∧
        r.advanced = r' := by
  by_cases h : Binary64.ofDigits r.current.literal.toList < integerBound
  · simp [integer, h, and_assoc, and_comm, and_left_comm]
  · simp [integer, h, and_assoc]

theorem refuses_integer :
    Refuses integer r r' ↔
      integerBound ≤ Binary64.ofDigits r.current.literal.toList ∧
        r.advanced.reported (.integerTooLarge r.current) = r' := by
  by_cases h : Binary64.ofDigits r.current.literal.toList < integerBound
  · simp [integer, and_assoc, Nat.not_le.mpr h]
  · simp [integer, and_assoc, Nat.le_of_not_lt h]

theorem yields_float {x : Expr} :
    Yields float r x r' ↔
      ∃ bits, Binary64.ofDecimal? r.current.literal.toList = some bits ∧
        .float r.current bits = x ∧ r.advanced = r' := by
  cases h : Binary64.ofDecimal? r.current.literal.toList with
  | none => simp [float, h, and_assoc]
  | some bits => simp [float, h, and_assoc]

theorem refuses_float :
    Refuses float r r' ↔
      Binary64.ofDecimal? r.current.literal.toList = none ∧
        r.advanced.reported (.malformedNumber r.current) = r' := by
  cases h : Binary64.ofDecimal? r.current.literal.toList <;> simp [float, h, and_assoc]

theorem run_string {x : Expr} :
    Run string r x r' ↔
      .string r.current (Literal.stringParts r.current.literal).1
          (Literal.stringParts r.current.literal).2 = x ∧ r.advanced = r' := by
  simp [string, and_comm, and_left_comm]

theorem run_unary {op : UnaryOp} {x : Expr} :
    Run (unary e c op) r x r' ↔
      ∃ y, Run (expressionOrMissing e c Operator.not.precedence) r.advanced y r' ∧
        .unary r.current op y = x := by
  simp [unary, and_assoc]

theorem yields_group {x : Expr} :
    Yields (group e c) r x r' ↔
      ∃ s, Yields (e c.delimit loosest) r.advanced x s ∧ s.current.isPunctuation .closeParen ∧
        s.advanced = r' := by
  simp only [group, yields_bind, yields_discard, yields_lift, run_advance, yields_pure,
    yields_expectPunctuation]
  constructor
  · rintro ⟨_, _, ⟨_, rfl, rfl⟩, x, s, h, _, _, ⟨hc, rfl⟩, rfl, rfl⟩
    exact ⟨s, h, hc, rfl⟩
  · rintro ⟨s, h, hc, rfl⟩
    exact ⟨(), _, ⟨_, rfl, rfl⟩, x, s, h, (), _, ⟨hc, rfl⟩, rfl, rfl⟩

theorem refuses_group :
    Refuses (group e c) r r' ↔
      Refuses (e c.delimit loosest) r.advanced r' ∨
        ∃ x s, Yields (e c.delimit loosest) r.advanced x s ∧
          Refuses (expectPunctuation .closeParen) s r' := by
  simp [group]

theorem yields_array {x : Expr} :
    Yields (array e c) r x r' ↔
      ∃ xs, Yields (arguments e c .closeBrace) r.advanced xs r' ∧ .array r.current xs = x := by
  simp [array, and_assoc]

theorem refuses_array :
    Refuses (array e c) r r' ↔ Refuses (arguments e c .closeBrace) r.advanced r' := by
  simp [array, and_assoc]

theorem yields_ownMember {x : Expr} :
    Yields ownMember r x r' ↔
      ∃ n, Yields (name "a member name") r.advanced n r' ∧
        .member r.current (.name ⟨.implied (.keyword .kwSelf) "Self" r.current⟩) n = x := by
  simp [ownMember, and_assoc]

theorem refuses_ownMember :
    Refuses ownMember r r' ↔ Refuses (name "a member name") r.advanced r' := by
  simp [ownMember, and_assoc]

theorem run_guarded {t : Token} {closers : List Keyword} {g : Guarded} :
    Run (guarded e c t closers) r g r' ↔
      ∃ x s b, Run (expressionOrMissing e c loosest) r x s ∧ Run (body e c closers) s b r' ∧
        ⟨t, x, b⟩ = g := by
  simp [guarded]

theorem run_elseIf {gs : List Guarded} :
    Run (do return [← guarded e c (← advance) branchClosers]) r gs r' ↔
      ∃ g, Run (guarded e c r.current branchClosers) r.advanced g r' ∧ [g] = gs := by
  simp [and_assoc]

theorem run_alternative {b : Option Block} :
    Run (alternative e c) r b r' ↔
      if r.current.isKeyword .kwElse then
        ∃ b', Run (body e c [.kwEndIf]) r.advanced b' r' ∧ some b' = b
      else none = b ∧ r = r' := by
  by_cases h : r.current.isKeyword .kwElse <;> simp [alternative, h, and_assoc]

theorem run_branch {x : Expr} :
    Run (branch e c) r x r' ↔
      ∃ g s gs s₁ b s₂, Run (guarded e c r.current branchClosers) r.advanced g s ∧
        Run (otherBranches e c) s gs s₁ ∧ Run (alternative e c) s₁ b s₂ ∧
        ∃ closed, Run (closing .kwEndIf r.current) s₂ closed r' ∧
          .branch g gs b closed = x := by
  simp only [branch, bind_pure_comp, run_bind, run_map, run_advance]
  constructor
  · rintro ⟨_, _, ⟨rfl, rfl⟩, g, s, hg, gs, s₁, hgs, b, s₂, hb, hc⟩
    exact ⟨g, s, gs, s₁, b, s₂, hg, hgs, hb, hc⟩
  · rintro ⟨g, s, gs, s₁, b, s₂, hg, hgs, hb, hc⟩
    exact ⟨_, _, ⟨rfl, rfl⟩, g, s, hg, gs, s₁, hgs, b, s₂, hb, hc⟩

theorem run_requireKeyword {k : Keyword} {u : Unit} :
    Run (requireKeyword k) r u r' ↔
      if r.current.isKeyword k then r.advanced = r'
      else r.reported (.expected ("'" ++ k.canonical ++ "'") r.current) = r' := by
  by_cases h : r.current.isKeyword k <;>
    simp [requireKeyword, yields_expectKeyword, refuses_expectKeyword, h]

theorem run_whileLoop {x : Expr} :
    Run (whileLoop e c) r x r' ↔
      ∃ s g s₁, (if r.current.isKeyword .kwDo then Run (requireKeyword .kwWhile) r.advanced () s
          else r.advanced = s) ∧
        Run (guarded e c r.current [.kwEndDo]) s g s₁ ∧
        ∃ closed, Run (closing .kwEndDo r.current) s₁ closed r' ∧ .whileLoop g closed = x := by
  by_cases h : r.current.isKeyword .kwDo <;> simp [whileLoop, h, and_assoc]

theorem run_repeatedCounter {counter : Name} {u : Unit} :
    Run (repeatedCounter counter) r u r' ↔
      if r.current.kind = .identifier && r.sameLine then
        if !counter.isMissing && !Text.sameWord r.current.literal counter.text then
          r.advanced.reported (.otherCounter r.current counter.token) = r'
        else r.advanced = r'
      else r = r' := by
  simp only [repeatedCounter, run_bind, run_get]
  constructor
  · rintro ⟨_, _, ⟨rfl, rfl⟩, h⟩
    split at h
    · rename_i ho
      rw [if_pos ho]
      simpa [and_assoc] using h
    · rename_i ho
      rw [if_neg ho]
      simpa using h
  · intro h
    refine ⟨_, _, ⟨rfl, rfl⟩, ?_⟩
    split at h
    · rename_i ho
      rw [if_pos ho]
      simpa [and_assoc] using h
    · rename_i ho
      rw [if_neg ho]
      simpa using h

theorem run_counterSign {counter : Name} {u : Unit} :
    Run (counterSign counter) r u r' ↔
      if r.current.isOperator .assign || r.current.isOperator .equal then r.advanced = r'
      else if counter.isMissing then r = r'
      else r.reported (.expected "':='" r.current) = r' := by
  by_cases h : (r.current.isOperator .assign || r.current.isOperator .equal) = true <;>
    by_cases h' : counter.isMissing <;> simp [counterSign, h, h', and_assoc]

theorem run_stepClause {x : Option Expr} :
    Run (stepClause e c) r x r' ↔
      if r.current.isKeyword .kwStep then
        ∃ y, Run (expressionOrMissing e c loosest) r.advanced y r' ∧ some y = x
      else none = x ∧ r = r' := by
  by_cases h : r.current.isKeyword .kwStep <;> simp [stepClause, h, and_assoc]

theorem run_forLoop {x : Expr} :
    Run (forLoop e c) r x r' ↔
      ∃ n s s₁ a s₂ s₃ b s₄ step s₅ bl s₆ closed s₇,
        Run (nameOrMissing "a loop counter") r.advanced n s ∧ Run (counterSign n) s () s₁ ∧
        Run (expressionOrMissing e c loosest) s₁ a s₂ ∧ Run (requireKeyword .kwTo) s₂ () s₃ ∧
        Run (expressionOrMissing e c loosest) s₃ b s₄ ∧ Run (stepClause e c) s₄ step s₅ ∧
        Run (body e c [.kwNext]) s₅ bl s₆ ∧ Run (closing .kwNext r.current) s₆ closed s₇ ∧
        (if closed.isSome then Run (repeatedCounter n) s₇ () r' else s₇ = r') ∧
        .forLoop r.current n a b step bl closed = x := by
  simp only [forLoop, run_bind, run_advance]
  constructor
  · rintro ⟨_, _, ⟨rfl, rfl⟩, n, s, hn, _, s₁, hs, a, s₂, ha, _, s₃, hto, b, s₄, hb, step, s₅,
      hst, bl, s₆, hbl, closed, s₇, hc, h⟩
    refine ⟨n, s, s₁, a, s₂, s₃, b, s₄, step, s₅, bl, s₆, closed, s₇, hn, hs, ha, hto, hb, hst,
      hbl, hc, ?_⟩
    by_cases ho : closed.isSome
    · rw [if_pos ho] at h ⊢
      obtain ⟨_, _, hr, h⟩ := run_bind.mp h
      obtain ⟨rfl, rfl⟩ := run_pure.mp h
      exact ⟨hr, rfl⟩
    · rw [if_neg ho] at h ⊢
      obtain ⟨rfl, rfl⟩ := run_pure.mp h
      exact ⟨rfl, rfl⟩
  · rintro ⟨n, s, s₁, a, s₂, s₃, b, s₄, step, s₅, bl, s₆, closed, s₇, hn, hs, ha, hto, hb, hst,
      hbl, hc, h, rfl⟩
    refine ⟨_, _, ⟨rfl, rfl⟩, n, s, hn, (), s₁, hs, a, s₂, ha, (), s₃, hto, b, s₄, hb, step, s₅,
      hst, bl, s₆, hbl, closed, s₇, hc, ?_⟩
    by_cases ho : closed.isSome
    · rw [if_pos ho] at h ⊢
      exact run_bind.mpr ⟨(), r', h, run_pure.mpr ⟨rfl, rfl⟩⟩
    · rw [if_neg ho] at h ⊢
      exact run_pure.mpr ⟨rfl, h⟩

theorem yields_operand {x : Expr} :
    Yields (operand e c) r x r' ↔
      ∃ s, Starter.ofKind? r.current.kind = some s ∧ Yields (begun e c s) r x r' := by
  simp only [operand, yields_bind, yields_lift, run_current]
  constructor
  · rintro ⟨_, _, ⟨rfl, rfl⟩, h⟩
    cases hs : Starter.ofKind? r.current.kind with
    | none => simp [hs] at h
    | some s => exact ⟨s, rfl, by simpa [hs] using h⟩
  · rintro ⟨s, hs, h⟩
    exact ⟨_, _, ⟨rfl, rfl⟩, by simpa [hs] using h⟩

theorem refuses_operand :
    Refuses (operand e c) r r' ↔
      (∃ s, Starter.ofKind? r.current.kind = some s ∧ Refuses (begun e c s) r r') ∨
        Starter.ofKind? r.current.kind = none ∧
          r.reported (.notAnExpression r.current) = r' := by
  simp only [operand, refuses_bind, refuses_lift, yields_lift, run_current, false_or]
  constructor
  · rintro ⟨_, _, ⟨rfl, rfl⟩, h⟩
    cases hs : Starter.ofKind? r.current.kind with
    | none => exact .inr ⟨rfl, by simpa [hs] using h⟩
    | some s => exact .inl ⟨s, rfl, by simpa [hs] using h⟩
  · rintro (⟨s, hs, h⟩ | ⟨hs, h⟩)
    · exact ⟨_, _, ⟨rfl, rfl⟩, by simpa [hs] using h⟩
    · exact ⟨_, _, ⟨rfl, rfl⟩, by simpa [hs] using h⟩

/-! ### Chains -/

theorem yields_nextSubscript {bracket : Token} {s : Option Step} :
    Yields (nextSubscript bracket) r s r' ↔
      if r.current.isPunctuation .comma then some (.subscript bracket) = s ∧ r.advanced = r'
      else r.current.isPunctuation .closeBracket ∧ none = s ∧ r.advanced = r' := by
  by_cases h : r.current.isPunctuation .comma
  · simp [nextSubscript, h, and_assoc, and_comm]
  · simp [nextSubscript, yields_expectPunctuation, h, and_assoc, and_comm]

theorem refuses_nextSubscript {bracket : Token} :
    Refuses (nextSubscript bracket) r r' ↔
      r.current.isPunctuation .comma = false ∧ Refuses (expectPunctuation .closeBracket) r r' := by
  by_cases h : r.current.isPunctuation .comma
  · simp [nextSubscript, h, and_assoc]
  · simp [nextSubscript, h, and_assoc]

theorem yields_nextStep_none {p : Nat} {s : Option Step} :
    Yields (nextStep c p none) r s r' ↔ (link? c p r).map .link = s ∧ r = r' := by
  have hget : ∀ q : Reader → Option Step,
      Yields (do return q (← get)) r s r' ↔ q r = s ∧ r = r' := by
    intro q
    rw [yields_bind]
    constructor
    · rintro ⟨_, _, h, h'⟩
      obtain ⟨rfl, rfl⟩ := yields_get.mp h
      exact yields_pure.mp h'
    · intro h
      exact ⟨r, r, yields_get.mpr ⟨rfl, rfl⟩, yields_pure.mpr h⟩
  exact hget fun r => (link? c p r).map .link

theorem refuses_nextStep_none {p : Nat} : ¬Refuses (nextStep c p none) r r' := by
  simp [nextStep]

theorem yields_nextStep_some {p : Nat} {bracket : Token} {s : Option Step} :
    Yields (nextStep c p (some bracket)) r s r' ↔
      if r.current.isPunctuation .comma then some (.subscript bracket) = s ∧ r.advanced = r'
      else r.current.isPunctuation .closeBracket ∧
        (link? c p r.advanced).map .link = s ∧ r.advanced = r' := by
  by_cases h : r.current.isPunctuation .comma
  · simp [nextStep, yields_nextSubscript, h, and_assoc]
  · simp [nextStep, yields_nextSubscript, h, and_assoc, and_comm]

theorem refuses_nextStep_some {p : Nat} {bracket : Token} :
    Refuses (nextStep c p (some bracket)) r r' ↔
      r.current.isPunctuation .comma = false ∧ Refuses (expectPunctuation .closeBracket) r r' := by
  simp only [nextStep, refuses_bind, refuses_nextSubscript, or_iff_left_iff_imp]
  rintro ⟨_ | s, _, _, h⟩
  · simp at h
  · simp at h

theorem run_subscript {bracket : Token} {left : Expr} {out : Expr × Option Token} :
    Run (subscript e c bracket left) r out r' ↔
      ∃ i, Run (expressionOrMissing e c.delimit loosest) r i r' ∧
        (.index bracket left i, some bracket) = out := by
  simp [subscript]

theorem yields_attach_subscript {bracket : Token} {left : Expr} {out : Expr × Option Token} :
    Yields (attach e c left (.subscript bracket)) r out r' ↔
      Run (subscript e c bracket left) r out r' := by
  simp [attach]

theorem yields_attach_index {left : Expr} {out : Expr × Option Token} :
    Yields (attach e c left (.link .index)) r out r' ↔
      Run (subscript e c r.current left) r.advanced out r' := by
  simp [attach, and_assoc]

theorem yields_attach_binary {left : Expr} {op : BinaryOp} {out : Expr × Option Token} :
    Yields (attach e c left (.link (.binary op))) r out r' ↔
      ∃ y, Run (expressionOrMissing e c op.operator.precedence) r.advanced y r' ∧
        (.binary r.current op left y, none) = out := by
  simp [attach, Link.precedence, and_assoc]

theorem yields_attach_assign {left : Expr} {out : Expr × Option Token} :
    Yields (attach e c left (.link .assign)) r out r' ↔
      ∃ y, Run (expressionOrMissing e c loosest)
          (if left.isAssignable then r.advanced
            else r.advanced.reported (.notAssignable left.token)) y r' ∧
        (.assign r.current left y, none) = out := by
  by_cases h : left.isAssignable <;> simp [attach, h, and_assoc]

theorem yields_attach_call {left : Expr} {out : Expr × Option Token} :
    Yields (attach e c left (.link .call)) r out r' ↔
      ∃ xs, Yields (arguments e c .closeParen) r.advanced xs r' ∧
        (.call r.current left xs, none) = out := by
  simp [attach, and_assoc]

theorem yields_attach_member {left : Expr} {out : Expr × Option Token} :
    Yields (attach e c left (.link .member)) r out r' ↔
      ∃ n, Yields (name "a member name") r.advanced n r' ∧
        (.member r.current left n, none) = out := by
  simp [attach, and_assoc]

/-- Only a list of arguments and the name of a member can be refused. -/
theorem refuses_attach {left : Expr} {s : Step} :
    Refuses (attach e c left s) r r' ↔
      s = .link .call ∧ Refuses (arguments e c .closeParen) r.advanced r' ∨
        s = .link .member ∧ Refuses (name "a member name") r.advanced r' := by
  obtain l | bracket := s
  · cases l with
    | assign =>
        by_cases h : left.isAssignable <;> simp [attach, h]
    | _ => simp [attach, and_assoc]
  · simp [attach]

theorem yields_expression_zero {p : Nat} {x : Expr} : ¬Yields (expression 0 c p) r x r' := by
  simp [expression]

theorem refuses_expression_zero {p : Nat} :
    Refuses (expression 0 c p) r r' ↔ r.silenced = r' := by
  simp [expression]

theorem yields_expression_succ {n p : Nat} {x : Expr} :
    Yields (expression (n + 1) c p) r x r' ↔
      ∃ left s, Yields (operand (expression n) c) r left s ∧
        Yields (chain n c p none left) s x r' := by
  simp [expression]

theorem refuses_expression_succ {n p : Nat} :
    Refuses (expression (n + 1) c p) r r' ↔
      Refuses (operand (expression n) c) r r' ∨
        ∃ left s, Yields (operand (expression n) c) r left s ∧
          Refuses (chain n c p none left) s r' := by
  simp [expression]

theorem yields_chain {n p : Nat} {bracket : Option Token} {left x : Expr} :
    Yields (chain n c p bracket left) r x r' ↔
      Yields (nextStep c p bracket) r none r' ∧ left = x ∨
        ∃ step s m y b s', Yields (nextStep c p bracket) r (some step) s ∧ n = m + 1 ∧
          Yields (attach (expression m) c left step) s (y, b) s' ∧
          Yields (chain m c p b y) s' x r' := by
  rw [chain.eq_def, yields_bind]
  constructor
  · rintro ⟨_ | step, s, h, h'⟩
    · obtain ⟨rfl, rfl⟩ := yields_pure.mp h'
      exact .inl ⟨h, rfl⟩
    · cases n with
      | zero => simp at h'
      | succ m =>
          obtain ⟨⟨y, b⟩, s', h', h''⟩ := yields_bind.mp h'
          exact .inr ⟨step, s, m, y, b, s', h, rfl, h', h''⟩
  · rintro (⟨h, rfl⟩ | ⟨step, s, m, y, b, s', h, rfl, h', h''⟩)
    · exact ⟨none, r', h, by simp⟩
    · exact ⟨some step, s, h, yields_bind.mpr ⟨(y, b), s', h', h''⟩⟩

theorem refuses_chain {n p : Nat} {bracket : Option Token} {left : Expr} :
    Refuses (chain n c p bracket left) r r' ↔
      Refuses (nextStep c p bracket) r r' ∨
        ∃ step s, Yields (nextStep c p bracket) r (some step) s ∧
          (n = 0 ∧ s.silenced = r' ∨
            ∃ m, n = m + 1 ∧
              (Refuses (attach (expression m) c left step) s r' ∨
                ∃ y b s', Yields (attach (expression m) c left step) s (y, b) s' ∧
                  Refuses (chain m c p b y) s' r')) := by
  rw [chain.eq_def, refuses_bind]
  constructor
  · rintro (h | ⟨_ | step, s, h, h'⟩)
    · exact .inl h
    · simp at h'
    · refine .inr ⟨step, s, h, ?_⟩
      cases n with
      | zero => exact .inl ⟨rfl, by simpa using h'⟩
      | succ m =>
          refine .inr ⟨m, rfl, ?_⟩
          rcases refuses_bind.mp h' with h' | ⟨⟨y, b⟩, s', h', h''⟩
          · exact .inl h'
          · exact .inr ⟨y, b, s', h', h''⟩
  · rintro (h | ⟨step, s, h, ⟨rfl, h'⟩ | ⟨m, rfl, h'⟩⟩)
    · exact .inl h
    · exact .inr ⟨some step, s, h, by simpa using h'⟩
    · refine .inr ⟨some step, s, h, refuses_bind.mpr ?_⟩
      rcases h' with h' | ⟨y, b, s', h', h''⟩
      · exact .inl h'
      · exact .inr ⟨(y, b), s', h', h''⟩

end Clipper.Grammar
