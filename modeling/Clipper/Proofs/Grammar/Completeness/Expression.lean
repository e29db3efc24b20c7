import Clipper.Proofs.Grammar.Completeness.Statement
import Clipper.Proofs.Grammar.Counters
import Clipper.Proofs.Grammar.Soundness.Expression

/-!
Completeness of the reading of expressions and declarations, and with it of every phrase of
the grammar: in the depth in which it is derived it is read.
-/

namespace Clipper

namespace Grammar

variable {e : Expressions} {c : Context} {m p : Nat} {s s' s'' : Spot} {l : Nat} {t : Token}
  {u : List Token} {ws vs : List Fault}

/-! ### Operands -/

section Operands

/-- An operand that begins with a token of the right kind. -/
theorem completes_operand {x : Expr} (st : Starter) (ht : st.Begins t)
    (h : Warns ws (begun e c st).run (.ok x) ⟨l, t :: u⟩ s') :
    Warns ws (operand e c).run (.ok x) ⟨l, t :: u⟩ s' := by
  intro r₀ r hr
  obtain ⟨r', hrun, hr'⟩ := h hr
  exact ⟨r', yields_operand.mpr ⟨st, by rw [hr.current]; exact Starter.begins_iff.mpr ht, hrun⟩, hr'⟩

theorem Starter.Begins.isEnd {st : Starter} (h : st.Begins t) : t.isEnd = false := by
  have hst := Starter.begins_iff.mpr h
  cases hk : t.kind <;> simp_all [Token.isEnd, Starter.ofKind?]

/-- An operand of one token. -/
theorem completes_begun {x : Expr} (st : Starter) (ht : st.Begins t)
    (h : ∀ {r : Reader}, r.current = t → Yields (begun e c st) r x r.advanced) :
    Warns [] (operand e c).run (.ok x) ⟨l, t :: u⟩ ⟨t.endLine, u⟩ :=
  completes_operand st ht fun _ r hr => ⟨r.advanced, h hr.current, hr.advanced ht.isEnd⟩

theorem completes_argument {x : Expr} (hx : Warns ws (e c loosest).run (.ok x) s s') :
    Warns ws (liftM (expressionOrMissing e c loosest) : Attempt Expr).run (.ok x) s s' := by
  intro r₀ r hr
  obtain ⟨r', hrun, hr'⟩ := completes_expressionOrMissing hx hr
  exact ⟨r', yields_lift.mpr hrun, hr'⟩

theorem completes_arguments {close : Punctuation} {xs : List Expr}
    (hs : s.next (·.isPunctuation close) = false)
    (hxs : Warns ws (listed (liftM (expressionOrMissing e c.delimit loosest))) (xs, true) s
      ⟨l, t :: u⟩) (ht : t.isPunctuation close = true) :
    Warns ws (arguments e c close).run (.ok xs) s ⟨t.endLine, u⟩ :=
  .listUpTo hs hxs ht

theorem completes_unary {op : UnaryOp} {x : Expr} (ht : t.kind = .operator op.operator)
    (hx : Warns ws (e c Operator.not.precedence).run (.ok x) ⟨t.endLine, u⟩ s') :
    Warns ws (operand e c).run (.ok (.unary t op x)) ⟨l, t :: u⟩ s' := by
  refine completes_operand (.unary op) ht fun r₀ r hr => ?_
  obtain ⟨r', hrun, hr'⟩ := completes_expressionOrMissing hx
    (hr.advanced (Token.isEnd_of_kind ht (by cases op <;> rfl)))
  exact ⟨r', yields_lift.mpr (run_unary.mpr ⟨x, hrun, by rw [hr.current]⟩), hr'⟩

theorem completes_group {x : Expr} {close : Token} {l' : Nat} {v : List Token}
    (ht : t.isPunctuation .openParen = true)
    (hx : Warns ws (e c.delimit loosest).run (.ok x) ⟨t.endLine, u⟩ ⟨l', close :: v⟩)
    (hclose : close.isPunctuation .closeParen = true) :
    Warns ws (operand e c).run (.ok x) ⟨l, t :: u⟩ ⟨close.endLine, v⟩ := by
  refine completes_operand .group ht fun r₀ r hr => ?_
  obtain ⟨r₁, hrun, h₁⟩ := hx (hr.advanced (Token.isEnd_of_punctuation ht))
  exact ⟨r₁.advanced, yields_group.mpr ⟨r₁, hrun, by rw [h₁.current, hclose], rfl⟩,
    h₁.advanced (Token.isEnd_of_punctuation hclose)⟩

theorem completes_array {xs : List Expr} (ht : t.isPunctuation .openBrace = true)
    (hxs : Warns ws (arguments e c .closeBrace).run (.ok xs) ⟨t.endLine, u⟩ s') :
    Warns ws (operand e c).run (.ok (.array t xs)) ⟨l, t :: u⟩ s' := by
  refine completes_operand .array ht fun r₀ r hr => ?_
  obtain ⟨r', hrun, hr'⟩ := hxs (hr.advanced (Token.isEnd_of_punctuation ht))
  exact ⟨r', yields_array.mpr ⟨xs, hrun, by rw [hr.current]⟩, hr'⟩

theorem completes_ownMember {n : Token} (ht : t.isPunctuation .colonColon = true)
    (hn : n.kind = .identifier) :
    Warns [] (operand e c).run
      (.ok (.member t (.name ⟨.implied (.keyword .kwSelf) "Self" t⟩) ⟨n⟩)) ⟨l, t :: n :: u⟩
      ⟨n.endLine, u⟩ := by
  refine completes_operand .ownMember ht fun r₀ r hr => ?_
  obtain ⟨r', hrun, hr'⟩ := completes_name hn (hr.advanced (Token.isEnd_of_punctuation ht))
  exact ⟨r', yields_ownMember.mpr ⟨⟨n⟩, hrun, by rw [hr.current]⟩, hr'⟩

theorem completes_guarded {x : Expr} {closers : List Keyword} {b : Block}
    (hx : Warns ws (e c loosest).run (.ok x) s s')
    (hb : Warns vs (body e c closers) b s' s'') :
    Warns (ws ++ vs) (guarded e c t closers) ⟨t, x, b⟩ s s'' := by
  intro r₀ r hr
  obtain ⟨r₁, hrun, h₁⟩ := completes_expressionOrMissing hx hr
  obtain ⟨r', hbody, hr'⟩ := hb h₁
  exact ⟨r', run_guarded.mpr ⟨x, r₁, b, hrun, hbody, rfl⟩, hr'.warned_append⟩

theorem completes_noBranches (he : e.Lawful) (hs : s.next (·.isKeyword .kwElseIf) = false) :
    Warns [] (otherBranches e c) [] s s :=
  .repeated_stop (past_elseIf he) fun _ _ hr => (hr.next _).trans hs

theorem completes_branches (he : e.Lawful) {g : Guarded} {gs : List Guarded}
    (ht : t.isKeyword .kwElseIf = true)
    (hg : Warns ws (guarded e c t branchClosers) g ⟨t.endLine, u⟩ s')
    (hgs : Warns vs (otherBranches e c) gs s' s'') :
    Warns (ws ++ vs) (otherBranches e c) (g :: gs) ⟨l, t :: u⟩ s'' := by
  change Warns (ws ++ vs) (otherBranches e c) ([g] ++ gs) _ _
  refine .repeated_round (past_elseIf he)
    (fun _ _ hr => by rw [hr.current, ht]) (fun r₀ r hr => ?_) hgs
  obtain ⟨r', hrun, hr'⟩ := hg (hr.advanced (Token.isEnd_of_keyword ht))
  exact ⟨r', run_elseIf.mpr ⟨g, by rwa [hr.current], rfl⟩, hr'⟩

theorem completes_noAlternative (hs : s.next (·.isKeyword .kwElse) = false) :
    Completes (alternative e c) none s s := by
  intro r₀ r hr
  refine ⟨r, run_alternative.mpr ?_, hr⟩
  rw [if_neg (by simp [hr.next (·.isKeyword .kwElse), hs])]
  exact ⟨rfl, rfl⟩

theorem completes_alternative {b : Block} (ht : t.isKeyword .kwElse = true)
    (hb : Warns ws (body e c [.kwEndIf]) b ⟨t.endLine, u⟩ s') :
    Warns ws (alternative e c) (some b) ⟨l, t :: u⟩ s' := by
  intro r₀ r hr
  obtain ⟨r', hrun, hr'⟩ := hb (hr.advanced (Token.isEnd_of_keyword ht))
  refine ⟨r', run_alternative.mpr ?_, hr'⟩
  rw [if_pos (by rw [hr.current, ht])]
  exact ⟨b, hrun, rfl⟩

theorem completes_branch {g : Guarded} {gs : List Guarded} {other : Option Block} {k : Token}
    {l' : Nat} {v : List Token} {s₁ s₂ : Spot} {zs : List Fault} (ht : t.isKeyword .kwIf = true)
    (hg : Warns ws (guarded e c t branchClosers) g ⟨t.endLine, u⟩ s₁)
    (hgs : Warns vs (otherBranches e c) gs s₁ s₂)
    (hb : Warns zs (alternative e c) other s₂ ⟨l', k :: v⟩) (hk : k.isKeyword .kwEndIf = true) :
    Warns (ws ++ (vs ++ zs)) (operand e c).run (.ok (.branch g gs other (some k))) ⟨l, t :: u⟩
      ⟨k.endLine, v⟩ := by
  refine completes_operand .branch ht fun r₀ r hr => ?_
  obtain ⟨r₁, hfirst, h₁⟩ := hg (hr.advanced (Token.isEnd_of_keyword ht))
  obtain ⟨r₂, hothers, h₂⟩ := hgs h₁
  obtain ⟨r₃, hother, h₃⟩ := hb h₂
  obtain ⟨r', hclose, hr'⟩ := completes_closing t hk h₃
  refine ⟨r', yields_lift.mpr (run_branch.mpr ⟨g, r₁, gs, r₂, other, r₃, ?_⟩),
    hr'.warned_append.warned_append⟩
  rw [hr.current]
  exact ⟨hfirst, hothers, hother, some k, hclose, rfl⟩

theorem completes_whileLoop {g : Guarded} {k : Token} {l : Nat} {v : List Token}
    (hword : LoopWord t s s') (hg : Warns ws (guarded e c t [.kwEndDo]) g s' ⟨l, k :: v⟩)
    (hk : k.isKeyword .kwEndDo = true) :
    Warns ws (operand e c).run (.ok (.whileLoop g (some k))) s ⟨k.endLine, v⟩ := by
  -- Behind the word or the two words.
  have hloop : ∀ {r₀ r r₁ : Reader}, r.current = t → r₀.Reaches r₁ s' →
      (if r.current.isKeyword .kwDo then Run (requireKeyword .kwWhile) r.advanced () r₁
        else r.advanced = r₁) →
      ∃ r', Yields (begun e c .whileLoop) r (.whileLoop g (some k)) r' ∧
        (r₀.warned ws).Reaches r' ⟨k.endLine, v⟩ := by
    intro r₀ r r₁ hcurrent h₁ hhead
    obtain ⟨r₂, hrun, h₂⟩ := hg h₁
    obtain ⟨r', hclose, hr'⟩ := completes_closing t hk h₂
    refine ⟨r', yields_lift.mpr (run_whileLoop.mpr ⟨r₁, g, r₂, hhead, ?_⟩), hr'⟩
    rw [hcurrent]
    exact ⟨hrun, some k, hclose, rfl⟩
  cases hword with
  | «while» ht =>
      refine completes_operand .whileLoop (.inl ht) fun r₀ r hr => ?_
      refine hloop hr.current (hr.advanced (Token.isEnd_of_keyword ht)) ?_
      have hdo : t.isKeyword .kwDo = false := by simp_all [Token.isKeyword]
      rw [hr.current, if_neg (by simp [hdo])]
  | doWhile ht hw =>
      refine completes_operand .whileLoop (.inr ht) fun r₀ r hr => ?_
      obtain ⟨r₁, hrun, h₁⟩ :=
        completes_requireKeyword hw (hr.advanced (Token.isEnd_of_keyword ht))
      refine hloop hr.current h₁ ?_
      rw [hr.current, if_pos ht]
      exact hrun

theorem completes_noStep (hs : s.next (·.isKeyword .kwStep) = false) :
    Completes (stepClause e c) none s s := by
  intro r₀ r hr
  refine ⟨r, run_stepClause.mpr ?_, hr⟩
  rw [if_neg (by simp [hr.next (·.isKeyword .kwStep), hs])]
  exact ⟨rfl, rfl⟩

theorem completes_step {x : Expr} (ht : t.isKeyword .kwStep = true)
    (hx : Warns ws (e c loosest).run (.ok x) ⟨t.endLine, u⟩ s') :
    Warns ws (stepClause e c) (some x) ⟨l, t :: u⟩ s' := by
  intro r₀ r hr
  obtain ⟨r', hrun, hr'⟩ :=
    completes_expressionOrMissing hx (hr.advanced (Token.isEnd_of_keyword ht))
  refine ⟨r', run_stepClause.mpr ?_, hr'⟩
  rw [if_pos (by rw [hr.current, ht])]
  exact ⟨x, hrun, rfl⟩

theorem completes_counterSign {n : Name}
    (ht : (t.isOperator .assign || t.isOperator .equal) = true) :
    Completes (counterSign n) () ⟨l, t :: u⟩ ⟨t.endLine, u⟩ := by
  intro r₀ r hr
  have hend : t.isEnd = false :=
    (Bool.or_eq_true _ _ ▸ ht).elim Token.isEnd_of_operator Token.isEnd_of_operator
  exact ⟨r.advanced, run_counterSign.mpr (by rw [if_pos (by rw [hr.current, ht])]), hr.advanced hend⟩

/-- Another name than the counter's is reported. -/
theorem completes_repeatedCounter {lax : Bool} {n : Token} (h : CounterAgain lax n s s') :
    Warns (again n s) (repeatedCounter ⟨n⟩) () s s' := by
  intro r₀ r hr
  cases h with
  | absent hs =>
      have hnext := (hr.next _).trans hs
      refine ⟨r, run_repeatedCounter.mpr ?_, again_absent hs ▸ hr⟩
      rw [if_neg (by simpa [Reader.sameLine, hr.line] using hnext)]
  | @named _ t _ hk hline _ =>
      have ha := hr.advanced (Token.isEnd_of_kind hk rfl)
      by_cases hother : (Name.mk n).isMissing = false ∧ Text.sameWord t.literal n.literal = false
      · refine ⟨r.advanced.reported (.otherCounter t n), run_repeatedCounter.mpr ?_, ?_⟩
        · rw [if_pos (by simp [Reader.sameLine, hr.current, hk, hline, hr.line]), hr.current,
            if_pos (by simpa [Name.text] using hother)]
        · rw [again_cons, if_pos ⟨hk, hline, hother⟩]
          exact ha.reported rfl
      · refine ⟨r.advanced, run_repeatedCounter.mpr ?_, ?_⟩
        · rw [if_pos (by simp [Reader.sameLine, hr.current, hk, hline, hr.line]), hr.current,
            if_neg (by simpa [Name.text] using hother)]
        · rw [again_cons, if_neg fun hall => hother hall.2.2]
          exact ha

theorem completes_forLoop {lax : Bool} {n sign mark k : Token} {a b : Expr} {step : Option Expr}
    {bl : Block} {l' l'' : Nat} {v w : List Token} {s₁ s₂ : Spot} {ys zs : List Fault}
    (ht : t.isKeyword .kwFor = true)
    (hn : n.kind = .identifier) (hsign : (sign.isOperator .assign || sign.isOperator .equal) = true)
    (ha : Warns ws (e c loosest).run (.ok a) ⟨sign.endLine, u⟩ ⟨l', mark :: v⟩)
    (hmark : mark.isKeyword .kwTo = true)
    (hb : Warns vs (e c loosest).run (.ok b) ⟨mark.endLine, v⟩ s₁)
    (hstep : Warns ys (stepClause e c) step s₁ s₂)
    (hbl : Warns zs (body e c [.kwNext]) bl s₂ ⟨l'', k :: w⟩) (hk : k.isKeyword .kwNext = true)
    (hcounter : CounterAgain lax n ⟨k.endLine, w⟩ s') :
    Warns (ws ++ (vs ++ (ys ++ (zs ++ again n ⟨k.endLine, w⟩)))) (operand e c).run
      (.ok (.forLoop t ⟨n⟩ a b step bl (some k))) ⟨l, t :: n :: sign :: u⟩ s' := by
  refine completes_operand .forLoop ht fun r₀ r hr => ?_
  obtain ⟨r₁, hname, h₁⟩ := completes_nameOrMissing hn (hr.advanced (Token.isEnd_of_keyword ht))
  obtain ⟨r₂, hsign, h₂⟩ := completes_counterSign hsign h₁
  obtain ⟨r₃, hstart, h₃⟩ := completes_expressionOrMissing ha h₂
  obtain ⟨r₄, hto, h₄⟩ := completes_requireKeyword hmark h₃
  obtain ⟨r₅, hstop, h₅⟩ := completes_expressionOrMissing hb h₄
  obtain ⟨r₆, hstep, h₆⟩ := hstep h₅
  obtain ⟨r₇, hbody, h₇⟩ := hbl h₆
  obtain ⟨r₈, hclose, h₈⟩ := completes_closing t hk h₇
  obtain ⟨r', hagain, hr'⟩ := completes_repeatedCounter hcounter h₈
  refine ⟨r', yields_lift.mpr (run_forLoop.mpr ⟨⟨n⟩, r₁, r₂, a, r₃, r₄, b, r₅, step, r₆, bl, r₇,
    some k, r₈, hname, hsign, hstart, hto, hstop, hstep, hbody, ?_⟩),
    hr'.warned_append.warned_append.warned_append.warned_append⟩
  rw [hr.current]
  exact ⟨hclose, hagain, rfl⟩

end Operands

/-! ### Chains -/

section Chains

variable {left x y : Expr}

theorem completes_stop (hs : s.link? c p = none) :
    Completes (chain m c p none x).run (.ok x) s s := fun _ r hr =>
  ⟨r, yields_chain.mpr (.inl ⟨yields_nextStep_none.mpr ⟨by rw [hr.link?, hs]; rfl, rfl⟩, rfl⟩), hr⟩

/-- A link and those behind it. -/
theorem completes_link {lk : Link} {b : Option Token} (hlink : s.link? c p = some lk)
    (hy : Warns ws (attach (expression m) c left (.link lk)).run (.ok (y, b)) s s')
    (hx : Warns vs (chain m c p b y).run (.ok x) s' s'') :
    Warns (ws ++ vs) (chain (m + 1) c p none left).run (.ok x) s s'' := by
  intro r₀ r hr
  obtain ⟨r₁, hattach, h₁⟩ := hy hr
  obtain ⟨r', hrest, hr'⟩ := hx h₁
  refine ⟨r', yields_chain.mpr (.inr ⟨.link lk, r, m, y, b, r₁, ?_, rfl, hattach, hrest⟩),
    hr'.warned_append⟩
  exact yields_nextStep_none.mpr ⟨by rw [hr.link?, hlink]; rfl, rfl⟩

theorem completes_binary {op : BinaryOp} (ht : t.isEnd = false)
    (hy : Warns ws (e c op.operator.precedence).run (.ok y) ⟨t.endLine, u⟩ s') :
    Warns ws (attach e c left (.link (.binary op))).run (.ok (.binary t op left y, none))
      ⟨l, t :: u⟩ s' := by
  intro r₀ r hr
  obtain ⟨r', hrun, hr'⟩ := completes_expressionOrMissing hy (hr.advanced ht)
  exact ⟨r', yields_attach_binary.mpr ⟨y, hrun, by rw [hr.current]⟩, hr'⟩

theorem completes_assign (ht : t.isEnd = false) (hleft : left.isAssignable = true)
    (hy : Warns ws (e c loosest).run (.ok y) ⟨t.endLine, u⟩ s') :
    Warns ws (attach e c left (.link .assign)).run (.ok (.assign t left y, none))
      ⟨l, t :: u⟩ s' := by
  intro r₀ r hr
  obtain ⟨r', hrun, hr'⟩ := completes_expressionOrMissing hy (hr.advanced ht)
  refine ⟨r', yields_attach_assign.mpr ⟨y, ?_, by rw [hr.current]⟩, hr'⟩
  rwa [if_pos hleft]

theorem completes_call {xs : List Expr} (ht : t.isEnd = false)
    (hxs : Warns ws (arguments e c .closeParen).run (.ok xs) ⟨t.endLine, u⟩ s') :
    Warns ws (attach e c left (.link .call)).run (.ok (.call t left xs, none)) ⟨l, t :: u⟩ s' := by
  intro r₀ r hr
  obtain ⟨r', hrun, hr'⟩ := hxs (hr.advanced ht)
  exact ⟨r', yields_attach_call.mpr ⟨xs, hrun, by rw [hr.current]⟩, hr'⟩

theorem completes_subscript (bracket : Token) {i : Expr}
    (hi : Warns ws (e c.delimit loosest).run (.ok i) s s') :
    Warns ws (subscript e c bracket left) (.index bracket left i, some bracket) s s' := by
  intro r₀ r hr
  obtain ⟨r', hrun, hr'⟩ := completes_expressionOrMissing hi hr
  exact ⟨r', run_subscript.mpr ⟨i, hrun, rfl⟩, hr'⟩

theorem completes_index {i : Expr} (ht : t.isEnd = false)
    (hi : Warns ws (e c.delimit loosest).run (.ok i) ⟨t.endLine, u⟩ s') :
    Warns ws (attach e c left (.link .index)).run (.ok (.index t left i, some t))
      ⟨l, t :: u⟩ s' := by
  intro r₀ r hr
  obtain ⟨r', hrun, hr'⟩ := completes_subscript t hi (hr.advanced ht)
  exact ⟨r', yields_attach_index.mpr (by rwa [hr.current]), hr'⟩

theorem completes_member {n : Token} (ht : t.isEnd = false) (hn : n.kind = .identifier) :
    Completes (attach e c left (.link .member)).run (.ok (.member t left ⟨n⟩, none))
      ⟨l, t :: n :: u⟩ ⟨n.endLine, u⟩ := by
  intro r₀ r hr
  obtain ⟨r', hrun, hr'⟩ := completes_name hn (hr.advanced ht)
  exact ⟨r', yields_attach_member.mpr ⟨⟨n⟩, hrun, by rw [hr.current]⟩, hr'⟩

/-- One more subscript, and what is behind it. -/
theorem completes_nextSubscript {bracket : Token} {i : Expr} (ht : t.isPunctuation .comma = true)
    (hi : Warns ws (expression m c.delimit loosest).run (.ok i) ⟨t.endLine, u⟩ s')
    (hx : Warns vs (chain m c p (some bracket) (.index bracket left i)).run (.ok x) s' s'') :
    Warns (ws ++ vs) (chain (m + 1) c p (some bracket) left).run (.ok x) ⟨l, t :: u⟩ s'' := by
  intro r₀ r hr
  obtain ⟨r₁, hattach, h₁⟩ := completes_subscript bracket hi
    (hr.advanced (Token.isEnd_of_punctuation ht))
  obtain ⟨r', hrest, hr'⟩ := hx h₁
  refine ⟨r', yields_chain.mpr (.inr ⟨.subscript bracket, r.advanced, m, _, _, r₁, ?_, rfl,
    yields_attach_subscript.mpr hattach, hrest⟩), hr'.warned_append⟩
  rw [yields_nextStep_some, if_pos (by rw [hr.current, ht])]
  exact ⟨rfl, rfl⟩

/-- Behind the closing bracket a chain goes on as behind any operand. -/
theorem yields_nextStep_closed {bracket : Token} {r s : Reader} {step : Option Step}
    (ht : r.current.isPunctuation .closeBracket = true)
    (h : Yields (nextStep c p none) r.advanced step s) :
    Yields (nextStep c p (some bracket)) r step s := by
  obtain ⟨hlink, rfl⟩ := yields_nextStep_none.mp h
  have hcomma : ¬r.current.isPunctuation .comma = true := by simp_all [Token.isPunctuation]
  rw [yields_nextStep_some, if_neg hcomma]
  exact ⟨ht, hlink, rfl⟩

theorem yields_chain_closed {bracket : Token} {r r' : Reader}
    (ht : r.current.isPunctuation .closeBracket = true)
    (h : Yields (chain m c p none left) r.advanced x r') :
    Yields (chain m c p (some bracket) left) r x r' := by
  refine yields_chain.mpr ?_
  refine (yields_chain.mp h).imp (And.imp_left (yields_nextStep_closed ht)) ?_
  rintro ⟨step, s, n, y, b, s', hstep, hrest⟩
  exact ⟨step, s, n, y, b, s', yields_nextStep_closed ht hstep, hrest⟩

theorem completes_closeIndex {bracket : Token} (ht : t.isPunctuation .closeBracket = true)
    (hx : Warns ws (chain m c p none left).run (.ok x) ⟨t.endLine, u⟩ s') :
    Warns ws (chain m c p (some bracket) left).run (.ok x) ⟨l, t :: u⟩ s' := by
  intro r₀ r hr
  obtain ⟨r', hrun, hr'⟩ := hx (hr.advanced (Token.isEnd_of_punctuation ht))
  exact ⟨r', yields_chain_closed (by rw [hr.current, ht]) hrun, hr'⟩

theorem completes_expression (hleft : Warns ws (operand (expression m) c).run (.ok left) s s')
    (hx : Warns vs (chain m c p none left).run (.ok x) s' s'') :
    Warns (ws ++ vs) (expression (m + 1) c p).run (.ok x) s s'' := by
  intro r₀ r hr
  obtain ⟨r₁, hrun, h₁⟩ := hleft hr
  obtain ⟨r', hrest, hr'⟩ := hx h₁
  exact ⟨r', yields_expression_succ.mpr ⟨left, r₁, hrun, hrest⟩, hr'.warned_append⟩

end Chains

/-! ### The first token -/

theorem isEnd_of_link {lk : Link} (h : (⟨l, t :: u⟩ : Spot).link? c p = some lk) :
    t.isEnd = false := by
  rw [Bool.eq_false_iff]
  intro hend
  have hk : t.kind = .endOfInput := by simpa [Token.isEnd] using hend
  have hkind := ofKind?_of_link? h
  rw [hk] at hkind
  cases hkind

/-- No word of a loop is a link. -/
theorem countsLoop_of_link {lk : Link} (h : (⟨l, t :: u⟩ : Spot).link? c p = some lk) :
    t.countsLoop = false := by
  rw [Bool.eq_false_iff]
  intro hcounts
  simp only [Token.countsLoop, Token.isKeyword, Bool.or_eq_true, beq_iff_eq] at hcounts
  have hkind := ofKind?_of_link? h
  rcases hcounts with hk | hk <;> rw [hk] at hkind <;> cases hkind

theorem countsLoop_of_storage (h : isStorage t.kind = true) : t.countsLoop = false := by
  simp only [isStorage, Bool.or_eq_true, beq_iff_eq] at h
  rcases h with (h | h) | h <;> exact Token.countsLoop_of_kind h rfl

/-- An expression begins as an operand does. -/
theorem Derives.begins {lax : Bool} {x : Expr}
    (h : Derives lax m (.expression c p x) ⟨l, t :: u⟩ s') : ∃ st : Starter, st.Begins t := by
  cases h with
  | expression h _ =>
      cases h with
      | name ht => exact ⟨.name, ht⟩
      | integer ht _ => exact ⟨.integer, ht⟩
      | float ht _ => exact ⟨.float, ht⟩
      | string ht => exact ⟨.string, ht⟩
      | date ht => exact ⟨.date, ht⟩
      | boolean ht => exact ⟨.boolean _, ht⟩
      | nil ht => exact ⟨.nil, ht⟩
      | unary ht _ => exact ⟨.unary _, ht⟩
      | group ht _ _ => exact ⟨.group, ht⟩
      | array ht _ => exact ⟨.array, ht⟩
      | ownMember ht _ => exact ⟨.ownMember, ht⟩
      | branch ht _ _ _ _ => exact ⟨.branch, ht⟩
      | whileLoop hword _ _ =>
          cases hword with
          | «while» ht => exact ⟨.whileLoop, .inl ht⟩
          | doWhile ht _ => exact ⟨.whileLoop, .inr ht⟩
      | forLoop ht => exact ⟨.forLoop, ht⟩

theorem Starter.Begins.opensExpression {st : Starter} (h : st.Begins t) :
    opensExpression t.kind = true ∧ isStorage t.kind = false ∧ t.isKeyword .kwReturn = false := by
  have hst := Starter.begins_iff.mpr h
  cases hk : t.kind with
  | keyword k =>
      cases k <;> simp_all [Starter.ofKind?, Grammar.opensExpression, isStorage, Token.isKeyword,
        Keyword.startsExpression, Keyword.category]
  | _ => simp [Grammar.opensExpression, isStorage, Token.isKeyword, hk]

theorem Derives.moreMembers {lax : Bool} {ms : List Member}
    (h : Derives lax m (.member c ms) s s') : s.moreMembers c = true := by
  cases h with
  | attributes ht => simp_all [Spot.moreMembers, Spot.next, Token.isAny, Token.isKeyword,
      TokenKind.keyword?]
  | method ht => simp_all [Spot.moreMembers, Spot.next, Token.isAny, Token.isKeyword,
      TokenKind.keyword?]

/-! ### Phrases -/

/-- The phrase is read between two spots, and this is found on the way. -/
def Phrase.Warned (ws : List Fault) (m : Nat) : Phrase → Spot → Spot → Prop
  | .expression c p x => Warns ws (Grammar.expression m c p).run (.ok x)
  | .operand c x => Warns ws (Grammar.operand (Grammar.expression m) c).run (.ok x)
  | .links c p b left x => Warns ws (chain m c p b left).run (.ok x)
  | .expressions c xs =>
      Warns ws (listed (liftM (expressionOrMissing (Grammar.expression m) c loosest))) (xs, true)
  | .arguments c close xs => Warns ws (Grammar.arguments (Grammar.expression m) c close).run (.ok xs)
  | .step c x => Warns ws (stepClause (Grammar.expression m) c) x
  | .guarded c closers g =>
      Warns ws (Grammar.guarded (Grammar.expression m) c g.token closers) g
  | .branches c gs => Warns ws (otherBranches (Grammar.expression m) c) gs
  | .alternative c b => Warns ws (Grammar.alternative (Grammar.expression m) c) b
  | .block c b => fun s s' => ∀ ⦃outer : Context⦄ ⦃closers⦄, outer.enter closers = c →
      Warns ws (Grammar.block (Grammar.statement (Grammar.expression m)) outer closers) b s s'
  | .statements c ss => Warns ws (repeated (fun r => !r.atEnd && !r.atAny c.closers)
      (Grammar.statement (Grammar.expression m) c)) ss
  | .statement c ss => Warns ws (Grammar.statement (Grammar.expression m) c) ss
  | .declarator c d => Warns ws (Grammar.declarator (Grammar.expression m) c).run (.ok d)
  | .declarators c ds =>
      Warns ws (listed (Grammar.declarator (Grammar.expression m) c)) (ds, true)
  | .routine c closers close x => fun s s' => ∀ what,
      Warns ws (Grammar.routine (Grammar.expression m) c what x.token closers close) x s s'
  | .members c ms => Warns ws (Grammar.members (Grammar.expression m) c) ms
  | .member c ms => Warns ws (Grammar.member (Grammar.expression m) c) (ms, true)

/-- A routine does not end with a word of a loop. -/
def Phrase.EndsPlainly : Phrase → Prop
  | .routine _ _ close _ => close ∉ [Keyword.kwFor, .kwNext]
  | _ => True

/-- What is derived is read, in the same depth. In a lax reading names behind the ends of loops
may be found wrong. -/
theorem Derives.warned {lax : Bool} {q : Phrase} (h : Derives lax m q s s') (hq : q.EndsPlainly) :
    ∃ ws, Counted lax ws s s' ∧ q.Warned ws m s s' := by
  have hpast : ∀ {m c}, ∀ ⦃r ss r'⦄, r.Sound → (!r.atEnd && !r.atAny c.closers) = true →
      Run (Grammar.statement (Grammar.expression m) c) r ss r' → r.Past r' := fun hr hm h =>
    past_statement (lawful_expression _) hr (by simpa using And.left (by simpa using hm)) h
  have hmore : ∀ {c} {s : Spot} {r₀ r : Reader}, r₀.Reaches r s →
      (!r.atEnd && !r.atAny c.closers) = !s.blockEnds c := fun hr => by
    rw [← Bool.not_or, hr.blockEnds]
  induction h with
  | expression _ _ ih ih' =>
      obtain ⟨ws, hcount, hleft⟩ := ih trivial
      obtain ⟨vs, hcount', hx⟩ := ih' trivial
      exact ⟨ws ++ vs, hcount.trans hcount', completes_expression hleft hx⟩
  -- Operands
  | name ht =>
      have hcounts := ht.elim (Token.countsLoop_of_kind · rfl) (Token.countsLoop_of_kind · rfl)
      exact ⟨[], .token hcounts, completes_begun .name ht fun hr => by simp [begun, hr]⟩
  | integer ht hbound =>
      exact ⟨[], .token (Token.countsLoop_of_kind ht rfl), completes_begun .integer ht fun hr =>
        yields_integer.mpr (by simp [hr, hbound])⟩
  | float ht hbits =>
      exact ⟨[], .token (Token.countsLoop_of_kind ht rfl), completes_begun .float ht fun hr =>
        yields_float.mpr (by simp [hr, hbits])⟩
  | string ht =>
      exact ⟨[], .token (Token.countsLoop_of_kind ht rfl), completes_begun .string ht fun hr =>
        yields_lift.mpr (run_string.mpr (by simp [hr]))⟩
  | date ht =>
      exact ⟨[], .token (Token.countsLoop_of_kind ht rfl), completes_begun .date ht fun hr => by
        simp [begun, hr]⟩
  | boolean ht =>
      have hcounts := Token.countsLoop_of_kind ht (by split <;> rfl)
      exact ⟨[], .token hcounts, completes_begun (.boolean _) ht fun hr => by simp [begun, hr]⟩
  | nil ht =>
      exact ⟨[], .token (Token.countsLoop_of_kind ht rfl), completes_begun .nil ht fun hr => by
        simp [begun, hr]⟩
  | unary ht _ ih =>
      obtain ⟨ws, hcount, hx⟩ := ih trivial
      have hcounts := Token.countsLoop_of_kind ht rfl
      exact ⟨ws, hcount.behind hcounts, completes_unary ht hx⟩
  | group ht _ hclose ih =>
      obtain ⟨ws, hcount, hx⟩ := ih trivial
      exact ⟨ws, (hcount.upTo (Token.countsLoop_of_punctuation hclose)).behind
        (Token.countsLoop_of_punctuation ht), completes_group ht hx hclose⟩
  | array ht _ ih =>
      obtain ⟨ws, hcount, hxs⟩ := ih trivial
      exact ⟨ws, hcount.behind (Token.countsLoop_of_punctuation ht), completes_array ht hxs⟩
  | ownMember ht hn =>
      exact ⟨[], (Counted.token (Token.countsLoop_of_kind hn rfl)).behind
        (Token.countsLoop_of_punctuation ht), completes_ownMember ht hn⟩
  | branch ht _ _ _ hk ihg ihgs ihb =>
      obtain ⟨ws, hcount, hg⟩ := ihg trivial
      obtain ⟨vs, hcount', hgs⟩ := ihgs trivial
      obtain ⟨zs, hcount'', hb⟩ := ihb trivial
      exact ⟨ws ++ (vs ++ zs), ((hcount.trans (hcount'.trans hcount'')).upTo
        (Token.countsLoop_of_keyword hk rfl)).behind (Token.countsLoop_of_keyword ht rfl),
        completes_branch ht hg hgs hb hk⟩
  | whileLoop hword _ hk ih =>
      obtain ⟨ws, hcount, hg⟩ := ih trivial
      exact ⟨ws, hword.counted.trans (hcount.upTo (Token.countsLoop_of_keyword hk rfl)),
        completes_whileLoop hword hg hk⟩
  | forLoop ht hn hsign _ hmark _ _ _ hk hcounter iha ihb ihstep ihbl =>
      obtain ⟨ws, hcounta, ha⟩ := iha trivial
      obtain ⟨vs, hcountb, hb⟩ := ihb trivial
      obtain ⟨ys, hcounts, hstep⟩ := ihstep trivial
      obtain ⟨zs, hcountbl, hbl⟩ := ihbl trivial
      have hsigned := ((Bool.or_eq_true _ _).mp hsign).elim Token.countsLoop_of_operator
        Token.countsLoop_of_operator
      have hparts := (hcounta.upTo (Token.countsLoop_of_keyword hmark rfl)).trans
        (hcountb.trans (hcounts.trans hcountbl))
      refine ⟨_, ?_, completes_forLoop ht hn hsign ha hmark hb hstep (hbl rfl) hk hcounter⟩
      simpa only [List.append_assoc] using Counted.loop ht hn hsigned hparts hk hcounter
  -- Links
  | stop hs => exact ⟨[], .refl _, completes_stop hs⟩
  | binary hlink _ _ ih ih' =>
      obtain ⟨ws, hcount, hy⟩ := ih trivial
      obtain ⟨vs, hcount', hx⟩ := ih' trivial
      exact ⟨ws ++ vs, (hcount.trans hcount').behind (countsLoop_of_link hlink),
        completes_link hlink (completes_binary (isEnd_of_link hlink) hy) hx⟩
  | assign hlink hleft _ _ ih ih' =>
      obtain ⟨ws, hcount, hy⟩ := ih trivial
      obtain ⟨vs, hcount', hx⟩ := ih' trivial
      exact ⟨ws ++ vs, (hcount.trans hcount').behind (countsLoop_of_link hlink),
        completes_link hlink (completes_assign (isEnd_of_link hlink) hleft hy) hx⟩
  | call hlink _ _ ih ih' =>
      obtain ⟨ws, hcount, hxs⟩ := ih trivial
      obtain ⟨vs, hcount', hx⟩ := ih' trivial
      exact ⟨ws ++ vs, (hcount.trans hcount').behind (countsLoop_of_link hlink),
        completes_link hlink (completes_call (isEnd_of_link hlink) hxs) hx⟩
  | index hlink _ _ ih ih' =>
      obtain ⟨ws, hcount, hi⟩ := ih trivial
      obtain ⟨vs, hcount', hx⟩ := ih' trivial
      exact ⟨ws ++ vs, (hcount.trans hcount').behind (countsLoop_of_link hlink),
        completes_link hlink (completes_index (isEnd_of_link hlink) hi) hx⟩
  | subscript ht _ _ ih ih' =>
      obtain ⟨ws, hcount, hi⟩ := ih trivial
      obtain ⟨vs, hcount', hx⟩ := ih' trivial
      exact ⟨ws ++ vs, (hcount.trans hcount').behind (Token.countsLoop_of_punctuation ht),
        completes_nextSubscript ht hi hx⟩
  | closeIndex ht _ ih =>
      obtain ⟨ws, hcount, hx⟩ := ih trivial
      exact ⟨ws, hcount.behind (Token.countsLoop_of_punctuation ht), completes_closeIndex ht hx⟩
  | member hlink hn _ ih =>
      obtain ⟨ws, hcount, hx⟩ := ih trivial
      exact ⟨[] ++ ws, (hcount.behind (Token.countsLoop_of_kind hn rfl)).behind
        (countsLoop_of_link hlink),
        completes_link hlink (completes_member (isEnd_of_link hlink) hn) hx⟩
  -- Lists of expressions
  | lastExpression _ hcomma ih =>
      obtain ⟨ws, hcount, hx⟩ := ih trivial
      exact ⟨ws, hcount,
        .listed_last (steady_argument (lawful_expression _)) (completes_argument hx) hcomma⟩
  | moreExpressions _ hcomma _ ih ih' =>
      obtain ⟨ws, hcount, hx⟩ := ih trivial
      obtain ⟨vs, hcount', hxs⟩ := ih' trivial
      exact ⟨ws ++ vs, (hcount.upTo (Token.countsLoop_of_punctuation hcomma)).trans hcount',
        .listed_more (steady_argument (lawful_expression _)) (completes_argument hx) hcomma hxs⟩
  | noArguments ht =>
      exact ⟨[], .token (Token.countsLoop_of_punctuation ht), .listUpTo_nil ht⟩
  | arguments hs _ ht ih =>
      obtain ⟨ws, hcount, hxs⟩ := ih trivial
      exact ⟨ws, hcount.upTo (Token.countsLoop_of_punctuation ht), completes_arguments hs hxs ht⟩
  -- Parts of conditionals and loops
  | noStep hs => exact ⟨[], .refl _, completes_noStep hs⟩
  | step ht _ ih =>
      obtain ⟨ws, hcount, hx⟩ := ih trivial
      exact ⟨ws, hcount.behind (Token.countsLoop_of_keyword ht rfl), completes_step ht hx⟩
  | guarded _ _ ih ih' =>
      obtain ⟨ws, hcount, hx⟩ := ih trivial
      obtain ⟨vs, hcount', hb⟩ := ih' trivial
      exact ⟨ws ++ vs, hcount.trans hcount', completes_guarded hx (hb rfl)⟩
  | noBranches hs => exact ⟨[], .refl _, completes_noBranches (lawful_expression _) hs⟩
  | branches ht _ _ ih ih' =>
      obtain ⟨ws, hcount, hg⟩ := ih trivial
      obtain ⟨vs, hcount', hgs⟩ := ih' trivial
      exact ⟨ws ++ vs, (hcount.trans hcount').behind (Token.countsLoop_of_keyword ht rfl),
        completes_branches (lawful_expression _) ht hg hgs⟩
  | noAlternative hs => exact ⟨[], .refl _, completes_noAlternative hs⟩
  | alternative ht _ ih =>
      obtain ⟨ws, hcount, hb⟩ := ih trivial
      exact ⟨ws, hcount.behind (Token.countsLoop_of_keyword ht rfl),
        completes_alternative ht (hb rfl)⟩
  -- Statements
  | block _ ih =>
      obtain ⟨ws, hcount, hss⟩ := ih trivial
      refine ⟨ws, hcount, ?_⟩
      rintro outer closers rfl
      exact completes_block hss
  | noStatements hs =>
      exact ⟨[], .refl _, .repeated_stop hpast fun _ _ hr => (hmore hr).trans (by simp [hs])⟩
  | statements hs _ _ ih ih' =>
      obtain ⟨ws, hcount, hx⟩ := ih trivial
      obtain ⟨vs, hcount', hxs⟩ := ih' trivial
      exact ⟨ws ++ vs, hcount.trans hcount',
        .repeated_round hpast (fun _ _ hr => (hmore hr).trans (by simp [hs])) hx hxs⟩
  | variableList ht _ hstops ih =>
      obtain ⟨ws, hcount, hds⟩ := ih trivial
      exact ⟨ws, hcount.behind (countsLoop_of_storage ht), completes_variables ht hds hstops⟩
  | returnNothing ht hstops =>
      exact ⟨[], .token (Token.countsLoop_of_keyword ht rfl),
        completes_return ht (completes_returnNothing (Token.isEnd_of_keyword ht) hstops)⟩
  | returnValue ht hgoes _ hstops ih =>
      obtain ⟨ws, hcount, hx⟩ := ih trivial
      exact ⟨ws, hcount.behind (Token.countsLoop_of_keyword ht rfl), completes_return ht
        (completes_returnValue (Token.isEnd_of_keyword ht) hgoes hx hstops)⟩
  | value h hstops ih =>
      obtain ⟨ws, hcount, hx⟩ := ih trivial
      obtain ⟨st, hst⟩ := h.begins
      have hopens := hst.opensExpression
      exact ⟨ws, hcount, completes_value hopens.1 hopens.2.1 hopens.2.2
        (completes_expressionStatement hx hstops)⟩
  | function hc ht _ ih =>
      obtain ⟨ws, hcount, hx⟩ := ih (by simp [Phrase.EndsPlainly])
      exact ⟨ws, hcount.behind (Token.countsLoop_of_keyword ht rfl),
        completes_function hc ht (hx _)⟩
  | staticFunction hc ht hf _ ih =>
      obtain ⟨ws, hcount, hx⟩ := ih (by simp [Phrase.EndsPlainly])
      exact ⟨ws, (hcount.behind (Token.countsLoop_of_keyword hf rfl)).behind
        (Token.countsLoop_of_keyword ht rfl), completes_staticFunction hc ht hf (hx _)⟩
  | classDef hc ht hn hparent _ hk ih =>
      obtain ⟨ws, hcount, hms⟩ := ih trivial
      exact ⟨ws, ((hparent.counted.trans (hcount.upTo (Token.countsLoop_of_keyword hk rfl))).behind
        (Token.countsLoop_of_kind hn rfl)).behind (Token.countsLoop_of_keyword ht rfl),
        completes_classDef hc ht hn hparent hms hk⟩
  -- Parts of declarations
  | declared hn hsign =>
      exact ⟨[], .token (Token.countsLoop_of_kind hn rfl), completes_declared hn hsign⟩
  | initialized hn hsign _ ih =>
      obtain ⟨ws, hcount, hx⟩ := ih trivial
      exact ⟨ws, (hcount.behind (Token.countsLoop_of_operator hsign)).behind
        (Token.countsLoop_of_kind hn rfl), completes_initialized hn hsign hx⟩
  | lastDeclarator _ hcomma ih =>
      obtain ⟨ws, hcount, hd⟩ := ih trivial
      exact ⟨ws, hcount, .listed_last (steady_declarator (lawful_expression _)) hd hcomma⟩
  | moreDeclarators _ hcomma _ ih ih' =>
      obtain ⟨ws, hcount, hd⟩ := ih trivial
      obtain ⟨vs, hcount', hds⟩ := ih' trivial
      exact ⟨ws ++ vs, (hcount.upTo (Token.countsLoop_of_punctuation hcomma)).trans hcount',
        .listed_more (steady_declarator (lawful_expression _)) hd hcomma hds⟩
  | routine hn hps _ hc ih =>
      obtain ⟨ws, hcount, hb⟩ := ih trivial
      have hclosed := (hcount.trans (hc.counted hq))
      rw [List.append_nil] at hclosed
      exact ⟨ws, (hps.counted.trans hclosed).behind (Token.countsLoop_of_kind hn rfl),
        fun what => completes_routine hn hps (hb rfl) hc⟩
  | noMembers hs => exact ⟨[], .refl _, completes_noMembers (lawful_expression _) hs⟩
  | members h _ ih ih' =>
      obtain ⟨ws, hcount, hm⟩ := ih trivial
      obtain ⟨vs, hcount', hms⟩ := ih' trivial
      exact ⟨ws ++ vs, hcount.trans hcount',
        completes_members (lawful_expression _) h.moreMembers hm hms⟩
  | attributes ht hns hstops =>
      exact ⟨[], hns.counted.behind (Token.countsLoop_of_keyword ht rfl),
        completes_attributes ht hns hstops⟩
  | method ht _ ih =>
      obtain ⟨ws, hcount, hx⟩ := ih (by simp [Phrase.EndsPlainly])
      exact ⟨ws, hcount.behind (Token.countsLoop_of_keyword ht rfl), completes_method ht (hx _)⟩

/-- A strict reading finds nothing wrong. -/
theorem Derives.completed {q : Phrase} (h : Derives false m q s s') (hq : q.EndsPlainly) :
    q.Warned [] m s s' := by
  obtain ⟨ws, hcount, hread⟩ := h.warned hq
  rwa [hcount.strict rfl] at hread

end Grammar

end Clipper
