import Clipper.Proofs.Grammar.Soundness.Statement

/-!
Soundness of the reading of expressions, and with it of whole texts.
-/

namespace Clipper

namespace Grammar

variable {lax : Bool} {m : Nat} {e : Expressions} {c : Context} {r r' : Reader}

/-- What a token is that begins an operand. -/
def Starter.Begins : Starter → Token → Prop
  | name, t => t.kind = .identifier ∨ t.kind = .keyword .kwSelf
  | integer, t => t.kind = .integer
  | float, t => t.kind = .float
  | string, t => t.kind = .string
  | date, t => t.kind = .date
  | boolean value, t => t.kind = .keyword (if value then .kwTrue else .kwFalse)
  | nil, t => t.kind = .keyword .kwNil
  | unary op, t => t.kind = .operator op.operator
  | group, t => t.isPunctuation .openParen = true
  | array, t => t.isPunctuation .openBrace = true
  | ownMember, t => t.isPunctuation .colonColon = true
  | branch, t => t.isKeyword .kwIf = true
  | whileLoop, t => t.isKeyword .kwWhile = true ∨ t.isKeyword .kwDo = true
  | forLoop, t => t.isKeyword .kwFor = true

theorem Starter.begins_iff {s : Starter} {t : Token} :
    Starter.ofKind? t.kind = some s ↔ s.Begins t := by
  constructor
  · intro h
    generalize hk : t.kind = k at h
    unfold ofKind? at h
    split at h <;> cases h <;>
      simp [Begins, Token.isKeyword, Token.isPunctuation, UnaryOp.operator, hk]
  · intro h
    cases s with
    | name | whileLoop =>
        rcases h with h | h
        · simp_all [Token.isKeyword, ofKind?]
        · simp_all [Token.isKeyword, ofKind?]
    | boolean value =>
        rw [show t.kind = _ from h]
        cases value <;> rfl
    | unary op =>
        rw [show t.kind = _ from h]
        cases op <;> rfl
    | group | array | ownMember | branch | forLoop =>
        rw [show t.kind = _ from beq_iff_eq.mp h]
        rfl
    | _ =>
        rw [show t.kind = _ from h]
        rfl

section Operands

variable (he : e.Derived lax m)

include he

/-! ### Operands -/

theorem derives_expressions {xs : List Expr} (hr : r.Sound) (hclean : r'.Clean lax)
    (h : Lists (liftM (expressionOrMissing e c loosest)) r xs true r') :
    Derives lax m (.expressions c xs) r.spot r'.spot := by
  have hsteady := steady_argument (c := c) he.toLawful
  generalize hw : true = whole at h
  induction h with
  | refused _ => simp at hw
  | last hx hcomma =>
      have hs := (hsteady.yields hr hx).sound
      exact .lastExpression (derives_expressionOrMissing he hr hclean (yields_lift.mp hx))
        ((Reader.next_spot hs _).trans hcomma)
  | more hx hcomma hrest ih =>
      have hs := (hsteady.yields hr hx).sound
      have ha := Reader.onward_advanced hs
      have hd := derives_expressionOrMissing he hr
        (hclean.of_onward (ha.trans (hrest.onward hsteady ha.sound))) (yields_lift.mp hx)
      rw [Reader.spot_eq hs (Reader.atEnd_of_punctuation hcomma)] at hd
      exact .moreExpressions hd hcomma (ih ha.sound hclean hw)

theorem derives_arguments {close : Punctuation} {xs : List Expr} (hr : r.Sound)
    (hclean : r'.Clean lax) (h : Yields (arguments e c close) r xs r') :
    Derives lax m (.arguments c close xs) r.spot r'.spot := by
  have hsteady := steady_argument (c := c.delimit) he.toLawful
  rw [arguments, yields_listUpTo] at h
  split at h
  · rename_i hclose
    obtain ⟨rfl, rfl⟩ := h
    rw [Reader.spot_eq hr (Reader.atEnd_of_punctuation hclose)]
    exact .noArguments hclose
  · rename_i hopen
    obtain ⟨s, hs, hclose, rfl⟩ := h
    have hlist := (run_listed hsteady hr).mp hs
    have ho := hlist.onward hsteady hr
    have hd := derives_expressions he hr
      (hclean.of_onward (Reader.onward_advanced ho.sound)) hlist
    rw [Reader.spot_eq ho.sound (Reader.atEnd_of_punctuation hclose)] at hd
    exact .arguments ((Reader.next_spot hr _).trans (by simpa using hopen)) hd hclose

theorem derives_body {closers : List Keyword} {b : Block} (hr : r.Sound) (hclean : r'.Clean lax)
    (h : Run (body e c closers) r b r') :
    Derives lax m (.block (c.insideExpression.enter closers) b) r.spot r'.spot :=
  derives_block (fun _ _ _ _ => past_statement he.toLawful) (fun _ _ _ _ => derives_statement he)
    hr hclean h

theorem derives_guarded {t : Token} {closers : List Keyword} {g : Guarded} (hr : r.Sound)
    (hclean : r'.Clean lax) (h : Run (guarded e c t closers) r g r') :
    ∃ x b, g = ⟨t, x, b⟩ ∧ Derives lax m (.guarded c closers g) r.spot r'.spot := by
  obtain ⟨x, s, b, hx, hb, rfl⟩ := run_guarded.mp h
  have hs := steady_expressionOrMissing he.toLawful _ hr hx
  have hblock := steady_body he.toLawful _ hs.sound hb
  exact ⟨x, b, rfl, .guarded (derives_expressionOrMissing he hr (hclean.of_onward hblock) hx)
    (derives_body he hs.sound hclean hb)⟩

theorem derives_otherBranches {gs : List Guarded} (hr : r.Sound) (hclean : r'.Clean lax)
    (h : Run (otherBranches e c) r gs r') : Derives lax m (.branches c gs) r.spot r'.spot := by
  have hround := past_elseIf (c := c) he.toLawful
  have hgs := (run_otherBranches he.toLawful hr).mp h
  clear h
  induction hgs with
  | stop hm => exact .noBranches ((Reader.next_spot hr _).trans hm)
  | round hm hx hrest ih =>
      have hp := hround hr hm hx
      have ho := hrest.onward hround hp.onward.sound
      obtain ⟨g, hg, rfl⟩ := run_elseIf.mp hx
      obtain ⟨x, b, rfl, hd⟩ := derives_guarded he (Reader.sound_advanced hr)
        (hclean.of_onward ho) hg
      rw [Reader.spot_eq hr (Reader.atEnd_of_keyword hm)]
      exact .branches hm hd (ih hp.onward.sound hclean)

theorem derives_alternative {b : Option Block} (hr : r.Sound) (hclean : r'.Clean lax)
    (h : Run (alternative e c) r b r') : Derives lax m (.alternative c b) r.spot r'.spot := by
  rw [run_alternative] at h
  split at h
  · rename_i hk
    obtain ⟨b, hb, rfl⟩ := h
    rw [Reader.spot_eq hr (Reader.atEnd_of_keyword hk)]
    exact .alternative hk (derives_body he (Reader.sound_advanced hr) hclean hb)
  · rename_i hk
    obtain ⟨rfl, rfl⟩ := h
    exact .noAlternative ((Reader.next_spot hr _).trans (by simpa using hk))

theorem derives_branch {x : Expr} (hr : r.Sound) (hclean : r'.Clean lax)
    (hk : r.current.isKeyword .kwIf = true) (h : Run (branch e c) r x r') :
    Derives lax m (.operand c x) r.spot r'.spot := by
  obtain ⟨g, s, gs, s₁, b, s₂, hg, hgs, hb, closed, hc, rfl⟩ := run_branch.mp h
  have ha := Reader.sound_advanced hr
  have h₁ := steady_guarded he.toLawful _ _ ha hg
  have h₂ := steady_otherBranches he.toLawful h₁.sound hgs
  have h₃ := steady_alternative he.toLawful h₂.sound hb
  have hclean₃ := hclean.of_onward (steady_closing _ _ h₃.sound hc)
  have hclean₂ := hclean₃.of_onward h₃
  obtain ⟨x, body, rfl, hguarded⟩ := derives_guarded he ha (hclean₂.of_onward h₂) hg
  have hbranches := derives_otherBranches he h₁.sound hclean₂ hgs
  have halternative := derives_alternative he h₂.sound hclean₃ hb
  obtain ⟨hend, rfl, rfl⟩ := closing_of_clean h₃.sound hclean hc
  rw [Reader.spot_eq h₃.sound (Reader.atEnd_of_keyword hend)] at halternative
  rw [Reader.spot_eq hr (Reader.atEnd_of_keyword hk)]
  exact .branch hk hguarded hbranches halternative hend

theorem derives_whileLoop {x : Expr} (hr : r.Sound) (hclean : r'.Clean lax)
    (hk : r.current.isKeyword .kwWhile = true ∨ r.current.isKeyword .kwDo = true)
    (h : Run (whileLoop e c) r x r') : Derives lax m (.operand c x) r.spot r'.spot := by
  obtain ⟨s, g, s₁, hs, hg, closed, hc, rfl⟩ := run_whileLoop.mp h
  have ha := Reader.sound_advanced hr
  have hend : r.atEnd = false := hk.elim Reader.atEnd_of_keyword Reader.atEnd_of_keyword
  have h₁ : r.advanced.Onward s := by
    split at hs
    · exact steady_requireKeyword _ ha hs
    · exact hs ▸ .refl ha
  have h₂ := steady_guarded he.toLawful _ _ h₁.sound hg
  have hclean₂ := hclean.of_onward (steady_closing _ _ h₂.sound hc)
  obtain ⟨x, body, rfl, hguarded⟩ := derives_guarded he h₁.sound hclean₂ hg
  have hword : LoopWord r.current r.spot s.spot := by
    rw [Reader.spot_eq hr hend]
    split at hs
    · rename_i hdo
      obtain ⟨hwhile, rfl⟩ := requireKeyword_of_clean ha (hclean₂.of_onward h₂) hs
      rw [Reader.spot_eq ha (Reader.atEnd_of_keyword hwhile)]
      exact .doWhile hdo hwhile
    · rename_i hdo
      subst hs
      exact .while (hk.resolve_right hdo)
  obtain ⟨hclose, rfl, rfl⟩ := closing_of_clean h₂.sound hclean hc
  rw [Reader.spot_eq h₂.sound (Reader.atEnd_of_keyword hclose)] at hguarded
  exact .whileLoop hword hguarded hclose

theorem derives_stepClause {x : Option Expr} (hr : r.Sound) (hclean : r'.Clean lax)
    (h : Run (stepClause e c) r x r') : Derives lax m (.step c x) r.spot r'.spot := by
  rw [run_stepClause] at h
  split at h
  · rename_i hk
    obtain ⟨y, hy, rfl⟩ := h
    rw [Reader.spot_eq hr (Reader.atEnd_of_keyword hk)]
    exact .step hk (derives_expressionOrMissing he (Reader.sound_advanced hr) hclean hy)
  · rename_i hk
    obtain ⟨rfl, rfl⟩ := h
    exact .noStep ((Reader.next_spot hr _).trans (by simpa using hk))

omit he in
/-- The warning about another counter passes only in a lax reading. -/
theorem derives_repeatedCounter {n : Name} (hr : r.Sound) (hclean : r'.Clean lax)
    (hn : n.isMissing = false) (h : Run (repeatedCounter n) r () r') :
    CounterAgain lax n.token r.spot r'.spot := by
  rw [run_repeatedCounter] at h
  split at h
  · rename_i hname
    obtain ⟨hk, hline⟩ := Bool.and_eq_true _ _ ▸ hname
    have hk : r.current.kind = .identifier := by simpa using hk
    have hline : r.current.line = r.line := by simpa [Reader.sameLine] using hline
    have ha := Reader.sound_advanced hr
    rw [Reader.spot_eq hr (Reader.atEnd_of_kind hk (by simp))]
    split at h
    · subst h
      have hlax : lax = true := by
        by_cases hm : r.advanced.muted = true
        · obtain ⟨t, ht⟩ := ha.muted_deep hm
          have := (hclean _ (by simpa [Reader.reported, hm] using ht)).2
          simp [Fault.isError] at this
        · exact (hclean (.otherCounter r.current n.token) (by simp [Reader.reported, hm])).1
      have hspot : (r.advanced.reported (.otherCounter r.current n.token)).spot =
          r.advanced.spot := by
        simp [Reader.spot]
      rw [hspot]
      exact .named hk hline (by simp [hlax])
    · rename_i hsame
      subst h
      refine .named hk hline ?_
      simp only [hn, Bool.not_false, Bool.true_and, Bool.not_eq_true', Bool.not_eq_false] at hsame
      exact Bool.or_eq_true _ _ ▸ .inr hsame
  · rename_i hname
    subst h
    refine .absent ?_
    rw [Reader.next_spot hr]
    simpa [Reader.sameLine, Reader.spot] using hname

omit he in
theorem sign_of_clean {n : Name} (hr : r.Sound) (hclean : r'.Clean lax)
    (hn : n.isMissing = false) (h : Run (counterSign n) r () r') :
    (r.current.isOperator .assign || r.current.isOperator .equal) = true ∧ r' = r.advanced := by
  rw [run_counterSign] at h
  split at h
  · rename_i hsign
    exact ⟨hsign, h.symm⟩
  · rw [if_neg (by simp [hn])] at h
    exact absurd (h ▸ hclean) (Reader.not_clean_reported hr rfl rfl)

theorem derives_forLoop {x : Expr} (hr : r.Sound) (hclean : r'.Clean lax)
    (hk : r.current.isKeyword .kwFor = true) (h : Run (forLoop e c) r x r') :
    Derives lax m (.operand c x) r.spot r'.spot := by
  obtain ⟨n, s, s₁, a, s₂, s₃, b, s₄, step, s₅, bl, s₆, closed, s₇, hn, hs, ha, hto, hb, hst, hbl,
    hc, hlast, rfl⟩ := run_forLoop.mp h
  have h₀ := Reader.sound_advanced hr
  have h₁ := steady_nameOrMissing _ h₀ hn
  have h₂ := steady_counterSign _ h₁.sound hs
  have h₃ := steady_expressionOrMissing he.toLawful _ h₂.sound ha
  have h₄ := steady_requireKeyword _ h₃.sound hto
  have h₅ := steady_expressionOrMissing he.toLawful _ h₄.sound hb
  have h₆ := steady_stepClause he.toLawful h₅.sound hst
  have h₇ := steady_body he.toLawful _ h₆.sound hbl
  have h₈ := steady_closing _ _ h₇.sound hc
  have hclean₈ : s₇.Clean lax := by
    split at hlast
    · exact hclean.of_onward (steady_repeatedCounter _ h₈.sound hlast)
    · exact hlast ▸ hclean
  have hclean₇ := hclean₈.of_onward h₈
  have hclean₆ := hclean₇.of_onward h₇
  have hclean₅ := hclean₆.of_onward h₆
  have hclean₄ := hclean₅.of_onward h₅
  have hclean₃ := hclean₄.of_onward h₄
  have hclean₂ := hclean₃.of_onward h₃
  have hstart := derives_expressionOrMissing he h₂.sound hclean₃ ha
  have hstop := derives_expressionOrMissing he h₄.sound hclean₅ hb
  have hstep := derives_stepClause he h₅.sound hclean₆ hst
  have hbody := derives_body he h₆.sound hclean₇ hbl
  obtain ⟨hname, rfl, rfl⟩ := identifier_of_clean h₀ (hclean₂.of_onward h₂) hn
  have hwritten : (⟨r.advanced.current⟩ : Name).isMissing = false :=
    h₀.current_written (Reader.atEnd_of_kind hname (by simp))
  obtain ⟨hsign, rfl⟩ := sign_of_clean h₁.sound hclean₂ hwritten hs
  obtain ⟨hkto, rfl⟩ := requireKeyword_of_clean h₃.sound hclean₄ hto
  obtain ⟨hend, rfl, rfl⟩ := closing_of_clean h₇.sound hclean₈ hc
  have hcounter := derives_repeatedCounter h₈.sound hclean hwritten (by simpa using hlast)
  have hatEnd : r.advanced.advanced.atEnd = false :=
    (Bool.or_eq_true _ _ ▸ hsign).elim Reader.atEnd_of_operator Reader.atEnd_of_operator
  rw [Reader.spot_eq h₇.sound (Reader.atEnd_of_keyword hend)] at hbody
  rw [Reader.spot_eq h₃.sound (Reader.atEnd_of_keyword hkto)] at hstart
  rw [Reader.spot_eq hr (Reader.atEnd_of_keyword hk),
    Reader.spot_eq h₀ (Reader.atEnd_of_kind hname (by simp)), Reader.spot_eq h₁.sound hatEnd]
  exact .forLoop hk hname hsign hstart hkto hstop hstep hbody hend hcounter

theorem derives_operand {x : Expr} (hr : r.Sound) (hclean : r'.Clean lax)
    (h : Yields (operand e c) r x r') : Derives lax m (.operand c x) r.spot r'.spot := by
  obtain ⟨s, hs, hx⟩ := yields_operand.mp h
  have hend := atEnd_of_starter hs
  have ha := Reader.sound_advanced hr
  have hkind := Starter.begins_iff.mp hs
  have hspot := Reader.spot_eq hr hend
  cases s with
  | name =>
      simp only [begun, yields_bind, yields_lift, run_advance, yields_pure] at hx
      obtain ⟨_, _, ⟨rfl, rfl⟩, rfl, rfl⟩ := hx
      exact hspot ▸ .name hkind
  | date =>
      simp only [begun, yields_bind, yields_lift, run_advance, yields_pure] at hx
      obtain ⟨_, _, ⟨rfl, rfl⟩, rfl, rfl⟩ := hx
      exact hspot ▸ .date hkind
  | boolean value =>
      simp only [begun, yields_bind, yields_lift, run_advance, yields_pure] at hx
      obtain ⟨_, _, ⟨rfl, rfl⟩, rfl, rfl⟩ := hx
      exact hspot ▸ .boolean hkind
  | nil =>
      simp only [begun, yields_bind, yields_lift, run_advance, yields_pure] at hx
      obtain ⟨_, _, ⟨rfl, rfl⟩, rfl, rfl⟩ := hx
      exact hspot ▸ .nil hkind
  | integer =>
      obtain ⟨hbound, rfl, rfl⟩ := yields_integer.mp hx
      exact hspot ▸ .integer hkind hbound
  | float =>
      obtain ⟨_, hbits, rfl, rfl⟩ := yields_float.mp hx
      exact hspot ▸ .float hkind hbits
  | string =>
      obtain ⟨rfl, rfl⟩ := run_string.mp (yields_lift.mp hx)
      exact hspot ▸ .string hkind
  | unary op =>
      obtain ⟨y, hy, rfl⟩ := run_unary.mp (yields_lift.mp hx)
      exact hspot ▸ .unary hkind (derives_expressionOrMissing he ha hclean hy)
  | group =>
      obtain ⟨s, hy, hclose, rfl⟩ := yields_group.mp hx
      have hp := he.past ha hy
      have hd := he.derives ha (hclean.of_onward (Reader.onward_advanced hp.onward.sound)) hy
      rw [Reader.spot_eq hp.onward.sound (Reader.atEnd_of_punctuation hclose)] at hd
      exact hspot ▸ .group hkind hd hclose
  | array =>
      obtain ⟨xs, hxs, rfl⟩ := yields_array.mp hx
      exact hspot ▸ .array hkind (derives_arguments he ha hclean hxs)
  | ownMember =>
      obtain ⟨n, hn, rfl⟩ := yields_ownMember.mp hx
      obtain ⟨hname, rfl, rfl⟩ := yields_name.mp hn
      rw [hspot, Reader.spot_eq ha (Reader.atEnd_of_kind hname (by simp))]
      exact .ownMember hkind hname
  | branch => exact derives_branch he hr hclean hkind (yields_lift.mp hx)
  | whileLoop => exact derives_whileLoop he hr hclean hkind (yields_lift.mp hx)
  | forLoop => exact derives_forLoop he hr hclean hkind (yields_lift.mp hx)

/-! ### Chains -/

omit he in
/-- Where no further link comes the expression is read. -/
theorem derives_end {p : Nat} {bracket : Option Token} {left : Expr} (hr : r.Sound)
    (h : Yields (nextStep c p bracket) r none r') :
    Derives lax m (.links c p bracket left left) r.spot r'.spot := by
  cases bracket with
  | none =>
      obtain ⟨hlink, rfl⟩ := yields_nextStep_none.mp h
      exact .stop ((Reader.link?_spot hr p).trans (Option.map_eq_none_iff.mp hlink))
  | some t =>
      rw [yields_nextStep_some] at h
      split at h
      · simp at h
      · obtain ⟨hclose, hlink, rfl⟩ := h
        rw [Reader.spot_eq hr (Reader.atEnd_of_punctuation hclose)]
        refine .closeIndex hclose (.stop ?_)
        exact (Reader.link?_spot (Reader.sound_advanced hr) p).trans
          (Option.map_eq_none_iff.mp hlink)

theorem derives_subscript {bracket : Token} {left y : Expr} {b : Option Token} (hr : r.Sound)
    (hclean : r'.Clean lax) (h : Run (subscript e c bracket left) r (y, b) r') :
    ∃ i, y = .index bracket left i ∧ b = some bracket ∧
      Derives lax m (.expression c.delimit loosest i) r.spot r'.spot := by
  obtain ⟨i, hi, hout⟩ := run_subscript.mp h
  obtain ⟨rfl, rfl⟩ := Prod.mk.inj hout
  exact ⟨i, rfl, rfl, derives_expressionOrMissing he hr hclean hi⟩

/-- A link in front of those that are known. -/
theorem derives_link {p : Nat} {l : Link} {left x y : Expr} {b : Option Token} {s : Spot}
    (hr : r.Sound) (hclean : r'.Clean lax) (hlink : link? c p r = some l)
    (h : Yields (attach e c left (.link l)) r (y, b) r')
    (hrest : Derives lax m (.links c p b y x) r'.spot s) :
    Derives lax (m + 1) (.links c p none left x) r.spot s := by
  have ha := Reader.sound_advanced hr
  have hend : r.atEnd = false := by
    refine Reader.atEnd_of_kind rfl fun hk => ?_
    simp [link?, Link.ofKind?, hk] at hlink
  have hspot := Reader.spot_eq hr hend
  have hlink : (⟨r.line, r.current :: r.advanced.spot.rest⟩ : Spot).link? c p = some l := by
    rw [← hspot, Reader.link?_spot hr, hlink]
  rw [hspot]
  cases l with
  | binary op =>
      obtain ⟨z, hz, hout⟩ := yields_attach_binary.mp h
      obtain ⟨rfl, rfl⟩ := Prod.mk.inj hout
      exact .binary hlink (derives_expressionOrMissing he ha hclean hz) hrest
  | assign =>
      obtain ⟨z, hz, hout⟩ := yields_attach_assign.mp h
      obtain ⟨rfl, rfl⟩ := Prod.mk.inj hout
      split at hz
      · rename_i htarget
        exact .assign hlink htarget (derives_expressionOrMissing he ha hclean hz) hrest
      · have hg := Reader.GivesUp.reported (f := .notAssignable left.token) ha rfl rfl
        have ho := steady_expressionOrMissing he.toLawful _ hg.onward.sound hz
        exact absurd hclean (hg.onward_right ho).not_clean
  | call =>
      obtain ⟨xs, hxs, hout⟩ := yields_attach_call.mp h
      obtain ⟨rfl, rfl⟩ := Prod.mk.inj hout
      exact .call hlink (derives_arguments he ha hclean hxs) hrest
  | index =>
      obtain ⟨i, rfl, rfl, hi⟩ := derives_subscript he ha hclean (yields_attach_index.mp h)
      exact .index hlink hi hrest
  | member =>
      obtain ⟨n, hn, hout⟩ := yields_attach_member.mp h
      obtain ⟨rfl, rfl⟩ := Prod.mk.inj hout
      obtain ⟨hname, rfl, rfl⟩ := yields_name.mp hn
      rw [Reader.spot_eq ha (Reader.atEnd_of_kind hname (by simp))] at hlink ⊢
      exact .member hlink hname hrest

end Operands

theorem derives_chain {n p : Nat} (he : ∀ m < n, (expression m).Derived lax m)
    {bracket : Option Token} {left x : Expr} (hr : r.Sound) (hclean : r'.Clean lax)
    (h : Yields (chain n c p bracket left) r x r') :
    Derives lax n (.links c p bracket left x) r.spot r'.spot := by
  induction n generalizing bracket left r with
  | zero =>
      rcases yields_chain.mp h with ⟨hs, rfl⟩ | ⟨_, _, _, _, _, _, _, hn, _⟩
      · exact derives_end hr hs
      · simp at hn
  | succ n ih =>
      rcases yields_chain.mp h with ⟨hs, rfl⟩ | ⟨step, s, m, y, b, s', hstep, hm, hy, hx⟩
      · exact derives_end hr hs
      obtain rfl := Nat.succ.inj hm
      have hn := he n (Nat.lt_succ_self n)
      have hlower : ∀ m < n, (expression m).Derived lax m := fun m hm =>
        he m (Nat.lt_succ_of_lt hm)
      have hs := (steady_nextStep p bracket).yields hr hstep
      have hs' := (steady_attach hn.toLawful left step).yields hs.sound hy
      have hlinks := steady_chain (c := c) (fun m hm => (hlower m hm).toLawful) p b y
      have hclean' := hclean.of_onward (hlinks.yields hs'.sound hx)
      have hrest := ih hlower hs'.sound hx
      cases bracket with
      | none =>
          obtain ⟨hlink, rfl⟩ := yields_nextStep_none.mp hstep
          obtain ⟨l, hl, rfl⟩ := Option.map_eq_some_iff.mp hlink
          exact derives_link hn hr hclean' hl hy hrest
      | some t =>
          have ha := Reader.sound_advanced hr
          rw [yields_nextStep_some] at hstep
          split at hstep
          · rename_i hcomma
            obtain ⟨hstep, rfl⟩ := hstep
            obtain rfl := Option.some.inj hstep
            obtain ⟨i, rfl, rfl, hi⟩ := derives_subscript hn ha hclean'
              (yields_attach_subscript.mp hy)
            rw [Reader.spot_eq hr (Reader.atEnd_of_punctuation hcomma)]
            exact .subscript hcomma hi hrest
          · obtain ⟨hclose, hlink, rfl⟩ := hstep
            obtain ⟨l, hl, rfl⟩ := Option.map_eq_some_iff.mp hlink
            rw [Reader.spot_eq hr (Reader.atEnd_of_punctuation hclose)]
            exact .closeIndex hclose (derives_link hn ha hclean' hl hy hrest)

/-- An expression that is read without a fault is derived, in the depth it was read with. -/
theorem derived_expression (lax : Bool) (n : Nat) : (expression n).Derived lax n := by
  induction n using Nat.strongRecOn with
  | ind n ih =>
      refine ⟨accounted_expression n, fun c p r x r' hr hclean h => ?_⟩
      cases n with
      | zero => exact absurd h yields_expression_zero
      | succ n =>
          obtain ⟨left, s, hleft, hx⟩ := yields_expression_succ.mp h
          have hn := ih n (Nat.lt_succ_self n)
          have hlower : ∀ m < n, (expression m).Derived lax m := fun m hm =>
            ih m (Nat.lt_succ_of_lt hm)
          have hp := past_operand hn.toLawful hr hleft
          have hchain := steady_chain (c := c) (fun m hm => (hlower m hm).toLawful) p none left
          have hclean' := hclean.of_onward (hchain.yields hp.onward.sound hx)
          exact .expression (derives_operand hn hr hclean' hleft)
            (derives_chain hlower hp.onward.sound hclean hx)

/-! ### Texts -/

/-- A text without errors has no illegal characters. -/
theorem legal_of_noErrors {s : TokenStream} (hs : s.Closed)
    (h : ∀ f ∈ (Parsed.ofStream s).faults, f.isError = false) :
    ∀ t ∈ s.body, t.isIllegal = false := by
  obtain ⟨r, hreads, hfaults⟩ := exists_reads hs
  have hlegal : s.body.filter Token.isIllegal = [] := by
    rw [← hreads.illegals, ← hfaults, List.filterMap_eq_nil_iff]
    intro f hf
    have := h f hf
    cases f <;> simp_all [Fault.isError, Fault.illegal?]
  exact fun t ht => Bool.eq_false_iff.mpr (List.filter_eq_nil_iff.mp hlegal t ht)

/-- The tokens of a text that was read without a fault make up its tree. -/
theorem derives_program {s : TokenStream} (hs : s.Closed)
    (hclean : ∀ f ∈ (Parsed.ofStream s).faults, lax = true ∧ f.isError = false) :
    ∃ l, Derives lax maxDepth (.statements .file (Parsed.ofStream s).program.statements)
      ⟨1, s.toList⟩ ⟨l, [s.last]⟩ := by
  obtain ⟨r, hreads, hfaults⟩ := exists_reads hs
  have hr := Reader.sound_ofStream hs
  have hlegal := legal_of_noErrors hs fun f hf => (hclean f hf).2
  have hclean : r.Clean lax := fun f hf => hclean f (hfaults ▸ Array.mem_toList_iff.mpr hf)
  have hspot : (Reader.ofStream s).spot = ⟨1, s.toList⟩ := by
    have hbody : (s.body.filter fun t => !t.isIllegal) = s.body :=
      List.filter_eq_self.mpr fun t ht => by simp [hlegal t ht]
    rw [Reader.spot, Reader.pending_ofStream hs, hbody]
    rfl
  have hend : r.spot = ⟨r.line, [s.last]⟩ := by
    rw [Reader.spot, Reader.pending_of_atEnd hreads.onward.sound hreads.atEnd, hreads.onward.last]
    rfl
  refine ⟨r.line, ?_⟩
  rw [← hspot, ← hend]
  have hpast : ∀ ⦃c r ss r'⦄, r.Sound → r.atEnd = false →
      Run (statement (expression maxDepth) c) r ss r' → r.Past r' :=
    fun _ _ _ _ => past_statement (lawful_expression _)
  refine derives_statements hpast
    (fun _ _ _ hr hclean h => derives_statement (derived_expression lax _) hr hclean h) hr hclean ?_
  have hmore : (fun r : Reader => !r.atEnd && !r.atAny Context.file.closers) = (!·.atEnd) := by
    funext r
    simp [Reader.atAny, Context.file, Option.any]
    cases r.current.kind.keyword? <;> simp
  rw [hmore]
  exact hreads.statements

end Grammar

end Clipper
