import Clipper.Proofs.Faults.Accounts
import Clipper.Proofs.Grammar.Sequel
import Clipper.Proofs.Position.Located

/-!
Expressions that break off. Where one thing is due and something comes that goes on with no
expression, one error is reported, about what comes, and reading stands in front of it.
-/

namespace Clipper

/-- Neither begins an expression nor goes on with one. -/
structure Token.IsApart (t : Token) : Prop where
  starter : Grammar.Starter.ofKind? t.kind = none
  link : Grammar.Link.ofKind? t.kind = none
  mark : ∀ p, t.isPunctuation p = false

theorem Token.IsApart.of_keyword {t : Token} {k : Keyword} (ht : t.kind = .keyword k)
    (hk : Grammar.Starter.ofKind? (.keyword k) = none) : t.IsApart where
  starter := by rw [ht, hk]
  link := by rw [ht]; rfl
  mark p := by simp [isPunctuation, ht]

theorem Token.IsApart.ne_identifier {t : Token} (h : t.IsApart) : t.kind ≠ .identifier := by
  intro ht
  simpa [ht, Grammar.Starter.ofKind?] using h.starter

/-- With one error more, about the token in front, a reader has come to a spot. -/
structure Reader.Errs (r₀ r : Reader) (b : Token) (s : Spot) : Prop where
  clear : r.Clear
  spot : r.spot = s
  error : ∃ f : Fault, f.isError = true ∧ f.marked = b ∧ r.faults = r₀.faults.push f

namespace Reader

variable {r₀ r r' : Reader} {b : Token} {s s' : Spot}

theorem Reaches.refl (hr : r.Clear) : r.Reaches r r.spot := ⟨hr, rfl, rfl⟩

theorem Reaches.errs (h : r₀.Reaches r s) {f : Fault} (hf : f.isError = true)
    (hillegal : f.illegal? = none) (hb : f.marked = b) : r₀.Errs (r.reported f) b s where
  clear := (h.reported hillegal).clear
  spot := (h.reported hillegal).spot
  error := ⟨f, hf, hb, by simp [Reader.reported, h.clear.unmuted, h.faults]⟩

/-- What is due is missed. -/
theorem Reaches.expected {l : Nat} {v : List Token} (h : r₀.Reaches r ⟨l, b :: v⟩)
    (what : String) : r₀.Errs (r.reported (.expected what r.current)) b ⟨l, b :: v⟩ :=
  h.errs (f := .expected what r.current) rfl rfl h.current

/-- Behind the error reading goes on. -/
theorem Errs.reaches (h : r₀.Errs r b s) : r.Reaches r s := ⟨h.clear, rfl, h.spot⟩

theorem Errs.trans (h : r₀.Errs r b s) (h' : r.Reaches r' s') : r₀.Errs r' b s' :=
  ⟨h'.clear, h'.spot, h'.faults ▸ h.error⟩

/-- The rest of a line is nothing on the next one. -/
theorem Errs.lineSkipped {c : Context} {l : Nat} {v : List Token} (h : r₀.Errs r b ⟨l, b :: v⟩)
    (hb : b.line ≠ l) : r.lineSkipped c = r := by
  refine lineSkipped_of_stops (h.reaches.stops.trans ?_)
  simp [Spot.stops, hb]

end Reader

namespace Grammar

/-- One link more of a chain, and whether a list of subscripts is open in front of it and
behind it. -/
inductive Chained :
    Nat → Context → Nat → Option Token → Expr → Option Token → Expr → Spot → Spot → Prop
  | binary : (⟨l, t :: u⟩ : Spot).link? c p = some (.binary op) →
      Derives false m (.expression c op.operator.precedence y) ⟨t.endLine, u⟩ s →
      Chained m c p none left none (.binary t op left y) ⟨l, t :: u⟩ s
  | assign : (⟨l, t :: u⟩ : Spot).link? c p = some .assign → left.isAssignable = true →
      Derives false m (.expression c loosest y) ⟨t.endLine, u⟩ s →
      Chained m c p none left none (.assign t left y) ⟨l, t :: u⟩ s
  | call : (⟨l, t :: u⟩ : Spot).link? c p = some .call →
      Derives false m (.arguments c .closeParen xs) ⟨t.endLine, u⟩ s →
      Chained m c p none left none (.call t left xs) ⟨l, t :: u⟩ s
  | index : (⟨l, t :: u⟩ : Spot).link? c p = some .index →
      Derives false m (.expression c.delimit loosest i) ⟨t.endLine, u⟩ s →
      Chained m c p none left (some t) (.index t left i) ⟨l, t :: u⟩ s
  | subscript : t.isPunctuation .comma = true →
      Derives false m (.expression c.delimit loosest i) ⟨t.endLine, u⟩ s →
      Chained m c p (some bracket) left (some bracket) (.index bracket left i) ⟨l, t :: u⟩ s
  | member : (⟨l, t :: n :: u⟩ : Spot).link? c p = some .member → n.kind = .identifier →
      Chained m c p none left none (.member t left ⟨n⟩) ⟨l, t :: n :: u⟩ ⟨n.endLine, u⟩

/-- What can fall short. -/
inductive Fragment
  | expression (c : Context) (precedence : Nat)
  | operand (c : Context)
  | links (c : Context) (precedence : Nat) (bracket : Option Token) (left : Expr)

def Fragment.attempt (m : Nat) : Fragment → Attempt Expr
  | .expression c p => Grammar.expression m c p
  | .operand c => Grammar.operand (Grammar.expression m) c
  | .links c p bracket left => chain m c p bracket left

/-- A part that falls short of one thing, which is due at the spot `o`: an operand outside all
brackets, the name of a member, or what closes a bracket. Behind an operator an operand leaves a
placeholder, and the part still gives an expression, which the Boolean tells. Inside brackets it
would leave the bracket to be missed as well. -/
inductive Short (o : Spot) : Nat → Fragment → Bool → Spot → Prop
  -- Operands
  | operand : Short o m (.operand c) false o
  | unary {op : UnaryOp} : t.kind = .operator op.operator →
      Short o m (.expression c Operator.not.precedence) w ⟨t.endLine, u⟩ →
      Short o m (.operand c) true ⟨l, t :: u⟩
  | group : t.isPunctuation .openParen = true →
      Short o m (.expression c.delimit loosest) false ⟨t.endLine, u⟩ →
      Short o m (.operand c) false ⟨l, t :: u⟩
  | openGroup : t.isPunctuation .openParen = true →
      Derives false m (.expression c.delimit loosest x) ⟨t.endLine, u⟩ o →
      Short o m (.operand c) false ⟨l, t :: u⟩
  | openArray : t.isPunctuation .openBrace = true →
      (⟨t.endLine, u⟩ : Spot).next (·.isPunctuation .closeBrace) = false →
      Derives false m (.expressions c.delimit xs) ⟨t.endLine, u⟩ o →
      Short o m (.operand c) false ⟨l, t :: u⟩
  | ownMember : t.isPunctuation .colonColon = true → (⟨t.endLine, u⟩ : Spot) = o →
      Short o m (.operand c) false ⟨l, t :: u⟩
  -- Expressions
  | alone : Short o m (.operand c) w s → Short o (m + 1) (.expression c p) w s
  | linked : Derives false m (.operand c left) s s' → Short o m (.links c p none left) w s' →
      Short o (m + 1) (.expression c p) w s
  -- Links
  | right : (⟨l, t :: u⟩ : Spot).link? c p = some (.binary op) →
      Short o m (.expression c op.operator.precedence) w ⟨t.endLine, u⟩ →
      Short o (m + 1) (.links c p none left) true ⟨l, t :: u⟩
  | assigned : (⟨l, t :: u⟩ : Spot).link? c p = some .assign → left.isAssignable = true →
      Short o m (.expression c loosest) w ⟨t.endLine, u⟩ →
      Short o (m + 1) (.links c p none left) true ⟨l, t :: u⟩
  | openCall : (⟨l, t :: u⟩ : Spot).link? c p = some .call →
      (⟨t.endLine, u⟩ : Spot).next (·.isPunctuation .closeParen) = false →
      Derives false m (.expressions c.delimit xs) ⟨t.endLine, u⟩ o →
      Short o (m + 1) (.links c p none left) false ⟨l, t :: u⟩
  | member : (⟨l, t :: u⟩ : Spot).link? c p = some .member → (⟨t.endLine, u⟩ : Spot) = o →
      Short o (m + 1) (.links c p none left) false ⟨l, t :: u⟩
  | openIndex : Short o m (.links c p (some bracket) left) false o
  | closeIndex : t.isPunctuation .closeBracket = true →
      Short o m (.links c p none left) w ⟨t.endLine, u⟩ →
      Short o m (.links c p (some bracket) left) w ⟨l, t :: u⟩
  | further : Chained m c p bracket left bracket' y s s' →
      Short o m (.links c p bracket' y) w s' →
      Short o (m + 1) (.links c p bracket left) w s

/-! ### Attempts with one error -/

variable {α : Type} {e : Expressions} {c : Context} {b t : Token} {l m p : Nat}
  {u v : List Token} {s s' : Spot} {w : Bool}

/-- The attempt is carried through, or it is given up. -/
def Concludes (a : Attempt α) : Bool → Reader → Reader → Prop
  | true, r, r' => ∃ x, Yields a r x r'
  | false, r, r' => Refuses a r r'

namespace Concludes

variable {r r₁ r₂ r' : Reader} {bracket bracket' : Option Token} {left y : Expr}

/-- An operand with no link behind it. -/
theorem alone (h : Concludes (operand (Grammar.expression m) c) w r r')
    (hchain : ∀ x, Yields (chain m c p none x) r' x r') :
    Concludes (Grammar.expression (m + 1) c p) w r r' := by
  cases w with
  | true =>
      obtain ⟨x, hx⟩ := h
      exact ⟨x, yields_expression_succ.mpr ⟨x, r', hx, hchain x⟩⟩
  | false => exact refuses_expression_succ.mpr (.inl h)

theorem linked (h : Concludes (chain m c p none left) w r₁ r')
    (hleft : Yields (operand (Grammar.expression m) c) r left r₁) :
    Concludes (Grammar.expression (m + 1) c p) w r r' := by
  cases w with
  | true =>
      obtain ⟨x, hx⟩ := h
      exact ⟨x, yields_expression_succ.mpr ⟨left, r₁, hleft, hx⟩⟩
  | false => exact refuses_expression_succ.mpr (.inr ⟨left, r₁, hleft, h⟩)

theorem further {step : Step} (h : Concludes (chain m c p bracket' y) w r₂ r')
    (hstep : Yields (nextStep c p bracket) r (some step) r₁)
    (hattach : Yields (attach (Grammar.expression m) c left step) r₁ (y, bracket') r₂) :
    Concludes (chain (m + 1) c p bracket left) w r r' := by
  cases w with
  | true =>
      obtain ⟨x, hx⟩ := h
      exact ⟨x, yields_chain.mpr (.inr ⟨step, r₁, m, y, bracket', r₂, hstep, rfl, hattach, hx⟩)⟩
  | false =>
      exact refuses_chain.mpr
        (.inr ⟨step, r₁, hstep, .inr ⟨m, rfl, .inr ⟨y, bracket', r₂, hattach, h⟩⟩⟩)

theorem closed {t : Token} (h : Concludes (chain m c p none left) w r.advanced r')
    (ht : r.current.isPunctuation .closeBracket = true) :
    Concludes (chain m c p (some t) left) w r r' := by
  cases w with
  | true =>
      obtain ⟨x, hx⟩ := h
      exact ⟨x, yields_chain_closed ht hx⟩
  | false =>
      rcases refuses_chain.mp h with hnone | ⟨step, s, hstep, hrest⟩
      · exact absurd hnone refuses_nextStep_none
      · exact refuses_chain.mpr (.inr ⟨step, s, yields_nextStep_closed ht hstep, hrest⟩)

end Concludes

/-- The attempt ends with one error, about the token `b`. -/
def Misses (a : Attempt α) (w : Bool) (b : Token) (s s' : Spot) : Prop :=
  ∀ ⦃r₀ r : Reader⦄, r₀.Reaches r s → ∃ r', Concludes a w r r' ∧ r₀.Errs r' b s'

theorem misses_name {what : String} (hb : b.kind ≠ .identifier) :
    Misses (name what) false b ⟨l, b :: v⟩ ⟨l, b :: v⟩ := by
  intro r₀ r hr
  exact ⟨_, refuses_name.mpr ⟨by rwa [hr.current], rfl⟩, hr.expected what⟩

theorem misses_punctuation {q : Punctuation} (hb : b.isPunctuation q = false) :
    Misses (expectPunctuation q) false b ⟨l, b :: v⟩ ⟨l, b :: v⟩ := by
  intro r₀ r hr
  exact ⟨_, refuses_expectPunctuation.mpr ⟨by rw [hr.current, hb], rfl⟩, hr.expected _⟩

/-- A list without what closes it. -/
theorem misses_listUpTo {item : Attempt α} {close : Punctuation} {xs : List α}
    (hs : s.next (·.isPunctuation close) = false)
    (hxs : Completes (listed item) (xs, true) s ⟨l, b :: v⟩)
    (hb : b.isPunctuation close = false) :
    Misses (listUpTo close item) false b s ⟨l, b :: v⟩ := by
  intro r₀ r hr
  obtain ⟨r₁, hrun, h₁⟩ := hxs hr
  obtain ⟨r', hclose, hr'⟩ := misses_punctuation hb h₁
  refine ⟨r', refuses_listUpTo.mpr ⟨by rw [hr.next (·.isPunctuation close), hs], ?_⟩, hr'⟩
  exact .inr ⟨xs, r₁, hrun, hclose⟩

/-- Behind a refused expression nothing of its line is left to skip. -/
theorem Misses.expressionOrMissing (h : Misses (e c p) w b s ⟨l, b :: v⟩) (hb : b.line ≠ l)
    {r₀ r : Reader} (hr : r₀.Reaches r s) :
    ∃ x r', Run (expressionOrMissing e c p) r x r' ∧ r₀.Errs r' b ⟨l, b :: v⟩ := by
  obtain ⟨r', hends, hr'⟩ := h hr
  cases w with
  | true =>
      obtain ⟨x, hx⟩ := hends
      exact ⟨x, r', run_expressionOrMissing.mpr (.inl hx), hr'⟩
  | false =>
      refine ⟨_, r', run_expressionOrMissing.mpr (.inr ⟨r', hends, rfl, ?_⟩), hr'⟩
      split
      · rfl
      · exact hr'.lineSkipped hb

/-! ### Parts -/

/-- A link of a chain is read. -/
theorem Chained.reads {bracket bracket' : Option Token} {left y : Expr}
    (h : Chained m c p bracket left bracket' y s s') {r₀ r : Reader} (hr : r₀.Reaches r s) :
    ∃ step r₁ r', Yields (nextStep c p bracket) r (some step) r₁ ∧
      Yields (attach (expression m) c left step) r₁ (y, bracket') r' ∧ r₀.Reaches r' s' := by
  have hlink : ∀ {lk : Link} {s₁}, s.link? c p = some lk →
      Completes (attach (expression m) c left (.link lk)).run (.ok (y, bracket')) s s₁ →
      ∃ step r₁ r', Yields (nextStep c p none) r (some step) r₁ ∧
        Yields (attach (expression m) c left step) r₁ (y, bracket') r' ∧ r₀.Reaches r' s₁ := by
    intro lk s₁ hlk hattach
    obtain ⟨r', hrun, hr'⟩ := hattach hr
    exact ⟨.link lk, r, r', yields_nextStep_none.mpr ⟨by rw [hr.link?, hlk]; rfl, rfl⟩, hrun, hr'⟩
  cases h with
  | binary hlk hy => exact hlink hlk (completes_binary (isEnd_of_link hlk) (hy.completed trivial))
  | assign hlk hleft hy =>
      exact hlink hlk (completes_assign (isEnd_of_link hlk) hleft (hy.completed trivial))
  | call hlk hxs => exact hlink hlk (completes_call (isEnd_of_link hlk) (hxs.completed trivial))
  | index hlk hi => exact hlink hlk (completes_index (isEnd_of_link hlk) (hi.completed trivial))
  | member hlk hn => exact hlink hlk (completes_member (isEnd_of_link hlk) hn)
  | subscript ht hi =>
      obtain ⟨r', hrun, hr'⟩ :=
        completes_subscript _ (hi.completed trivial) (hr.advanced (Token.isEnd_of_punctuation ht))
      refine ⟨.subscript _, r.advanced, r', ?_, yields_attach_subscript.mpr hrun, hr'⟩
      rw [yields_nextStep_some, if_pos (by rw [hr.current, ht])]
      exact ⟨rfl, rfl⟩

section Misses

variable (hb : b.IsApart)

include hb

/-- An operand in the place of which the token comes. -/
theorem misses_operand : Misses (operand e c) false b ⟨l, b :: v⟩ ⟨l, b :: v⟩ := by
  intro r₀ r hr
  refine ⟨_, refuses_operand.mpr (.inr ⟨by rw [hr.current, hb.starter], rfl⟩), ?_⟩
  exact hr.errs (f := .notAnExpression r.current) rfl rfl hr.current

/-- In front of the token a chain ends. -/
theorem chain_ends {r₀ r : Reader} {x : Expr} (hr : r₀.Errs r b ⟨l, b :: v⟩) :
    Yields (chain m c p none x) r x r := by
  refine yields_chain.mpr (.inl ⟨yields_nextStep_none.mpr ⟨?_, rfl⟩, rfl⟩)
  rw [hr.reaches.link?]
  simp [Spot.link?, hb.link]

omit hb in
/-- An operand that begins with a token of the right kind and falls short behind it. -/
theorem misses_begun (st : Starter) (ht : st.Begins t)
    (h : Misses (begun e c st) w b ⟨l, t :: u⟩ s') :
    Misses (operand e c) w b ⟨l, t :: u⟩ s' := by
  intro r₀ r hr
  obtain ⟨r', hends, hr'⟩ := h hr
  have hst : Starter.ofKind? r.current.kind = some st := by
    rw [hr.current]
    exact Starter.begins_iff.mpr ht
  refine ⟨r', ?_, hr'⟩
  cases w with
  | true =>
      obtain ⟨x, hx⟩ := hends
      exact ⟨x, yields_operand.mpr ⟨st, hst, hx⟩⟩
  | false => exact refuses_operand.mpr (.inl ⟨st, hst, hends⟩)

/-- The last link of a chain, with a placeholder on its right. -/
theorem misses_right {lk : Link} {left : Expr} {l' : Nat}
    (hlk : (⟨l, t :: u⟩ : Spot).link? c p = some lk)
    (h : ∀ ⦃r₀ r : Reader⦄, r₀.Reaches r ⟨l, t :: u⟩ →
      ∃ y r', Yields (attach (expression m) c left (.link lk)) r (y, none) r' ∧
        r₀.Errs r' b ⟨l', b :: v⟩) :
    Misses (chain (m + 1) c p none left) true b ⟨l, t :: u⟩ ⟨l', b :: v⟩ := by
  intro r₀ r hr
  obtain ⟨y, r', hattach, hr'⟩ := h hr
  refine ⟨r', ⟨y, yields_chain.mpr (.inr ⟨.link lk, r, m, y, none, r', ?_, rfl, hattach, ?_⟩)⟩, hr'⟩
  · exact yields_nextStep_none.mpr ⟨by rw [hr.link?, hlk]; rfl, rfl⟩
  · exact chain_ends hb hr'

omit hb in
/-- The last link of a chain, which is refused. -/
theorem misses_link {lk : Link} {left : Expr} (hlk : s.link? c p = some lk)
    (h : Misses (attach (expression m) c left (.link lk)) false b s s') :
    Misses (chain (m + 1) c p none left) false b s s' := by
  intro r₀ r hr
  obtain ⟨r', hattach, hr'⟩ := h hr
  refine ⟨r', refuses_chain.mpr (.inr ⟨.link lk, r, ?_, .inr ⟨m, rfl, .inl hattach⟩⟩), hr'⟩
  exact yields_nextStep_none.mpr ⟨by rw [hr.link?, hlk]; rfl, rfl⟩

end Misses

/-- A part that falls short is read with one error, about the token in the place of what is due. -/
theorem Short.misses {q : Fragment} (h : Short ⟨l, b :: v⟩ m q w s) (hb : b.IsApart)
    (hline : b.line ≠ l) : Misses (q.attempt m) w b s ⟨l, b :: v⟩ := by
  induction h with
  | operand => exact misses_operand hb
  | unary ht _ ih =>
      refine misses_begun (.unary _) ht fun r₀ r hr => ?_
      obtain ⟨x, r', hrun, hr'⟩ := ih.expressionOrMissing hline
        (hr.advanced (Token.isEnd_of_kind ht (by rename UnaryOp => op; cases op <;> rfl)))
      exact ⟨r', ⟨_, yields_lift.mpr (run_unary.mpr ⟨x, hrun, rfl⟩)⟩, hr'⟩
  | group ht _ ih =>
      refine misses_begun .group ht fun r₀ r hr => ?_
      obtain ⟨r', hends, hr'⟩ := ih (hr.advanced (Token.isEnd_of_punctuation ht))
      exact ⟨r', refuses_group.mpr (.inl hends), hr'⟩
  | openGroup ht hx =>
      refine misses_begun .group ht fun r₀ r hr => ?_
      obtain ⟨r₁, hrun, h₁⟩ := hx.completed trivial (hr.advanced (Token.isEnd_of_punctuation ht))
      obtain ⟨r', hclose, hr'⟩ := misses_punctuation (hb.mark .closeParen) h₁
      exact ⟨r', refuses_group.mpr (.inr ⟨_, r₁, hrun, hclose⟩), hr'⟩
  | openArray ht hs hxs =>
      refine misses_begun .array ht fun r₀ r hr => ?_
      obtain ⟨r', hends, hr'⟩ := misses_listUpTo hs (hxs.completed trivial) (hb.mark _)
        (hr.advanced (Token.isEnd_of_punctuation ht))
      exact ⟨r', refuses_array.mpr hends, hr'⟩
  | ownMember ht ho =>
      refine misses_begun .ownMember ht fun r₀ r hr => ?_
      have ha := hr.advanced (Token.isEnd_of_punctuation ht)
      rw [ho] at ha
      obtain ⟨r', hends, hr'⟩ := misses_name hb.ne_identifier ha
      exact ⟨r', refuses_ownMember.mpr hends, hr'⟩
  | alone _ ih =>
      intro r₀ r hr
      obtain ⟨r', hends, hr'⟩ := ih hr
      exact ⟨r', hends.alone fun _ => chain_ends hb hr', hr'⟩
  | linked hleft _ ih =>
      intro r₀ r hr
      obtain ⟨r₁, hrun, h₁⟩ := hleft.completed trivial hr
      obtain ⟨r', hends, hr'⟩ := ih h₁
      exact ⟨r', hends.linked hrun, hr'⟩
  | right hlk _ ih =>
      refine misses_right hb hlk fun r₀ r hr => ?_
      obtain ⟨x, r', hrun, hr'⟩ := ih.expressionOrMissing hline (hr.advanced (isEnd_of_link hlk))
      exact ⟨_, r', yields_attach_binary.mpr ⟨x, hrun, rfl⟩, hr'⟩
  | assigned hlk hleft _ ih =>
      refine misses_right hb hlk fun r₀ r hr => ?_
      obtain ⟨x, r', hrun, hr'⟩ := ih.expressionOrMissing hline (hr.advanced (isEnd_of_link hlk))
      exact ⟨_, r', yields_attach_assign.mpr ⟨x, by rwa [if_pos hleft], rfl⟩, hr'⟩
  | openCall hlk hs hxs =>
      refine misses_link hlk fun r₀ r hr => ?_
      obtain ⟨r', hends, hr'⟩ := misses_listUpTo hs (hxs.completed trivial) (hb.mark _)
        (hr.advanced (isEnd_of_link hlk))
      exact ⟨r', refuses_attach.mpr (.inl ⟨rfl, hends⟩), hr'⟩
  | member hlk ho =>
      refine misses_link hlk fun r₀ r hr => ?_
      have ha := hr.advanced (isEnd_of_link hlk)
      rw [ho] at ha
      obtain ⟨r', hends, hr'⟩ := misses_name hb.ne_identifier ha
      exact ⟨r', refuses_attach.mpr (.inr ⟨rfl, hends⟩), hr'⟩
  | openIndex =>
      intro r₀ r hr
      obtain ⟨r', hclose, hr'⟩ := misses_punctuation (hb.mark .closeBracket) hr
      refine ⟨r', refuses_chain.mpr (.inl (refuses_nextStep_some.mpr ⟨?_, hclose⟩)), hr'⟩
      rw [hr.current, hb.mark]
  | closeIndex ht _ ih =>
      intro r₀ r hr
      obtain ⟨r', hends, hr'⟩ := ih (hr.advanced (Token.isEnd_of_punctuation ht))
      exact ⟨r', hends.closed (by rw [hr.current, ht]), hr'⟩
  | further hchained _ ih =>
      intro r₀ r hr
      obtain ⟨step, r₁, r₂, hstep, hattach, h₂⟩ := hchained.reads hr
      obtain ⟨r', hends, hr'⟩ := ih h₂
      exact ⟨r', hends.further hstep hattach, hr'⟩

end Grammar

end Clipper
