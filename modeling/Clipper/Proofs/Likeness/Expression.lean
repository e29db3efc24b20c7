import Clipper.Proofs.Likeness.Operand

/-!
Expressions side by side. At whatever depth they are read alike, if nothing is left open
behind them where the first text ends.
-/

namespace Clipper

namespace Correspondence

variable {K : Correspondence} {nested : Bool} {x y : Expr}

/-- A link over corresponding tokens. -/
inductive Links (K : Correspondence) : Grammar.Step → Grammar.Step → Prop
  | link (l : Grammar.Link) : Links K (.link l) (.link l)
  | subscript {t u : Token} : K.token t u → Links K (.subscript t) (.subscript u)

theorem meets_token (h : K.Exprs nested x y) : K.Meets x.token y.token := by
  cases h with
  | branch hg _ _ _ =>
      cases hg with
      | guarded ht _ _ => exact .inl ht
  | whileLoop hg _ =>
      cases hg with
      | guarded ht _ _ => exact .inl ht
  | missing ht => exact ht
  | _ => exact .inl (by assumption)

theorem isAssignable_eq (h : K.Exprs nested x y) : x.isAssignable = y.isAssignable := by
  cases h <;> rfl

end Correspondence

namespace Grammar

open Concur

variable {K : Correspondence} {P : Prop} {D : Reader → Prop} {guarded : Prop} {n p : Nat}
  {c : Context} {b b' : Option Token} {left left' : Expr} {step step' : Step}

/-! ### Operands -/

theorem concur_begun (he : Compares K n) (st : Starter) :
    Concur K P (Begins K n c st) True (Carried (K.Exprs c.inRoutine))
      (begun (expression n) c st).run (begun (expression n) c st).run := by
  cases st with
  | name => exact concur_nameOperand
  | integer => exact concur_integer
  | float => exact concur_float
  | string => exact lift concur_string
  | date => exact (lift (concur_begin .date)).andThen fun _ _ => .yield fun h => .date h.2.1
  | boolean value =>
      exact (lift (concur_begin (.boolean value))).andThen fun _ _ => .yield fun h => .boolean h.2.1
  | nil => exact (lift (concur_begin .nil)).andThen fun _ _ => .yield fun h => .nil h.2.1
  | unary op => exact lift (concur_unary he op)
  | group => exact concur_group he
  | array => exact concur_array he
  | ownMember => exact concur_ownMember
  | branch => exact lift (concur_branch he)
  | whileLoop => exact lift (concur_whileLoop he)
  | forLoop => exact lift (concur_forLoop he)

theorem concur_operand (he : Compares K n) :
    Concur K P (Shut K c (.operand n c)) True (Carried (K.Exprs c.inRoutine))
      (operand (expression n) c).run (operand (expression n) c).run := by
  have hsteady := steady_operand (c := c) (lawful_expression n)
  refine .intro hsteady hsteady fun hp r r' e e' s s' hr hd h h' => ?_
  have hkind : Starter.ofKind? r.current.kind = Starter.ofKind? r'.current.kind :=
    hr.ask (by decide)
  cases hst : Starter.ofKind? r.current.kind with
  | some st =>
      have hst' := hkind ▸ hst
      exact (concur_begun he st).alike hp hr ⟨hst, hd⟩ ((run_operand hst).mp h)
        ((run_operand hst').mp h') (.inl trivial)
  | none =>
      have hst' := hkind ▸ hst
      have hrefused : ∀ {r s : Reader} {e : Except Refusal Expr},
          Starter.ofKind? r.current.kind = none → Run (operand (expression n) c).run r e s →
            e = .error .reported ∧ r.reported (.notAnExpression r.current) = s := by
        intro r s e hnone h
        rcases run_attempt h with ⟨x, -, h⟩ | ⟨rfl, h⟩
        · obtain ⟨st, hst, -⟩ := yields_operand.mp h
          simp [hnone] at hst
        · rcases refuses_operand.mp h with ⟨st, hst, -⟩ | ⟨-, h⟩
          · simp [hnone] at hst
          · exact ⟨rfl, h⟩
      obtain ⟨rfl, rfl⟩ := hrefused hst h
      obtain ⟨rfl, rfl⟩ := hrefused hst' h'
      exact ⟨.error, hr.reported (.notAnExpression hr.meets)⟩

/-! ### Links -/

theorem concur_nextSubscript {t t' : Token} (ht : P → K.token t t') :
    Concur K P D guarded (Carried (Option.Rel K.Links)) (nextSubscript t).run
      (nextSubscript t').run := by
  unfold nextSubscript
  refine (lift (concur_punctuation? .comma)).andThen fun o o' => .attempt_ite ?_ ?_ ?_
  · rintro ⟨_, h⟩
    cases h <;> rfl
  · exact .yield fun h => .some (.subscript (ht h.1.1))
  · exact (concur_expectPunctuation .closeBracket).andThen fun _ _ => .yield fun _ => .none

theorem concur_link? :
    Concur K P D guarded (Carried (Option.Rel K.Links))
      (do return (link? c p (← get)).map .link : Attempt (Option Step)).run
      (do return (link? c p (← get)).map .link : Attempt (Option Step)).run := by
  refine (lift concur_get).andThen fun r r' => .yield fun h => ?_
  rw [h.2.link?]
  cases link? c p r' with
  | none => exact .none
  | some l => exact .some (.link l)

theorem concur_nextStep (hb : P → Option.Rel K.token b b') :
    Concur K P D guarded (Carried (Option.Rel K.Links)) (nextStep c p b).run
      (nextStep c p b').run := by
  refine .when (steady_nextStep p _) (steady_nextStep p _) fun hp => ?_
  cases hb hp with
  | none =>
      refine .andThen (R := Option.Rel K.Links) (.yield fun _ => .none) (.attempt_option ?_ ?_)
      · exact fun _ _ => .yield fun h => .some h.2
      · exact concur_link?
  | some ht =>
      refine (concur_nextSubscript fun _ => ht).andThen (.attempt_option ?_ ?_)
      · exact fun _ _ => .yield fun h => .some h.2
      · exact concur_link?

/-- What has been read so far, with the bracket of a list of subscripts that is open. -/
def Linked (K : Correspondence) (nested : Bool) (x y : Expr × Option Token) : Prop :=
  K.Exprs nested x.1 y.1 ∧ Option.Rel K.token x.2 y.2

theorem concur_subscript (he : Compares K n) {t t' : Token} (ht : P → K.token t t')
    (hleft : P → K.Exprs c.inRoutine left left') :
    Concur K P (Shut K c (.expression n c.delimit loosest)) True (Linked K c.inRoutine)
      (subscript (expression n) c t left) (subscript (expression n) c t' left') :=
  (concur_expressionOrMissing (c := c.delimit) he).bind fun _ _ =>
    .pure fun h => ⟨.index (ht h.1) (hleft h.1) h.2, .some (ht h.1)⟩

/-- A link is taken where the text goes on. -/
def Attaches (K : Correspondence) (n : Nat) (c : Context) (left : Expr) (step : Step)
    (r : Reader) : Prop :=
  (∀ l, step = .link l → r.atEnd = false) ∧ Shut K c (.link n c left step) r

/-- A value that is assigned, behind the sign for it. -/
theorem concur_assigned (he : Compares K n) {t t' : Token} (ht : P → K.token t t')
    (hleft : P → K.Exprs c.inRoutine left left') :
    Concur K P (fun r => Shut K c (.expression n c loosest)
        (if left.isAssignable then r else r.reported (.notAssignable left.token))) True
      (Carried (Linked K c.inRoutine))
      (do
        unless left.isAssignable do report (.notAssignable left.token)
        return (.assign t left (← expressionOrMissing (expression n) c loosest), none) :
          Attempt (Expr × Option Token)).run
      (do
        unless left'.isAssignable do report (.notAssignable left'.token)
        return (.assign t' left' (← expressionOrMissing (expression n) c loosest), none) :
          Attempt (Expr × Option Token)).run := by
  have hvalue : ∀ {Q : Prop}, (Q → P) → Concur K Q (Shut K c (.expression n c loosest)) True
      (Carried (Linked K c.inRoutine))
      (do return (.assign t left (← expressionOrMissing (expression n) c loosest), none) :
          Attempt (Expr × Option Token)).run
      (do return (.assign t' left' (← expressionOrMissing (expression n) c loosest), none) :
          Attempt (Expr × Option Token)).run :=
    fun hq => (lift (concur_expressionOrMissing he)).andThen fun _ _ =>
      .yield fun h => ⟨.assign (ht (hq h.1)) (hleft (hq h.1)) h.2, .none⟩
  refine .attempt_ite (fun hp => ?_) ((hvalue And.left).begun fun h r hd => ?_) ?_
  · rw [Correspondence.isAssignable_eq (hleft hp)]
  · simpa [h.2] using hd
  · refine (lift (concur_report rfl rfl fun h => .notAssignable ?_)).then_of
      (E := fun _ => Shut K c (.expression n c loosest)) (fun _ _ => hvalue fun h => h.1.1) ?_
    · exact Correspondence.meets_token (hleft h.1)
    · rintro ⟨_, h⟩ r u s hd hrun
      obtain rfl := run_report.mp (yields_lift.mp hrun)
      simpa [h] using hd

theorem concur_link (he : Compares K n) (hleft : P → K.Exprs c.inRoutine left left') (l : Link) :
    Concur K P (Attaches K n c left (.link l)) True (Carried (Linked K c.inRoutine))
      (attach (expression n) c left (.link l)).run
      (attach (expression n) c left' (.link l)).run := by
  have hadvance : Concur K P (Attaches K n c left (.link l)) True K.token advance advance :=
    concur_advance fun _ _ h => h.1 l rfl
  have hbehind : ∀ {E : Reader → Prop}, (∀ r : Reader, Shut K c (.link n c left (.link l)) r →
      E r.advanced) → P → ∀ ⦃r : Reader⦄ ⦃t : Token⦄ ⦃s : Reader⦄,
      Attaches K n c left (.link l) r → Yields (liftM advance) r t s → E s := by
    rintro E hE - r t s hd h
    obtain ⟨rfl, rfl⟩ := run_advance.mp (yields_lift.mp h)
    exact hE r hd.2
  cases l with
  | binary op =>
      refine (lift hadvance).then_of
        (E := fun _ => Shut K c (.expression n c op.operator.precedence)) (fun t t' => ?_)
        (hbehind fun r h => h.imp id fun hleft h => hleft (.binary h))
      exact (lift (concur_expressionOrMissing he)).andThen fun _ _ =>
        .yield fun h => ⟨.binary h.1.2 (hleft h.1.1) h.2, .none⟩
  | assign =>
      refine (lift hadvance).then_of
        (E := fun _ r => Shut K c (.expression n c loosest)
          (if left.isAssignable then r else r.reported (.notAssignable left.token)))
        (fun t t' => ?_) (hbehind fun r h => h.imp id fun hleft h => hleft (.assign h))
      exact concur_assigned he And.right fun h => hleft h.1
  | call =>
      refine (lift hadvance).then_of
        (E := fun _ r => r.current.isPunctuation .closeParen = false → Shut K c (.items n c) r)
        (fun t t' => ?_)
        (hbehind fun r h hclose => h.imp id fun hleft h => hleft (.call hclose h))
      exact (concur_arguments he .closeParen).andThen fun xs xs' => .yield fun h =>
        ⟨.call h.1.2 (hleft h.1.1) (Correspondence.expressions_of_forall₂ h.2), .none⟩
  | index =>
      refine (lift hadvance).then_of
        (E := fun _ => Shut K c (.expression n c.delimit loosest)) (fun t t' => ?_)
        (hbehind fun r h => h.imp id fun hleft h => hleft (.index h))
      exact lift (concur_subscript he And.right fun h => hleft h.1)
  | member =>
      refine (lift hadvance).andThen fun t t' => (concur_name _).andThen fun m m' =>
        .yield fun h => ⟨.member h.1.2 (hleft h.1.1) h.2, .none⟩

theorem concur_attach (he : Compares K n) (hleft : P → K.Exprs c.inRoutine left left')
    (hstep : P → K.Links step step') :
    Concur K P (Attaches K n c left step) True (Carried (Linked K c.inRoutine))
      (attach (expression n) c left step).run (attach (expression n) c left' step').run := by
  refine .when (steady_attach (lawful_expression n) _ _) (steady_attach (lawful_expression n) _ _)
    fun hp => ?_
  cases hstep hp with
  | link l => exact concur_link he hleft l
  | subscript ht =>
      exact lift ((concur_subscript he (fun _ => ht) hleft).begun fun _ _ hd =>
        hd.2.imp id fun hleft h => hleft (.subscript h))

/-! ### Chains and expressions -/

theorem atEnd_of_nextStep {r s : Reader} {l : Link}
    (h : Yields (nextStep c p b) r (some (.link l)) s) : s.atEnd = false := by
  have hlink : ∀ {r : Reader}, (link? c p r).map Step.link = some (.link l) → r.atEnd = false := by
    intro r h
    refine Reader.atEnd_of_kind rfl fun hk => ?_
    simp [link?, hk, Link.ofKind?] at h
  cases b with
  | none =>
      obtain ⟨hl, rfl⟩ := yields_nextStep_none.mp h
      exact hlink hl
  | some t =>
      rw [yields_nextStep_some] at h
      split at h
      · simp at h
      · exact h.2.2 ▸ hlink h.2.1

theorem concur_chain (he : ∀ m < n, Compares K m) (hleft : P → K.Exprs c.inRoutine left left')
    (hb : P → Option.Rel K.token b b') :
    Concur K P (Shut K c (.chain n c p b left)) True (Carried (K.Exprs c.inRoutine))
      (chain n c p b left).run (chain n c p b' left').run := by
  induction n generalizing P b b' left left' with
  | zero =>
      rw [chain, chain]
      exact (concur_nextStep hb).andThen
        (.attempt_option (fun _ _ => concur_refuseDepth) (.yield hleft))
  | succ n ih =>
      have hn := he n (Nat.lt_succ_self n)
      rw [chain, chain]
      refine (concur_nextStep hb).then_of
        (E := fun o s => ∀ step, o = some step → Attaches K n c left step s ∧
          ∀ x b s', Yields (attach (expression n) c left step) s (x, b) s' →
            Shut K c (.chain n c p b x) s')
        (.attempt_option (fun step step' => ?_) (.yield hleft)) ?_
      · refine ((concur_attach hn (fun h => hleft h.1) And.right).begun
          fun _ _ hd => (hd step rfl).1).then_of
          (E := fun out => Shut K c (.chain n c p out.2 out.1)) (fun out out' => ?_) ?_
        · exact ih (fun m hm => he m (Nat.lt_succ_of_lt hm)) (fun h => h.2.1) fun h => h.2.2
        · rintro - r ⟨x, b⟩ s hd h
          exact (hd step rfl).2 x b s h
      · rintro - r o s hd h step rfl
        refine ⟨⟨?_, hd.imp id fun hleft h' => hleft (.link h h')⟩, fun x b s' hx => ?_⟩
        · rintro l rfl
          exact atEnd_of_nextStep h
        · exact hd.imp id fun hleft h' => hleft (.nextLink h hx h')

/-- Whatever their depth, expressions are read alike. -/
theorem compares_expression (n : Nat) : Compares K n := by
  induction n using Nat.strongRecOn with
  | ind n ih =>
      cases n with
      | zero =>
          intro c p
          rw [expression]
          exact concur_refuseDepth
      | succ n =>
          intro c p
          rw [expression]
          refine ((concur_operand (ih n (Nat.lt_succ_self n))).begun fun _ r hd => ?_).then_of
            (E := fun x => Shut K c (.chain n c p none x)) (fun x x' => ?_) ?_
          · exact hd.imp id fun hleft h => hleft (.operand h)
          · exact concur_chain (fun m hm => ih m (Nat.lt_succ_of_lt hm)) And.right fun _ => .none
          · rintro - r x s hd h
            exact hd.imp id fun hleft h' => hleft (.chain h h')

end Grammar

end Clipper
