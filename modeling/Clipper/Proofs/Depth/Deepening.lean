import Clipper.Proofs.Likeness.Token

/-!
The bound on the depth of expressions only ever cuts off. Where no expression proves too
deep, a reading with a higher bound takes the same way and ends with the same result. That
is shown part by part, with a rule for each combinator.
-/

namespace Clipper

namespace Grammar

variable {α β : Type} {e e' : Expressions} {c : Context}

theorem steady_get : Steady get := fun _ _ _ hr h => (run_get.mp h).2 ▸ .refl hr

theorem steady_discard {m : Reading α} (hm : Steady m) : Steady (discard m) :=
  fun _ _ _ hr h => let ⟨_, h⟩ := run_discard.mp h; hm hr h

theorem steady_unmute : Steady unmute := fun r _ _ hr h => by
  have hsettled : r.settled .file = { r with muted := false } := rfl
  exact run_unmute.mp h ▸ hsettled ▸ Reader.onward_settled hr

theorem steady_skipLine : Steady (skipLine c) := fun _ _ _ hr h =>
  run_skipLine.mp h ▸ Reader.onward_lineSkipped hr

theorem steady_recover (start : Nat) : Steady (recover c start) := fun _ _ _ hr h =>
  run_recover.mp h ▸ Reader.onward_recovered hr start

/-- Begun anywhere, the second reading goes as the first one, unless that one has found an
expression too deep when it ends. -/
structure Deepens (m m' : Reading α) : Prop where
  steady : Steady m
  same : ∀ ⦃r x s⦄, r.Sound → Run m r x s → ¬s.TooDeep → Run m' r x s

namespace Deepens

/-! ### Combinators -/

theorem refl {m : Reading α} (hm : Steady m) : Deepens m m := ⟨hm, fun _ _ _ _ h _ => h⟩

/-- A reading that gives up for the depth. -/
theorem of_tooDeep {m m' : Reading α} (hm : Steady m)
    (h : ∀ ⦃r x s⦄, r.Sound → Run m r x s → s.TooDeep) : Deepens m m' :=
  ⟨hm, fun _ _ _ hr hx hs => absurd (h hr hx) hs⟩

theorem pure (x : α) : Deepens (pure x) (Pure.pure x) := .refl (.pure x)

theorem bind {m m' : Reading α} {f f' : α → Reading β} (hm : Deepens m m')
    (hf : ∀ x, Deepens (f x) (f' x)) : Deepens (m >>= f) (m' >>= f') where
  steady := hm.steady.bind fun x => (hf x).steady
  same := by
    intro r y s hr h hs
    obtain ⟨x, t, hx, hy⟩ := run_bind.mp h
    have ht := (hm.steady hr hx).sound
    -- What is found too deep in the first part is found too deep in the whole.
    have hshallow : ¬t.TooDeep := fun hd => hs (((hf x).steady ht hy).tooDeep hd)
    exact run_bind.mpr ⟨x, t, hm.same hr hx hshallow, (hf x).same ht hy hs⟩

/-- What is done behind a reading that knows nothing of expressions. -/
theorem andThen {m : Reading α} {f f' : α → Reading β} (hm : Steady m)
    (hf : ∀ x, Deepens (f x) (f' x)) : Deepens (m >>= f) (m >>= f') :=
  (refl hm).bind hf

theorem map {m m' : Reading α} (hm : Deepens m m') (f : α → β) :
    Deepens (m >>= fun x => Pure.pure (f x)) (m' >>= fun x => Pure.pure (f x)) :=
  hm.bind fun x => .pure (f x)

theorem ite {p : Prop} [Decidable p] {m m' n n' : Reading α} (hm : Deepens m m')
    (hn : Deepens n n') : Deepens (if p then m else n) (if p then m' else n') := by
  split
  · exact hm
  · exact hn

/-! ### Attempts -/

theorem yield (x : α) : Deepens (Pure.pure x : Attempt α).run (Pure.pure x : Attempt α).run :=
  .pure (Except.ok x)

theorem lift {m m' : Reading α} (hm : Deepens m m') :
    Deepens (liftM m : Attempt α).run (liftM m' : Attempt α).run :=
  hm.bind fun x => .pure (Except.ok x)

theorem attempt {a a' : Attempt α} {f f' : Except Refusal α → Reading β}
    (ha : Deepens a.run a'.run) (hok : ∀ x, Deepens (f (.ok x)) (f' (.ok x)))
    (herror : Deepens (f (.error .reported)) (f' (.error .reported))) :
    Deepens (a.run >>= f) (a'.run >>= f') := by
  refine ha.bind fun o => ?_
  obtain ⟨⟨⟩⟩ | x := o
  · exact herror
  · exact hok x

theorem chained {a a' : Attempt α} {f f' : α → Attempt β} (ha : Deepens a.run a'.run)
    (hf : ∀ x, Deepens (f x).run (f' x).run) : Deepens (a >>= f).run (a' >>= f').run := by
  rw [ExceptT.run_bind, ExceptT.run_bind]
  exact ha.attempt hf (.pure _)

theorem attempt_ite {p : Prop} [Decidable p] {a a' b b' : Attempt α} (ha : Deepens a.run a'.run)
    (hb : Deepens b.run b'.run) :
    Deepens (if p then a else b).run (if p then a' else b').run := by
  split
  · exact ha
  · exact hb

/-- To give up for a fault that is found without an expression. -/
theorem refuse {f : Fault} (hf : f.illegal? = none) :
    Deepens (refuse f : Attempt α).run (Grammar.refuse f : Attempt α).run :=
  chained (lift (refl (steady_report hf))) fun _ => .pure (Except.error Refusal.reported)

/-! ### Loops -/

theorem repeated {more : Reader → Bool} {body body' : Reading (List α)}
    (hbody : Deepens body body') :
    Deepens (Grammar.repeated more body) (Grammar.repeated more body') := by
  have hgo : ∀ rounds, Deepens (repeated.go more body rounds) (repeated.go more body' rounds) := by
    intro rounds
    induction rounds with
    | nil => exact .pure []
    | cons t rounds ih =>
        rw [repeated.go, repeated.go]
        refine andThen steady_get fun r => .ite ?_ (.pure [])
        exact hbody.bind fun xs => ih.map (xs ++ ·)
  exact andThen steady_get fun r => hgo r.rounds

theorem listed {item item' : Attempt α} (hitem : Deepens item.run item'.run) :
    Deepens (Grammar.listed item) (Grammar.listed item') := by
  have hgo : ∀ rounds, Deepens (listed.go item rounds) (listed.go item' rounds) := by
    intro rounds
    induction rounds with
    | nil => exact .pure ([], true)
    | cons t rounds ih =>
        rw [listed.go, listed.go]
        refine hitem.attempt (fun x => ?_) (.pure ([], false))
        exact andThen (steady_take? _) fun _ => .ite (ih.bind fun _ => .pure _) (.pure _)
  exact andThen steady_get fun r => hgo r.rounds

theorem listUpTo {close : Punctuation} {item item' : Attempt α}
    (hitem : Deepens item.run item'.run) :
    Deepens (Grammar.listUpTo close item).run (Grammar.listUpTo close item').run := by
  refine chained (chained (lift (refl steady_current)) fun t => ?_) fun xs => ?_
  · refine .attempt_ite (.yield []) (chained (lift hitem.listed) fun out => ?_)
    obtain ⟨xs, whole⟩ := out
    exact .attempt_ite (.yield xs) (.pure _)
  · exact chained (refl (steady_expectPunctuation _)) fun _ => .yield xs

theorem recovering {body body' : Reading (List α × Bool)} (hbody : Deepens body body') :
    Deepens (Grammar.recovering c body) (Grammar.recovering c body') := by
  refine andThen steady_current fun t => hbody.bind fun out => ?_
  obtain ⟨xs, whole⟩ := out
  cases whole with
  | true => exact .pure xs
  | false => exact andThen (steady_recover _) fun _ => .pure xs

theorem single {a a' : Attempt α} (ha : Deepens a.run a'.run) :
    Deepens (Grammar.single a) (Grammar.single a') :=
  ha.attempt (fun _ => .pure _) (.pure _)

end Deepens

open Deepens

/-- Every expression is read by the second reading as by the first one, unless that one finds
it too deep. -/
def Expressions.Deepens (e e' : Expressions) : Prop :=
  ∀ c p, Grammar.Deepens (e c p).run (e' c p).run

variable (he : e.Deepens e')

include he

/-! ### Statements -/

theorem deepens_expressionOrMissing (p : Nat) :
    Deepens (expressionOrMissing e c p) (expressionOrMissing e' c p) := by
  refine andThen steady_current fun t => (he c p).attempt (fun x => .pure x) ?_
  exact .ite (.pure _) (andThen steady_skipLine fun _ => .pure _)

omit he in
theorem deepens_block {statement statement' : Context → Reading (List Stmt)}
    (hstatement : ∀ c, Deepens (statement c) (statement' c)) (closers : List Keyword) :
    Deepens (block statement c closers) (block statement' c closers) :=
  andThen steady_current fun _ => (hstatement _).repeated.map _

theorem deepens_declarator : Deepens (declarator e c).run (declarator e' c).run := by
  refine chained (refl (steady_name _)) fun n => chained (lift (refl (steady_take? _))) fun o => ?_
  cases o with
  | none => exact .yield _
  | some t => exact chained (lift (deepens_expressionOrMissing he _)) fun _ => .yield _

theorem deepens_variableList : Deepens (variableList e c) (variableList e' c) := by
  refine andThen steady_advance fun t => (deepens_declarator he).listed.bind fun out => ?_
  obtain ⟨ds, whole⟩ := out
  exact .ite (andThen (steady_succeeds steady_endOfStatement) fun _ => .pure _) (.pure _)

theorem deepens_returned : Deepens (returned e c).run (returned e' c).run := by
  refine chained (lift (refl steady_advance)) fun t => chained ?_ fun v =>
    chained (refl steady_endOfStatement) fun _ => .yield _
  exact chained (lift (refl steady_get)) fun r =>
    .attempt_ite (.yield none) (chained (he c loosest) fun _ => .yield _)

theorem deepens_expressionStatement :
    Deepens (expressionStatement e c).run (expressionStatement e' c).run :=
  chained (lift (refl steady_current)) fun _ => chained (he c loosest) fun _ =>
    chained (refl steady_endOfStatement) fun _ => .yield _

theorem deepens_plain : Deepens (plain e c) (plain e' c) := by
  have hvalue := Deepens.single (deepens_expressionStatement (c := c) he)
  refine andThen steady_current fun t => ?_
  cases t.kind with
  | keyword k =>
      have hother : Deepens
          (if k.startsExpression then Grammar.single (expressionStatement e c)
            else advance >>= fun t => report (.notAStatement t) >>= fun _ => Pure.pure ([], true))
          (if k.startsExpression then Grammar.single (expressionStatement e' c)
            else advance >>= fun t => report (.notAStatement t) >>= fun _ => Pure.pure ([], true)) :=
        .ite hvalue (andThen steady_advance fun _ => andThen (steady_report rfl) fun _ => .pure _)
      cases k with
      | kwLocal | kwPublic | kwPrivate => exact deepens_variableList he
      | kwReturn => exact .single (deepens_returned he)
      | _ => exact hother
  | _ => exact hvalue

omit he in
theorem deepens_wholeStatement {body body' : Reading (List Stmt × Bool)}
    (hbody : Deepens body body') : Deepens (wholeStatement c body) (wholeStatement c body') :=
  (Deepens.recovering hbody).bind fun _ =>
    .ite (andThen steady_unmute fun _ => .pure _) (.pure _)

theorem deepens_plainStatement : Deepens (plainStatement e c) (plainStatement e' c) :=
  deepens_wholeStatement (deepens_plain he)

/-! ### Declarations -/

theorem deepens_routine (what : String) (t : Token) (closers : List Keyword) (close : Keyword) :
    Deepens (routine e c what t closers close) (routine e' c what t closers close) :=
  andThen (steady_nameOrMissing _) fun _ => andThen steady_parameters fun _ =>
    (deepens_block (fun _ => deepens_plainStatement he) closers).bind fun _ =>
      andThen (steady_take? _) fun _ => .pure _

theorem deepens_function : Deepens (function e c) (function e' c) := by
  refine andThen steady_advance fun t => ?_
  have hroutine := deepens_routine (c := c) he "a function name" t functionClosers .kwEndFunction
  exact .ite (andThen (steady_discard steady_advance) fun _ => hroutine.map _) (hroutine.map _)

theorem deepens_member : Deepens (member e c) (member e' c) := by
  refine andThen steady_current fun t => ?_
  split
  · exact .refl fun _ _ _ hr h => (Reader.onward_advanced hr).trans (onward_attributes hr h)
  · exact andThen steady_advance fun t => (deepens_routine he _ t _ _).map _
  · exact andThen (steady_report rfl) fun _ => .pure _

theorem deepens_members : Deepens (members e c) (members e' c) :=
  .repeated (.recovering (deepens_member he))

theorem deepens_classDefinition : Deepens (classDefinition e c) (classDefinition e' c) :=
  andThen steady_advance fun _ => andThen (steady_nameOrMissing _) fun _ =>
    andThen steady_parentClass fun _ => (deepens_members he).bind fun _ =>
    andThen (steady_closing _ _) fun _ => .pure _

theorem deepens_general : Deepens (general e c) (general e' c) := by
  have hfunction := (deepens_function (c := c) he).map fun x => ([x], true)
  refine .ite (deepens_plain he) (andThen steady_get fun r => ?_)
  split
  · exact hfunction
  · exact .ite hfunction (deepens_plain he)
  · exact (deepens_classDefinition he).map _
  · exact deepens_plain he

theorem deepens_statement : Deepens (statement e c) (statement e' c) :=
  deepens_wholeStatement (deepens_general he)

/-! ### Operands -/

theorem deepens_arguments (close : Punctuation) :
    Deepens (arguments e c close).run (arguments e' c close).run :=
  .listUpTo (lift (deepens_expressionOrMissing he _))

theorem deepens_guarded (t : Token) (closers : List Keyword) :
    Deepens (guarded e c t closers) (guarded e' c t closers) :=
  (deepens_expressionOrMissing he _).bind fun _ =>
    (deepens_block (fun _ => deepens_statement he) closers).map _

theorem deepens_branch : Deepens (branch e c) (branch e' c) := by
  refine andThen steady_advance fun t => (deepens_guarded he t _).bind fun g => ?_
  refine .bind ?_ fun gs => .bind ?_ fun b => andThen (steady_closing _ _) fun _ => .pure _
  · exact .repeated (andThen steady_advance fun t => (deepens_guarded he t _).map _)
  · refine andThen (steady_take? _) fun o => ?_
    cases o with
    | none => exact .pure none
    | some _ => exact (deepens_block (fun _ => deepens_statement he) _).map _

theorem deepens_whileLoop : Deepens (whileLoop e c) (whileLoop e' c) := by
  have hloop : ∀ t, Deepens
      (guarded e c t [.kwEndDo] >>= fun g =>
        closing .kwEndDo t >>= fun o => Pure.pure (Expr.whileLoop g o))
      (guarded e' c t [.kwEndDo] >>= fun g =>
        closing .kwEndDo t >>= fun o => Pure.pure (Expr.whileLoop g o)) :=
    fun t => (deepens_guarded he t _).bind fun _ => andThen (steady_closing _ _) fun _ => .pure _
  exact andThen steady_advance fun t =>
    .ite (andThen (steady_requireKeyword _) fun _ => hloop t) (hloop t)

theorem deepens_forLoop : Deepens (forLoop e c) (forLoop e' c) := by
  refine andThen steady_advance fun t => andThen (steady_nameOrMissing _) fun n =>
    andThen (steady_counterSign _) fun _ => (deepens_expressionOrMissing he _).bind fun a =>
    andThen (steady_requireKeyword _) fun _ => (deepens_expressionOrMissing he _).bind fun b =>
    .bind ?_ fun step => (deepens_block (fun _ => deepens_statement he) _).bind fun bl =>
    andThen (steady_closing _ _) fun o =>
    .ite (andThen (steady_repeatedCounter _) fun _ => .pure _) (.pure _)
  refine andThen (steady_take? _) fun o => ?_
  cases o with
  | none => exact .pure none
  | some _ => exact (deepens_expressionOrMissing he _).map _

theorem deepens_begun (st : Starter) : Deepens (begun e c st).run (begun e' c st).run := by
  have hadvance : Deepens (liftM advance : Attempt Token).run (liftM advance : Attempt Token).run :=
    lift (refl steady_advance)
  cases st with
  | name | date | boolean | nil => exact hadvance.chained fun _ => .yield _
  | integer => exact hadvance.chained fun t => .attempt_ite (.yield _) (.refuse rfl)
  | float =>
      refine hadvance.chained fun t => ?_
      split
      · exact .yield _
      · exact .refuse rfl
  | string => exact lift (andThen steady_advance fun _ => .pure _)
  | unary op =>
      exact lift (andThen steady_advance fun _ => (deepens_expressionOrMissing he _).map _)
  | group =>
      have hdiscard : Deepens (Functor.discard (liftM advance : Attempt Token)).run
          (Functor.discard (liftM advance : Attempt Token)).run := by
        change Deepens (Functor.mapConst PUnit.unit (liftM advance : Attempt Token)).run
          (Functor.mapConst PUnit.unit (liftM advance : Attempt Token)).run
        simp only [LawfulFunctor.map_const, Function.comp_apply, ← bind_pure_comp]
        exact hadvance.chained fun _ => .yield _
      exact hdiscard.chained fun _ => chained (he _ _) fun x =>
        chained (refl (steady_expectPunctuation _)) fun _ => .yield x
  | array => exact hadvance.chained fun _ => chained (deepens_arguments he _) fun _ => .yield _
  | ownMember => exact hadvance.chained fun _ => chained (refl (steady_name _)) fun _ => .yield _
  | branch => exact lift (deepens_branch he)
  | whileLoop => exact lift (deepens_whileLoop he)
  | forLoop => exact lift (deepens_forLoop he)

theorem deepens_operand : Deepens (operand e c).run (operand e' c).run := by
  refine chained (lift (refl steady_current)) fun t => ?_
  split
  · exact deepens_begun he _
  · exact .refuse rfl

/-! ### Expressions -/

theorem deepens_attach (left : Expr) (step : Step) :
    Deepens (attach e c left step).run (attach e' c left step).run := by
  have hsubscript : ∀ t, Deepens (subscript e c t left) (subscript e' c t left) := fun t =>
    (deepens_expressionOrMissing he _).map _
  obtain l | bracket := step
  · refine chained (lift (refl steady_advance)) fun t => ?_
    cases l with
    | binary op => exact chained (lift (deepens_expressionOrMissing he _)) fun _ => .yield _
    | assign =>
        have hvalue : Deepens
            (do return (Expr.assign t left (← expressionOrMissing e c loosest), none) :
              Attempt (Expr × Option Token)).run
            (do return (Expr.assign t left (← expressionOrMissing e' c loosest), none) :
              Attempt (Expr × Option Token)).run :=
          chained (lift (deepens_expressionOrMissing he _)) fun _ => .yield _
        exact .attempt_ite hvalue (chained (lift (refl (steady_report rfl))) fun _ => hvalue)
    | call => exact chained (deepens_arguments he _) fun _ => .yield _
    | index => exact lift (hsubscript t)
    | member => exact chained (refl (steady_name _)) fun _ => .yield _
  · exact lift (hsubscript bracket)

omit he

theorem deepens_refuseDepth {a : Attempt α} :
    Deepens (refuseDepth : Attempt α).run a.run := by
  have hdeep : ∀ ⦃r x s⦄, r.Sound → Run (refuseDepth : Attempt α).run r x s → r.silenced = s := by
    intro r x s hr h
    rcases run_attempt h with ⟨x, rfl, h⟩ | ⟨rfl, h⟩
    · exact absurd h yields_refuseDepth
    · exact refuses_refuseDepth.mp h
  exact .of_tooDeep (fun r x s hr h => hdeep hr h ▸ Reader.onward_silenced hr)
    fun r x s hr h => hdeep hr h ▸ Reader.tooDeep_silenced hr

variable {n m : Nat}

/-- A chain goes on with a higher bound as it does with a lower one. -/
theorem deepens_chain (he : ∀ k l, k ≤ l → k < n → (expression k).Deepens (expression l))
    (hle : n ≤ m) (p : Nat) (bracket : Option Token) (left : Expr) :
    Deepens (chain n c p bracket left).run (chain m c p bracket left).run := by
  induction n generalizing m bracket left with
  | zero =>
      rw [chain.eq_def, chain.eq_def]
      refine chained (refl (steady_nextStep p bracket)) fun o => ?_
      cases o with
      | none => exact .yield left
      | some step => exact deepens_refuseDepth
  | succ n ih =>
      obtain ⟨m, rfl⟩ : ∃ k, m = k + 1 := ⟨m - 1, by omega⟩
      have hle : n ≤ m := Nat.le_of_succ_le_succ hle
      rw [chain.eq_def, chain.eq_def]
      refine chained (refl (steady_nextStep p bracket)) fun o => ?_
      cases o with
      | none => exact .yield left
      | some step =>
          refine chained (deepens_attach (he n m hle (Nat.lt_succ_self n)) left step) fun out => ?_
          exact ih (fun k l hkl hk => he k l hkl (Nat.lt_succ_of_lt hk)) hle _ _

/-- An expression that is not too deep for a bound is read the same with a higher one. -/
theorem deepens_expression (hle : n ≤ m) : (expression n).Deepens (expression m) := by
  induction n using Nat.strongRecOn generalizing m with
  | ind n ih =>
      intro c p
      cases n with
      | zero =>
          rw [expression]
          exact deepens_refuseDepth
      | succ n =>
          obtain ⟨m, rfl⟩ : ∃ k, m = k + 1 := ⟨m - 1, by omega⟩
          have hle : n ≤ m := Nat.le_of_succ_le_succ hle
          rw [expression, expression]
          refine chained (deepens_operand (ih n (Nat.lt_succ_self n) hle)) fun left => ?_
          exact deepens_chain (fun k l hkl hk => ih k (Nat.lt_succ_of_lt hk) hkl) hle p none left

end Grammar

end Clipper
