import Clipper.Proofs.Likeness.Statement

/-!
Operands side by side: names, literals, groups, and the conditionals and loops, which are
compared to their end only if they are closed where the first text ends.
-/

namespace Clipper.Grammar

open Concur

variable {α : Type} {K : Correspondence} {P : Prop} {D : Reader → Prop} {guarded : Prop}
  {n : Nat} {c : Context} {nested : Bool}

/-- The operand that begins so, where nothing is left open behind it. -/
def Begins (K : Correspondence) (n : Nat) (c : Context) (st : Starter) (r : Reader) : Prop :=
  Starter.ofKind? r.current.kind = some st ∧ Shut K c (.operand n c) r

theorem Begins.open {st : Starter} {r : Reader} (h : Begins K n c st r) : r.atEnd = false :=
  atEnd_of_starter h.1

/-! ### Names and literals -/

/-- A token whose kind begins such an operand. -/
theorem concur_begin (st : Starter) :
    Concur K P (Begins K n c st) guarded
      (fun t t' => K.token t t' ∧ Starter.ofKind? t.kind = some st) advance advance :=
  concur_advance_of (fun _ _ h => h.open) fun _ _ h => h.1

theorem literal_eq_of_starter {t t' : Token} {st : Starter} (ht : K.token t t')
    (hst : Starter.ofKind? t.kind = some st)
    (h : st = .integer ∨ st = .float ∨ st = .string) : t.literal = t'.literal := by
  refine K.literal_eq ht ?_
  generalize t.kind = k at hst
  cases k with
  | keyword k => rcases h with rfl | rfl | rfl <;> cases k <;> simp [Starter.ofKind?] at hst
  | operator o => rcases h with rfl | rfl | rfl <;> cases o <;> simp [Starter.ofKind?] at hst
  | _ => rfl

theorem concur_integer :
    Concur K P (Begins K n c .integer) guarded (Carried (K.Exprs nested)) integer.run
      integer.run := by
  refine (lift (concur_begin .integer)).andThen fun t t' => ?_
  have hliteral : (P ∧ K.token t t' ∧ Starter.ofKind? t.kind = some .integer) →
      t.literal = t'.literal := fun h => literal_eq_of_starter h.2.1 h.2.2 (.inl rfl)
  refine .attempt_ite (fun h => by rw [hliteral h]) (.yield fun h => ?_) ?_
  · rw [hliteral h.1]
    exact .integer h.1.2.1
  · exact concur_refuse rfl rfl fun h => .integerTooLarge h.1.2.1

theorem concur_float :
    Concur K P (Begins K n c .float) guarded (Carried (K.Exprs nested)) float.run float.run := by
  have hsteady : Steady float.run := fun r x s hr h =>
    (Reader.onward_advanced hr).trans
      (onward_begun (s := .float) (c := c) (lawful_expression n) hr h)
  refine .intro hsteady hsteady fun _ r r' e e' s s' hr hd h h' => ?_
  have htoken := (hr.steps hd.open).token
  have ha := hr.advanced hd.open
  have hliteral := literal_eq_of_starter htoken hd.1 (.inr (.inl rfl))
  rcases run_attempt h with ⟨x, rfl, h⟩ | ⟨rfl, h⟩
  · obtain ⟨bits, hbits, rfl, rfl⟩ := yields_float.mp h
    rcases run_attempt h' with ⟨x', rfl, h'⟩ | ⟨rfl, h'⟩
    · obtain ⟨bits', hbits', rfl, rfl⟩ := yields_float.mp h'
      rw [← hliteral, hbits] at hbits'
      obtain rfl := Option.some.inj hbits'
      exact ⟨.ok (.float htoken), ha⟩
    · have hnone := (refuses_float.mp h').1
      simp [← hliteral, hbits] at hnone
  · obtain ⟨hnone, rfl⟩ := refuses_float.mp h
    rcases run_attempt h' with ⟨x', rfl, h'⟩ | ⟨rfl, h'⟩
    · obtain ⟨bits', hbits', _⟩ := yields_float.mp h'
      simp [← hliteral, hnone] at hbits'
    · obtain ⟨-, rfl⟩ := refuses_float.mp h'
      exact ⟨.error, ha.reported (.malformedNumber htoken)⟩

theorem concur_string :
    Concur K P (Begins K n c .string) guarded (K.Exprs nested) string string := by
  refine (concur_begin .string).bind fun t t' => .pure fun h => ?_
  rw [literal_eq_of_starter h.2.1 h.2.2 (.inr (.inr rfl))]
  exact .string h.2.1

theorem concur_nameOperand :
    Concur K P (Begins K n c .name) guarded (Carried (K.Exprs nested))
      (do return .name ⟨← advance⟩ : Attempt Expr).run
      (do return .name ⟨← advance⟩ : Attempt Expr).run := by
  refine (lift (concur_begin .name)).andThen fun t t' => .yield fun h => .name h.2.1 ?_
  have hst := h.2.2
  generalize t.kind = k at hst
  cases k with
  | keyword k => cases k <;> simp_all [Starter.ofKind?]
  | operator o => cases o <;> simp [Starter.ofKind?] at hst
  | punctuation p => cases p <;> simp [Starter.ofKind?] at hst
  | _ => simp_all [Starter.ofKind?]

/-! ### Operands with parts -/

variable (he : Compares K n)

include he

theorem concur_unary (op : UnaryOp) :
    Concur K P (Begins K n c (.unary op)) True (K.Exprs c.inRoutine) (unary (expression n) c op)
      (unary (expression n) c op) := by
  refine (concur_begin (.unary op)).bind_of
    (E := fun _ => Shut K c (.expression n c Operator.not.precedence)) (fun t t' => ?_) ?_
  · exact (concur_expressionOrMissing he).bind fun x x' => .pure fun h => .unary h.1.2.1 h.2
  · rintro _ r t s hd h
    obtain ⟨_, rfl⟩ := run_advance.mp h
    exact hd.2.imp id fun hleft h => hleft (.unary hd.1 h)

theorem concur_group :
    Concur K P (Begins K n c .group) True (Carried (K.Exprs c.inRoutine))
      (group (expression n) c).run (group (expression n) c).run := by
  refine (lift (concur_begin .group)).attempt_discard.then_of
    (E := fun _ => Shut K c (.expression n c.delimit loosest)) (fun _ _ => ?_) ?_
  · refine ((he c.delimit loosest).given fun _ => trivial).andThen fun x x' => ?_
    exact (concur_expectPunctuation .closeParen).andThen fun _ _ => .yield fun h => h.1.2
  · rintro _ r t s hd h
    obtain ⟨_, h⟩ := yields_discard.mp h
    obtain ⟨_, rfl⟩ := run_advance.mp (yields_lift.mp h)
    exact hd.2.imp id fun hleft h => hleft (.group hd.1 h)

theorem concur_item :
    Concur K P (Shut K c (.items n c)) True (Carried (K.Exprs c.inRoutine)) (item n c).run
      (item n c).run :=
  lift ((concur_expressionOrMissing (c := c.delimit) he).begun fun _ _ hd =>
    hd.imp id fun hleft h => hleft (.item h))

theorem concur_arguments (close : Punctuation) :
    Concur K P (fun r => r.current.isPunctuation close = false → Shut K c (.items n c) r) True
      (Carried (List.Forall₂ (K.Exprs c.inRoutine))) (arguments (expression n) c close).run
      (arguments (expression n) c close).run :=
  concur_listUpTo (concur_item he) fun _ _ _ hd hx hcomma =>
    hd.imp id fun hleft h => hleft (.nextItem hx hcomma h)

theorem concur_array :
    Concur K P (Begins K n c .array) True (Carried (K.Exprs c.inRoutine))
      (array (expression n) c).run (array (expression n) c).run := by
  refine (lift (concur_begin .array)).then_of
    (E := fun _ s => s.current.isPunctuation .closeBrace = false → Shut K c (.items n c) s)
    (fun t t' => ?_) ?_
  · exact (concur_arguments he .closeBrace).andThen fun xs xs' => .yield fun h =>
      .array h.1.2.1 (Correspondence.expressions_of_forall₂ h.2)
  · rintro _ r t s hd h hclose
    obtain ⟨_, rfl⟩ := run_advance.mp (yields_lift.mp h)
    exact hd.2.imp id fun hleft h => hleft (.array hd.1 hclose h)

omit he in
theorem concur_ownMember :
    Concur K P (Begins K n c .ownMember) guarded (Carried (K.Exprs nested)) ownMember.run
      ownMember.run := by
  refine (lift (concur_begin .ownMember)).andThen fun t t' => ?_
  exact (concur_name _).andThen fun m m' => .yield fun h => .ownMember h.1.2.1 h.2

/-! ### Conditionals and loops -/

theorem concur_guarded {t t' : Token} {closers : List Keyword} (ht : P → K.token t t') :
    Concur K P D (K.guards c.closers)
      (fun g g' => Part.Alike K c.inRoutine (.guarded g) (.guarded g'))
      (Grammar.guarded (expression n) c t closers) (Grammar.guarded (expression n) c t' closers) :=
  (concur_expressionInBlock he).bind fun _ _ => (concur_body he closers).bind fun _ _ =>
    .pure fun h => .guarded (ht h.1.1) h.1.2 h.2

theorem concur_otherBranches :
    Concur K P D (K.guards c.closers)
      (fun gs gs' => Part.Alike K c.inRoutine (.branches gs) (.branches gs'))
      (otherBranches (expression n) c) (otherBranches (expression n) c) := by
  have hloop : Concur K P D (K.guards c.closers)
      (List.Forall₂ fun g g' => Part.Alike K c.inRoutine (.guarded g) (.guarded g'))
      (otherBranches (expression n) c) (otherBranches (expression n) c) := by
    refine .repeated (fun _ => Reader.atEnd_of_keyword) (past_elseIf (lawful_expression n))
      (fun _ _ _ hr _ => hr.isKeyword (by decide)) ?_
    refine (concur_advance fun _ _ => Reader.atEnd_of_keyword).bind fun t t' => ?_
    exact (concur_guarded he And.right).bind fun g g' => .pure fun h => .cons h.2 .nil
  refine hloop.result fun gs gs' _ h => ?_
  induction h with
  | nil => exact .noBranches
  | cons hg _ ih => exact .branches hg ih

theorem concur_alternative :
    Concur K P D (K.guards c.closers)
      (fun b b' => Part.Alike K c.inRoutine (.blockIfAny b) (.blockIfAny b'))
      (alternative (expression n) c) (alternative (expression n) c) := by
  refine (concur_keyword? .kwElse (by decide)).bind
    (.option (fun t t' => ?_) (.pure fun _ => .noBlock))
  exact (concur_body he _).bind fun b b' => .pure fun h => .someBlock h.2

omit he in
/-- A block and its closing word. What is behind that word is compared wherever the text
ends. -/
theorem concur_closed {m : Reading α} {R : α → α → Prop} {opener : α → Token} {k : Keyword}
    {rest : α → Option Token → Reading Expr} (hk : k ∉ declaring)
    (hm : Concur K P D (K.guards c.closers) R m m)
    (hopener : ∀ x x', R x x' → K.token (opener x) (opener x'))
    (hrest : ∀ x x' o o', Concur K ((P ∧ R x x') ∧ Option.Rel K.token o o') Anywhere True
      (K.Exprs nested) (rest x o) (rest x' o'))
    (hunclosed : ∀ x, ∃ y, rest x none = Pure.pure y ∧ (Node.expression y).unclosed?.isSome = true) :
    Concur K P (fun r => D r ∧ (K.guards c.closers ∨ ∀ y s,
        Run (m >>= fun x => closing k (opener x) >>= rest x) r y s →
          (Node.expression y).unclosed?.isSome = true → s.atEnd = false))
      True (K.Exprs nested) (m >>= fun x => closing k (opener x) >>= rest x)
      (m >>= fun x => closing k (opener x) >>= rest x) := by
  have hclose : ∀ x x', Concur K (P ∧ R x x') Anywhere True (K.Exprs nested)
      (closing k (opener x) >>= rest x) (closing k (opener x') >>= rest x') := fun x x' =>
    (concur_closing hk fun h => hopener x x' h.2).bind fun o o' => hrest x x' o o'
  have hsteady : Steady (m >>= fun x => closing k (opener x) >>= rest x) :=
    hm.steady.bind fun x => (hclose x x).steady
  refine .intro hsteady hsteady fun hp r r' y y' s s' hr hd h h' => ?_
  obtain ⟨x, t, hx, hy⟩ := run_bind.mp h
  obtain ⟨x', t', hx', hy'⟩ := run_bind.mp h'
  have hgo : K.guards c.closers ∨ t.atEnd = false := by
    obtain ⟨o, u, ho, hu⟩ := run_bind.mp hy
    rw [run_closing] at ho
    split at ho
    · rename_i hword
      exact .inr (Reader.atEnd_of_keyword hword)
    · obtain ⟨rfl, rfl⟩ := ho
      obtain ⟨z, hz, hopen⟩ := hunclosed x
      rw [hz] at hu
      obtain ⟨rfl, rfl⟩ := run_pure.mp hu
      exact hd.2.imp id fun h' => by simpa [Reader.atEnd] using h' _ _ h hopen
  obtain ⟨hR, ht⟩ := hm.alike hp hr hd.1 hx hx' hgo
  exact (hclose x x').alike ⟨hp, hR⟩ ht trivial hy hy' (.inl trivial)

omit he in
/-- A conditional or a loop is closed where the text ends, unless it is left open. -/
theorem Begins.closed {st : Starter} {r : Reader} {m : Reading Expr}
    (h : Begins K n c st r) (hm : begun (expression n) c st = liftM m) :
    K.guards c.closers ∨ ∀ y s, Run m r y s → (Node.expression y).unclosed?.isSome = true →
      s.atEnd = false := by
  refine h.2.imp id fun hleft y t hy hopen => ?_
  cases hend : t.atEnd with
  | false => rfl
  | true =>
      have hoperand : Yields (operand (expression n) c) r y t :=
        yields_operand.mpr ⟨st, h.1, hm ▸ yields_lift.mpr hy⟩
      exact absurd (.here hoperand hopen hend) hleft

/-- A conditional without its closing word. -/
def branchParts (e : Expressions) (c : Context) :
    Reading (Token × Guarded × List Guarded × Option Block) := do
  let t ← advance
  let first ← Grammar.guarded e c t branchClosers
  let others ← otherBranches e c
  return (t, first, others, ← alternative e c)

omit he in
theorem branch_eq (e : Expressions) :
    branch e c = branchParts e c >>= fun q => closing .kwEndIf q.1 >>= fun o =>
      Pure.pure (.branch q.2.1 q.2.2.1 q.2.2.2 o) := by
  simp [branch, branchParts]

theorem concur_branch :
    Concur K P (Begins K n c .branch) True (K.Exprs c.inRoutine) (branch (expression n) c)
      (branch (expression n) c) := by
  have hparts : Concur K P (Begins K n c .branch) (K.guards c.closers)
      (fun q q' => K.token q.1 q'.1 ∧ Part.Alike K c.inRoutine (.guarded q.2.1) (.guarded q'.2.1) ∧
        Part.Alike K c.inRoutine (.branches q.2.2.1) (.branches q'.2.2.1) ∧
        Part.Alike K c.inRoutine (.blockIfAny q.2.2.2) (.blockIfAny q'.2.2.2))
      (branchParts (expression n) c) (branchParts (expression n) c) :=
    (concur_begin .branch).bind fun _ _ => (concur_guarded he fun h => h.2.1).bind
      fun _ _ => (concur_otherBranches he).bind fun _ _ => (concur_alternative he).bind
      fun _ _ => .pure fun h => ⟨h.1.1.1.2.1, h.1.1.2, h.1.2, h.2⟩
  rw [branch_eq]
  refine (concur_closed (by decide) hparts (fun q q' h => h.1) (fun q q' o o' => .pure fun h => ?_)
    fun q => ⟨_, rfl, rfl⟩).begun fun _ r h => ⟨h, ?_⟩
  · exact .branch h.1.2.2.1 h.1.2.2.2.1 h.1.2.2.2.2 h.2
  · rw [← branch_eq]
    exact h.closed rfl

omit he in
theorem concur_requireKeyword (k : Keyword) (hk : k ∉ declaring) :
    Concur K P D guarded Eq (requireKeyword k) (requireKeyword k) :=
  (concur_expectKeyword k hk).discard

/-- A loop under a condition without its closing word. -/
def whileParts (e : Expressions) (c : Context) : Reading (Token × Guarded) := do
  let t ← advance
  if t.isKeyword .kwDo then requireKeyword .kwWhile
  return (t, ← Grammar.guarded e c t [.kwEndDo])

omit he in
theorem whileLoop_eq (e : Expressions) :
    whileLoop e c = whileParts e c >>= fun q => closing .kwEndDo q.1 >>= fun o =>
      Pure.pure (.whileLoop q.2 o) := by
  simp only [whileLoop, whileParts, bind_assoc]
  refine bind_congr fun t => ?_
  split <;> simp

theorem concur_whileLoop :
    Concur K P (Begins K n c .whileLoop) True (K.Exprs c.inRoutine) (whileLoop (expression n) c)
      (whileLoop (expression n) c) := by
  have hparts : Concur K P (Begins K n c .whileLoop) (K.guards c.closers)
      (fun q q' => K.token q.1 q'.1 ∧ Part.Alike K c.inRoutine (.guarded q.2) (.guarded q'.2))
      (whileParts (expression n) c) (whileParts (expression n) c) := by
    refine (concur_begin .whileLoop).bind fun t t' => ?_
    have hguarded : ∀ {Q : Prop}, (Q → K.token t t') → Concur K Q Anywhere (K.guards c.closers)
        (fun q q' => K.token q.1 q'.1 ∧ Part.Alike K c.inRoutine (.guarded q.2) (.guarded q'.2))
        (do return (t, ← Grammar.guarded (expression n) c t [.kwEndDo]))
        (do return (t', ← Grammar.guarded (expression n) c t' [.kwEndDo])) := fun hq =>
      (concur_guarded he hq).bind fun _ _ => .pure fun h => ⟨hq h.1, h.2⟩
    refine .ite (fun h => ?_) ?_ (hguarded fun h => h.1.2.1)
    · rw [Token.isKeyword, Token.isKeyword, K.kind_eq h.2.1]
    · exact (concur_requireKeyword .kwWhile (by decide)).bind fun _ _ => hguarded fun h => h.1.1.2.1
  rw [whileLoop_eq]
  refine (concur_closed (by decide) hparts (fun q q' h => h.1) (fun q q' o o' => .pure fun h => ?_)
    fun q => ⟨_, rfl, rfl⟩).begun fun _ r h => ⟨h, ?_⟩
  · exact .whileLoop h.1.2.2 h.2
  · rw [← whileLoop_eq]
    exact h.closed rfl

omit he in
theorem concur_counterSign {m m' : Name} (hm : P → K.Names m m') :
    Concur K P D guarded Eq (counterSign m) (counterSign m') := by
  refine (concur_take? (q := fun k => k == .operator .assign || k == .operator .equal) (by decide)
    (by decide)).bind fun o o' => .ite (fun h => ?_) ?_ (.pure fun _ => rfl)
  · have hsign : o.isNone = o'.isNone := by cases h.2 <;> rfl
    rw [hsign, Name.isMissing, Name.isMissing, (hm h.1).text_eq]
  · exact concur_current.bind fun _ _ => concur_report rfl rfl fun h => .expected _ h.2

omit he in
theorem concur_repeatedCounter {m m' : Name} (hm : P → K.Names m m') :
    Concur K P D guarded Eq (repeatedCounter m) (repeatedCounter m') := by
  refine concur_get.bind_of (E := fun r s => s = r) (fun r r' => ?_) ?_
  · refine .ite (fun h => ?_) ?_ (.pure fun _ => rfl)
    · have hline := h.2.onLine (p := fun k => k = .identifier) (by decide) (by decide)
      simpa using Bool.eq_iff_iff.mp hline
    · refine (concur_advance_of (q := (·.kind = .identifier)) ?_ ?_).bind fun t t' =>
        .ite (fun h => ?_) ?_ (.pure fun _ => rfl)
      · rintro h s rfl
        exact Reader.atEnd_of_kind (of_decide_eq_true (Bool.and_eq_true_iff.mp h.2).1) (by simp)
      · rintro h s rfl
        exact of_decide_eq_true (Bool.and_eq_true_iff.mp h.2).1
      · have hliteral : t.literal = t'.literal := K.literal_eq h.2.1 (by rw [h.2.2]; rfl)
        rw [hliteral, Name.isMissing, Name.isMissing, (hm h.1.1.1).text_eq]
      · refine concur_report rfl rfl fun h => .otherCounter h.1.2.1 h.1.2.2 ?_
        have hmissing : m.isMissing = false := by
          simpa using (Bool.and_eq_true_iff.mp h.2).1
        cases hm h.1.1.1.1 with
        | written hcounter _ => exact hcounter
        | missing _ => simp [Name.isMissing, Name.text, Name.missing, Token.implied] at hmissing
  · rintro _ r x s _ h
    obtain ⟨rfl, rfl⟩ := run_get.mp h
    rfl

theorem concur_stepClause :
    Concur K P D (K.guards c.closers) (K.ExprsIfAny c.inRoutine) (stepClause (expression n) c)
      (stepClause (expression n) c) := by
  refine (concur_keyword? .kwStep (by decide)).bind
    (.option (fun t t' => ?_) (.pure fun _ => .noExpression))
  exact (concur_expressionInBlock he).bind fun _ _ => .pure fun h => .someExpression h.2

/-- A counting loop without its closing word. -/
structure ForParts where
  token : Token
  counter : Name
  start : Expr
  stop : Expr
  step : Option Expr
  body : Block

def forParts (e : Expressions) (c : Context) : Reading ForParts := do
  let t ← advance
  let counter ← nameOrMissing "a loop counter"
  counterSign counter
  let start ← expressionOrMissing e c loosest
  requireKeyword .kwTo
  let stop ← expressionOrMissing e c loosest
  let step ← stepClause e c
  return ⟨t, counter, start, stop, step, ← body e c [.kwNext]⟩

/-- What follows the body of a counting loop. -/
def forEnd (q : ForParts) (closed : Option Token) : Reading Expr := do
  if closed.isSome then repeatedCounter q.counter
  return .forLoop q.token q.counter q.start q.stop q.step q.body closed

omit he in
theorem forLoop_eq (e : Expressions) :
    forLoop e c = forParts e c >>= fun q => closing .kwNext q.token >>= forEnd q := by
  simp only [forLoop, forParts, bind_assoc, pure_bind]
  rfl

theorem concur_forLoop :
    Concur K P (Begins K n c .forLoop) True (K.Exprs c.inRoutine) (forLoop (expression n) c)
      (forLoop (expression n) c) := by
  have hparts : Concur K P (Begins K n c .forLoop) (K.guards c.closers)
      (fun q q' => K.token q.token q'.token ∧ K.Names q.counter q'.counter ∧
        K.Exprs c.inRoutine q.start q'.start ∧ K.Exprs c.inRoutine q.stop q'.stop ∧
        K.ExprsIfAny c.inRoutine q.step q'.step ∧ K.Blocks c.inRoutine q.body q'.body)
      (forParts (expression n) c) (forParts (expression n) c) :=
    (concur_begin .forLoop).bind fun _ _ => (concur_nameOrMissing _).bind fun _ _ =>
      (concur_counterSign And.right).bind fun _ _ => (concur_expressionInBlock he).bind fun _ _ =>
      (concur_requireKeyword .kwTo (by decide)).bind fun _ _ => (concur_expressionInBlock he).bind fun _ _ =>
      (concur_stepClause he).bind fun _ _ => (concur_body he _).bind fun _ _ => .pure
      fun ⟨⟨⟨⟨⟨⟨⟨⟨_, ht⟩, hn⟩, _⟩, ha⟩, _⟩, hb⟩, hst⟩, hbody⟩ => ⟨ht.1, hn, ha, hb, hst, hbody⟩
  rw [forLoop_eq]
  refine (concur_closed (by decide) hparts (fun q q' h => h.1) (fun q q' o o' => ?_)
    fun q => ⟨_, rfl, rfl⟩).begun fun _ r h => ⟨h, ?_⟩
  · refine .ite (fun h => ?_) ?_ (.pure fun ⟨⟨⟨_, ht, hn, ha, hb, hst, hbody⟩, ho⟩, _⟩ =>
      .forLoop ht hn ha hb hst hbody ho)
    · cases h.2 <;> rfl
    · exact (concur_repeatedCounter fun h => h.1.1.2.2.1).bind fun _ _ =>
        .pure fun ⟨⟨⟨⟨_, ht, hn, ha, hb, hst, hbody⟩, ho⟩, _⟩, _⟩ =>
          .forLoop ht hn ha hb hst hbody ho
  · rw [← forLoop_eq]
    exact h.closed rfl

end Clipper.Grammar
