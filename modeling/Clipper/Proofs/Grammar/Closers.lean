import Clipper.Proofs.Likeness.Correspondence
import Clipper.Proofs.Reading.Statement

/-!
The words that close the blocks around a place. Inside a routine the words that begin a
declaration are among them, in every block however deep, and a block ends at them before it
reads a statement. So no declaration is ever met there, and a routine's body can be read as
any other block is.
-/

namespace Clipper

namespace Context

/-- The same place, as if it were outside all routines. -/
def outside (c : Context) : Context := { c with inRoutine := false }

/-- Inside a routine the words that begin a declaration close the block. -/
def Barred (c : Context) : Prop := c.inRoutine = true → ∀ k ∈ declaring, k ∈ c.closers

variable {c : Context}

theorem Barred.enter (h : c.Barred) (closers : List Keyword) : (c.enter closers).Barred :=
  fun hc k hk => List.mem_append_right closers (h hc k hk)

theorem Barred.delimit (h : c.Barred) : c.delimit.Barred := h

theorem Barred.insideExpression (h : c.Barred) : c.insideExpression.Barred := h

theorem outside_eq (h : c.inRoutine = false) : c.outside = c := by
  cases c
  cases h
  rfl

end Context

namespace Grammar

variable {α : Type} {e : Expressions} {c : Context}

/-- Whether a place is inside a routine makes no difference to an expression there. -/
def Indifferent (e : Expressions) : Prop := ∀ ⦃c : Context⦄ p, c.Barred → e c p = e c.outside p

/-- A repetition sees its body only where it goes on. -/
theorem repeated_congr {more : Reader → Bool} {body body' : Reading (List α)}
    (h : ∀ r, more r = true → body.run r = body'.run r) :
    repeated more body = repeated more body' := by
  have hgo : ∀ rounds, repeated.go more body rounds = repeated.go more body' rounds := by
    intro rounds
    induction rounds with
    | nil => rfl
    | cons _ rounds ih =>
        funext r
        change StateT.run (if more r then
              body >>= fun xs => (xs ++ ·) <$> repeated.go more body rounds else pure []) r =
          StateT.run (if more r then
              body' >>= fun xs => (xs ++ ·) <$> repeated.go more body' rounds else pure []) r
        split
        · rename_i hm
          rw [StateT.run_bind, StateT.run_bind, h r hm, ih]
        · rfl
  funext r
  exact congrFun (hgo r.rounds) r

/-! ### Statements -/

theorem expressionOrMissing_outside (he : Indifferent e) (hc : c.Barred) (p : Nat) :
    expressionOrMissing e c p = expressionOrMissing e c.outside p := by
  rw [expressionOrMissing, he p hc]
  rfl

theorem plain_outside (he : Indifferent e) (hc : c.Barred) : plain e c = plain e c.outside := by
  have hdeclarator : declarator e c = declarator e c.outside := by
    rw [declarator, expressionOrMissing_outside he hc]
    rfl
  have hreturned : returned e c = returned e c.outside := by
    rw [returned, returnedValue, he _ hc]
    rfl
  have hexpression : expressionStatement e c = expressionStatement e c.outside := by
    rw [expressionStatement, he _ hc]
    rfl
  rw [plain, variableList, hdeclarator, hreturned, hexpression]
  rfl

/-- Where the block does not end, no declaration begins inside a routine. -/
theorem general_outside (he : Indifferent e) (hc : c.Barred) {r : Reader}
    (hr : r.atAny c.closers = false) : (general e c).run r = (general e c.outside).run r := by
  cases hin : c.inRoutine with
  | false => rw [Context.outside_eq hin]
  | true =>
      have hword : ∀ k ∈ declaring, r.current.isKeyword k = false := by
        intro k hk
        rw [Bool.eq_false_iff]
        intro hkind
        have hkind : r.current.kind = .keyword k := by simpa [Token.isKeyword] using hkind
        simp [Reader.atAny, hkind, TokenKind.keyword?, hc hin k hk] at hr
      have hfunction : opensFunction r = false := by
        simp [opensFunction, hword .kwFunction (by decide), hword .kwStatic (by decide)]
      rw [general, if_pos hin, plain_outside he hc]
      have h := run_general.mp (run_self (general e c.outside) r)
      rw [if_neg (by simp [Context.outside]), hfunction, if_neg (by simp),
        hword .kwClass (by decide), if_neg (by simp)] at h
      exact h

/-- A statement is read where its body is, and nowhere else. -/
theorem wholeStatement_congr {body body' : Reading (List Stmt × Bool)} {r : Reader}
    (h : body.run r = body'.run r) :
    (wholeStatement c body).run r = (wholeStatement c body').run r := by
  have hrun : ∀ out s, Run body' r out s → Run body r out s := fun out s hs => h.trans hs
  obtain ⟨s, hs, hsettled⟩ := run_wholeStatement.mp (run_self (wholeStatement c body') r)
  obtain ⟨whole, t, ht, hrecovered⟩ := run_recovering.mp hs
  exact run_wholeStatement.mpr ⟨s, run_recovering.mpr ⟨whole, t, hrun _ _ ht, hrecovered⟩, hsettled⟩

theorem statement_outside (he : Indifferent e) (hc : c.Barred) {r : Reader}
    (hr : r.atAny c.closers = false) : (statement e c).run r = (statement e c.outside).run r :=
  wholeStatement_congr (general_outside he hc hr)

theorem block_outside (he : Indifferent e) {closers : List Keyword}
    (hc : (c.enter closers).Barred) :
    block (statement e) c closers = block (statement e) c.outside closers := by
  rw [block, repeated_congr fun r hr => statement_outside he hc (by simp_all)]
  rfl

/-! ### Expressions -/

theorem body_outside (he : Indifferent e) (hc : c.Barred) (closers : List Keyword) :
    body e c closers = body e c.outside closers :=
  block_outside he (hc.insideExpression.enter closers)

theorem guarded_outside (he : Indifferent e) (hc : c.Barred) (t : Token) (closers : List Keyword) :
    guarded e c t closers = guarded e c.outside t closers := by
  rw [guarded, expressionOrMissing_outside he hc, body_outside he hc]
  rfl

theorem branch_outside (he : Indifferent e) (hc : c.Barred) : branch e c = branch e c.outside := by
  have hothers : otherBranches e c = otherBranches e c.outside := by
    simp only [otherBranches, guarded_outside he hc]
  have halternative : alternative e c = alternative e c.outside := by
    rw [alternative, body_outside he hc]
    rfl
  rw [branch, hothers, halternative]
  simp only [guarded_outside he hc]
  rfl

theorem whileLoop_outside (he : Indifferent e) (hc : c.Barred) :
    whileLoop e c = whileLoop e c.outside := by
  simp only [whileLoop, guarded_outside he hc]

theorem forLoop_outside (he : Indifferent e) (hc : c.Barred) :
    forLoop e c = forLoop e c.outside := by
  simp only [forLoop, stepClause, expressionOrMissing_outside he hc, body_outside he hc]

theorem arguments_outside (he : Indifferent e) (hc : c.Barred) (close : Punctuation) :
    arguments e c close = arguments e c.outside close := by
  rw [arguments, expressionOrMissing_outside he hc.delimit]
  rfl

theorem operand_outside (he : Indifferent e) (hc : c.Barred) :
    operand e c = operand e c.outside := by
  have hbegun : begun e c = begun e c.outside := by
    funext s
    cases s with
    | unary op => simp only [begun, unary, expressionOrMissing_outside he hc]
    | group =>
        rw [begun, group, he _ hc.delimit]
        rfl
    | array => simp only [begun, array, arguments_outside he hc]
    | branch => simp only [begun, branch_outside he hc]
    | whileLoop => simp only [begun, whileLoop_outside he hc]
    | forLoop => simp only [begun, forLoop_outside he hc]
    | _ => rfl
  rw [operand, hbegun]
  rfl

theorem attach_outside (he : Indifferent e) (hc : c.Barred) (left : Expr) :
    attach e c left = attach e c.outside left := by
  have hsubscript : ∀ bracket left,
      subscript e c bracket left = subscript e c.outside bracket left := by
    intro bracket left
    rw [subscript, expressionOrMissing_outside he hc.delimit]
    rfl
  funext step
  cases step with
  | subscript bracket => simp only [attach, hsubscript]
  | link l =>
      cases l <;> simp only [attach, hsubscript, expressionOrMissing_outside he hc,
        arguments_outside he hc]

/-- Whether a place is inside a routine makes no difference to what is read there. -/
theorem indifferent_expression (n : Nat) : Indifferent (expression n) := by
  suffices h : Indifferent (expression n) ∧ ∀ ⦃c : Context⦄ p bracket left, c.Barred →
      chain n c p bracket left = chain n c.outside p bracket left from h.1
  induction n with
  | zero =>
      refine ⟨fun c p hc => rfl, fun c p bracket left hc => ?_⟩
      rw [chain, chain]
      rfl
  | succ n ih =>
      constructor
      · intro c p hc
        rw [expression, expression, operand_outside ih.1 hc]
        simp only [ih.2 p none _ hc]
      · intro c p bracket left hc
        rw [chain, chain]
        simp only [attach_outside ih.1 hc, ih.2 p _ _ hc]
        rfl

/-! ### Routines -/

/-- Where the words that begin a declaration close a block, its statements are the same whether
they may declare something or not. -/
theorem block_plainStatement (he : Indifferent e) {closers : List Keyword}
    (hclosers : ∀ k ∈ declaring, k ∈ closers ++ c.closers) :
    block (plainStatement e) c.insideRoutine closers =
      block (statement e) c.outside closers := by
  have hc : (c.insideRoutine.enter closers).Barred := fun _ => hclosers
  rw [block_insideRoutine]
  exact block_outside he hc

/-- The same of the plain statements that a routine's body is made of. -/
theorem block_plain (he : Indifferent e) {closers : List Keyword}
    (hclosers : ∀ k ∈ declaring, k ∈ closers ++ c.closers) :
    block (plainStatement e) c.insideRoutine closers = block (plainStatement e) c.outside closers := by
  have hc : (c.insideRoutine.enter closers).Barred := fun _ => hclosers
  rw [block, plainStatement, plain_outside he hc]
  rfl

/-- The body of a function is read as any block is. -/
theorem function_body (n : Nat) (c : Context) :
    block (plainStatement (expression n)) c.insideRoutine functionClosers =
      block (statement (expression n)) c.outside functionClosers :=
  block_plainStatement (indifferent_expression n) fun k hk =>
    List.mem_append_left c.closers (by revert k; decide)

/-- The body of a method is, since the words that end its class end it. -/
theorem method_body (n : Nat) (c : Context) :
    block (plainStatement (expression n)) (c.enter classClosers).insideRoutine methodClosers =
      block (statement (expression n)) (c.enter classClosers).outside methodClosers :=
  block_plainStatement (indifferent_expression n) fun k hk =>
    List.mem_append_right methodClosers (List.mem_append_left c.closers (by revert k; decide))

end Grammar

end Clipper
