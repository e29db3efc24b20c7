import Clipper.Proofs.Registers.Following

/-!
Each production of the machine follows the grammar's production of the same name, whatever the
registers are at the time. Only a chain of links ends with other registers: its links have added
to the depth, which the expression around the chain takes back.
-/

namespace Clipper.Machine

open Grammar (Steady)

/-- At some depth the machine reads expressions as the grammar does. -/
structure Mirrors (E : Expressions) (e : Grammar.Expressions) (depth : Nat) : Prop where
  lawful : e.Lawful
  indifferent : Grammar.Indifferent e
  follows : ∀ ⦃g : Registers⦄ (b : Bool) (p : Nat), g.depth = depth →
    Follows g g (E p).run (e (g.context b) p).run

variable {E : Expressions} {e : Grammar.Expressions} {g : Registers} {b : Bool}

/-! ### Statements -/

section Statements

variable (h : Mirrors E e g.depth)

include h

theorem follows_expressionOrMissing (p : Nat) :
    Follows g g (expressionOrMissing E p) (Grammar.expressionOrMissing e (g.context b) p) := by
  refine (Follows.lift Grammar.steady_current).bind fun t =>
    (h.follows b p rfl).attempt (fun x => .pure x) ?_
  exact .consulted (.ite (.pure _) ((Follows.told Grammar.steady_skipLine rfl).bind fun _ => .pure _))

omit h in
/-- The body of a block is read with its words among the terminators and no delimiter open. -/
theorem follows_block {S : Work (List Stmt)} {s : Context → Reading (List Stmt)}
    (closers : List Keyword)
    (hS : ∀ ⦃w : Machine⦄, w.Fair → w.registers = (g.pushed closers).withNesting 0 →
      w.reader.atEnd = false →
      Ends w S (s ((g.context b).enter closers)) ((g.pushed closers).withNesting 0)) :
    Follows g g (block S closers) (Grammar.block s (g.context b) closers) := by
  refine (Follows.lift Grammar.steady_current).bind fun t => .register (.consulted (.register ?_))
  refine .bind (.repeated (fun w hw => ?_) fun w hw hg hm => hS hw hg ?_) fun ss =>
    .register (.register (.pure _))
  · rw [blockGoesOn, hw]
    rfl
  · simp only [Bool.and_eq_true, Bool.not_eq_true'] at hm
    exact hm.1

theorem follows_declarator :
    Follows g g (declarator E).run (Grammar.declarator e (g.context b)).run := by
  refine (Follows.tried (Grammar.steady_name _)).chained fun n =>
    (Follows.asked (Grammar.steady_take? _)).chained fun o => ?_
  cases o with
  | none => exact .yield _
  | some t => exact (Follows.work (follows_expressionOrMissing h _)).chained fun _ => .yield _

theorem follows_variableList :
    Follows g g (variableList E) (Grammar.variableList e (g.context b)) := by
  refine (Follows.lift Grammar.steady_advance).bind fun t =>
    (follows_declarator h).listed.bind fun out => ?_
  obtain ⟨ds, whole⟩ := out
  exact .ite ((Follows.told (Grammar.steady_succeeds Grammar.steady_endOfStatement) rfl).bind
    fun _ => .pure _) (.pure _)

theorem follows_returned : Follows g g (returned E).run (Grammar.returned e (g.context b)).run :=
  (Follows.asked Grammar.steady_advance).chained fun _ => .chained
    (.placed ((Follows.asked Grammar.steady_get).chained fun _ =>
      .attempt_ite (.yield none) ((h.follows b _ rfl).chained fun _ => .yield _)))
    fun _ => (Follows.told (m := fun c => (Grammar.endOfStatement c).run)
      Grammar.steady_endOfStatement rfl).chained fun _ => .yield _

theorem follows_expressionStatement :
    Follows g g (expressionStatement E).run (Grammar.expressionStatement e (g.context b)).run :=
  (Follows.asked Grammar.steady_current).chained fun _ => (h.follows b _ rfl).chained fun _ =>
    (Follows.told (m := fun c => (Grammar.endOfStatement c).run) Grammar.steady_endOfStatement
      rfl).chained fun _ => .yield _

theorem follows_plain : Follows g g (plain E) (Grammar.plain e (g.context b)) := by
  have hvalue := Follows.single (follows_expressionStatement (b := b) h)
  refine (Follows.lift Grammar.steady_current).bind fun t => ?_
  cases t.kind with
  | keyword k =>
      have hother : Follows g g
          (if k.startsExpression then single (expressionStatement E)
            else liftM Grammar.advance >>= fun t =>
              liftM (Grammar.report (.notAStatement t)) >>= fun _ => Pure.pure ([], true))
          (if k.startsExpression then Grammar.single (Grammar.expressionStatement e (g.context b))
            else Grammar.advance >>= fun t =>
              Grammar.report (.notAStatement t) >>= fun _ => Pure.pure ([], true)) :=
        .ite hvalue ((Follows.lift Grammar.steady_advance).bind fun _ =>
          (Follows.lift (Grammar.steady_report rfl)).bind fun _ => .pure _)
      cases k with
      | kwLocal | kwPublic | kwPrivate => exact follows_variableList h
      | kwReturn => exact .single (follows_returned h)
      | _ => exact hother
  | _ => exact hvalue

omit h in
theorem ends_wholeStatement {B : Work (List Stmt × Bool)} {body : Reading (List Stmt × Bool)}
    (hsteady : Steady body)
    (hpast : ∀ ⦃r xs r'⦄, r.Sound → r.atEnd = false → Grammar.Run body r (xs, true) r' → r.Past r')
    (hB : Follows g g B body) {w : Machine} (hw : w.Fair) (hg : w.registers = g)
    (hend : w.reader.atEnd = false) :
    Ends w (wholeStatement B) (Grammar.wholeStatement (g.context (g.depth == 0)) body) g := by
  have hends : Follows g g
      (recovering B >>= fun ss => consulted >>= fun g' =>
        if g'.depth == 0 then liftM Grammar.unmute >>= fun _ => Pure.pure ss else Pure.pure ss)
      (Grammar.wholeStatement (g.context (g.depth == 0)) body) :=
    (Follows.recovering hB).bind fun ss => .consulted
      (.ite ((Follows.lift Grammar.steady_unmute).bind fun _ => .pure _) (.pure _))
  subst hg
  have hstatement := hends hw rfl
  exact hstatement.noteStatement
    (Grammar.past_wholeStatement hsteady hpast hw.sound hend hstatement.run)

theorem ends_plainStatement {w : Machine} (hw : w.Fair) (hg : w.registers = g)
    (hend : w.reader.atEnd = false) :
    Ends w (plainStatement E) (Grammar.plainStatement e (g.context (g.depth == 0))) g :=
  ends_wholeStatement (Grammar.steady_plain h.lawful)
    (fun _ _ _ => Grammar.past_plain h.lawful) (follows_plain h) hw hg hend

/-! ### Declarations -/

omit h in
theorem follows_parameters : Follows g g parameters (Grammar.parameters (g.context b)) := by
  refine (Follows.lift Grammar.steady_get).bind fun r => .ite ?_ (.pure [])
  refine (Follows.lift Grammar.steady_advance).discard.bind fun _ =>
    (Follows.nested (.listUpTo (.tried (Grammar.steady_name _)))).attempt (fun _ => .pure _) ?_
  exact (Follows.told Grammar.steady_skipLine rfl).bind fun _ => .pure _

/-- In the body of a routine the words that begin a declaration are among the terminators. -/
theorem follows_routine {closers : List Keyword}
    (hclosers : ∀ k ∈ declaring, k ∈ closers ++ g.closers) (what : String) (t : Token)
    (close : Keyword) :
    Follows g g (routine E what t closers close)
      (Grammar.routine e (g.context (g.depth == 0)) what t closers close) := by
  have hbody : Follows g g (block (plainStatement E) closers)
      (Grammar.block (Grammar.plainStatement e) (g.context (g.depth == 0)).insideRoutine closers) := by
    rw [Grammar.block_plain h.indifferent hclosers]
    exact follows_block closers fun w hw hg hend =>
      ends_plainStatement (g := (g.pushed closers).withNesting 0) h hw hg hend
  exact (Follows.lift (Grammar.steady_nameOrMissing _)).bind fun _ => follows_parameters.bind
    fun _ => hbody.bind fun _ => (Follows.lift (Grammar.steady_take? _)).bind fun _ => .pure _

theorem follows_function :
    Follows g g (function E) (Grammar.function e (g.context (g.depth == 0))) := by
  refine (Follows.lift Grammar.steady_advance).bind fun t => ?_
  have hroutine := follows_routine h
    (fun k hk => List.mem_append_left g.closers (by revert k; decide : k ∈ Grammar.functionClosers))
    "a function name" t .kwEndFunction
  exact .ite ((Follows.lift Grammar.steady_advance).discard.bind fun _ =>
    hroutine.map _) (hroutine.map _)

theorem follows_member (hclass : ∀ k ∈ declaring, k ∈ g.closers) :
    Follows g g (member E) (Grammar.member e (g.context (g.depth == 0))) := by
  refine (Follows.lift Grammar.steady_current).bind fun t => ?_
  have hmethod : Follows g g (method E) (Grammar.method e (g.context (g.depth == 0))) :=
    (Follows.lift Grammar.steady_advance).bind fun t =>
      (follows_routine h (fun k hk => List.mem_append_right _ (hclass k hk)) _ t _).map _
  have hother : Follows g g
      (liftM (Grammar.report (.expected "'Data', 'Method' or 'EndClass'" t)) >>= fun _ =>
        Pure.pure (([] : List Grammar.Member), false))
      (Grammar.report (.expected "'Data', 'Method' or 'EndClass'" t) >>= fun _ =>
        Pure.pure ([], false)) :=
    (Follows.lift (Grammar.steady_report rfl)).bind fun _ => .pure _
  cases t.kind with
  | keyword k =>
      cases k with
      | kwData =>
          exact .told (fun _ _ _ hr hs => (Reader.onward_advanced hr).trans
            (Grammar.onward_attributes hr hs)) rfl
      | kwMethod => exact hmethod
      | _ => exact hother
  | _ => exact hother

theorem follows_classMembers (hclass : ∀ k ∈ declaring, k ∈ g.closers) :
    Follows g g (classMembers E) (Grammar.members e (g.context (g.depth == 0))) := by
  refine .repeated (fun w hw => ?_) fun w hw hg hm => ?_
  · rw [classGoesOn, blockGoesOn, hw]
    rfl
  · have hround := Follows.recovering (b := g.depth == 0) (follows_member h hclass) hw hg
    exact hround.noteMember (Grammar.past_memberRound h.lawful hw.sound hm hround.run)

/-- Where no delimiter is open a class body is a block of its own. -/
theorem follows_classDefinition (hnesting : g.nesting = 0) :
    Follows g g (classDefinition E) (Grammar.classDefinition e (g.context (g.depth == 0))) := by
  have hcontext : (g.context (g.depth == 0)).enter Grammar.classClosers =
      (g.pushed Grammar.classClosers).context (g.depth == 0) := by
    simp [Context.enter, Registers.context, Registers.pushed, Registers.closers, hnesting]
  have hmembers := follows_classMembers (g := g.pushed Grammar.classClosers) h
    fun k hk => List.mem_append_left g.closers (by revert k; decide : k ∈ Grammar.classClosers)
  rw [Grammar.classDefinition, hcontext]
  exact (Follows.lift Grammar.steady_advance).bind fun _ =>
    (Follows.lift (Grammar.steady_nameOrMissing _)).bind fun _ =>
    (Follows.lift Grammar.steady_parentClass).bind fun _ =>
    .register (hmembers.bind fun _ => .register
      ((Follows.lift (Grammar.steady_closing _ _)).bind fun _ => .pure _))

theorem follows_general (hnesting : g.nesting = 0) :
    Follows g g (general E) (Grammar.general e (g.context (g.depth == 0))) := by
  have hfunction := (follows_function h).map fun x => ([x], true)
  rw [Grammar.general, if_neg (by simp [Registers.context])]
  refine (Follows.lift Grammar.steady_get).bind fun r => ?_
  cases r.current.kind with
  | keyword k =>
      cases k with
      | kwFunction => exact hfunction
      | kwStatic => exact .ite hfunction (follows_plain h)
      | kwClass => exact (follows_classDefinition h hnesting).map _
      | _ => exact follows_plain h
  | _ => exact follows_plain h

theorem ends_statement (hnesting : g.nesting = 0) {w : Machine} (hw : w.Fair)
    (hg : w.registers = g) (hend : w.reader.atEnd = false) :
    Ends w (statement E) (Grammar.statement e (g.context (g.depth == 0))) g :=
  ends_wholeStatement (Grammar.steady_general h.lawful)
    (fun _ _ _ => Grammar.past_general h.lawful) (follows_general h hnesting) hw hg hend

end Statements

/-! ### Operands -/

section Operands

variable (h : Mirrors E e g.depth)

include h

theorem follows_arguments (close : Punctuation) :
    Follows g g (arguments E close).run (Grammar.arguments e (g.context b) close).run :=
  .nested (.listUpTo (.work (follows_expressionOrMissing (g := g.nested) (b := b) h _)))

theorem follows_unary (op : UnaryOp) :
    Follows g g (unary E op) (Grammar.unary e (g.context b) op) :=
  (Follows.lift Grammar.steady_advance).bind fun _ => (follows_expressionOrMissing h _).map _

theorem follows_group : Follows g g (group E).run (Grammar.group e (g.context b)).run :=
  (Follows.asked Grammar.steady_advance).attempt_discard.chained fun _ =>
    .nested ((h.follows (g := g.nested) b _ rfl).chained fun x =>
      (Follows.tried (Grammar.steady_expectPunctuation _)).chained fun _ => .yield x)

variable (hdepth : 0 < g.depth)

include hdepth

/-- Inside an expression the depth is not zero, so that no statement there is outermost. -/
theorem follows_body (closers : List Keyword) :
    Follows g g (block (statement E) closers) (Grammar.body e (g.context b) closers) := by
  refine follows_block (b := false) closers fun w hw hg hend => ?_
  have hinside : (g.depth == 0) = false := by simpa using Nat.ne_of_gt hdepth
  have hs := ends_statement (g := (g.pushed closers).withNesting 0) h rfl hw hg hend
  rw [show ((g.pushed closers).withNesting 0).depth = g.depth from rfl, hinside] at hs
  exact hs

theorem follows_guarded (t : Token) (closers : List Keyword) :
    Follows g g (guarded E t closers) (Grammar.guarded e (g.context b) t closers) :=
  (follows_expressionOrMissing h _).bind fun _ => (follows_body h hdepth _).map _

theorem follows_otherBranches :
    Follows g g (otherBranches E) (Grammar.otherBranches e (g.context b)) := by
  have hround : Follows g g
      (liftM Grammar.advance >>= fun t => guarded E t Grammar.branchClosers >>= fun x =>
        Pure.pure [x])
      (Grammar.advance >>= fun t =>
        Grammar.guarded e (g.context b) t Grammar.branchClosers >>= fun x => Pure.pure [x]) :=
    (Follows.lift Grammar.steady_advance).bind fun t => (follows_guarded h hdepth t _).map _
  exact .repeated (fun _ _ => rfl) fun w hw hg _ => hround hw hg

theorem follows_alternative :
    Follows g g (alternative E) (Grammar.alternative e (g.context b)) := by
  refine (Follows.lift (Grammar.steady_take? _)).bind fun o => ?_
  cases o with
  | none => exact .pure none
  | some _ => exact (follows_body h hdepth _).map _

theorem follows_branch : Follows g g (branch E) (Grammar.branch e (g.context b)) :=
  (Follows.lift Grammar.steady_advance).bind fun t =>
    (follows_guarded h hdepth t _).bind fun _ => (follows_otherBranches h hdepth).bind fun _ =>
    (follows_alternative h hdepth).bind fun _ =>
    (Follows.lift (Grammar.steady_closing _ _)).bind fun _ => .pure _

theorem follows_whileLoop : Follows g g (whileLoop E) (Grammar.whileLoop e (g.context b)) := by
  have hloop : ∀ t, Follows g g
      (guarded E t [.kwEndDo] >>= fun x => liftM (Grammar.closing .kwEndDo t) >>= fun o =>
        Pure.pure (Expr.whileLoop x o))
      (Grammar.guarded e (g.context b) t [.kwEndDo] >>= fun x =>
        Grammar.closing .kwEndDo t >>= fun o => Pure.pure (Expr.whileLoop x o)) :=
    fun t => (follows_guarded h hdepth t _).bind fun _ =>
      (Follows.lift (Grammar.steady_closing _ _)).bind fun _ => .pure _
  exact (Follows.lift Grammar.steady_advance).bind fun t =>
    .ite ((Follows.lift (Grammar.steady_requireKeyword _)).bind fun _ => hloop t) (hloop t)

omit hdepth in
theorem follows_stepClause : Follows g g (stepClause E) (Grammar.stepClause e (g.context b)) := by
  refine (Follows.lift (Grammar.steady_take? _)).bind fun o => ?_
  cases o with
  | none => exact .pure none
  | some _ => exact (follows_expressionOrMissing h _).map _

theorem follows_forLoop : Follows g g (forLoop E) (Grammar.forLoop e (g.context b)) :=
  (Follows.lift Grammar.steady_advance).bind fun _ =>
    (Follows.lift (Grammar.steady_nameOrMissing _)).bind fun _ =>
    (Follows.lift (Grammar.steady_counterSign _)).bind fun _ =>
    (follows_expressionOrMissing h _).bind fun _ =>
    (Follows.lift (Grammar.steady_requireKeyword _)).bind fun _ =>
    (follows_expressionOrMissing h _).bind fun _ => (follows_stepClause h).bind fun _ =>
    (follows_body h hdepth _).bind fun _ =>
    (Follows.lift (Grammar.steady_closing _ _)).bind fun _ =>
    .ite ((Follows.lift (Grammar.steady_repeatedCounter _)).bind fun _ => .pure _) (.pure _)

theorem follows_begun (st : Grammar.Starter) :
    Follows g g (begun E st).run (Grammar.begun e (g.context b) st).run := by
  have hsteady : ∀ st, Steady (Grammar.begun e (g.context b) st).run := fun st _ _ _ hr hs =>
    (Reader.onward_advanced hr).trans (Grammar.onward_begun h.lawful hr hs)
  cases st with
  | name | date | boolean | nil =>
      exact (Follows.asked Grammar.steady_advance).chained fun _ => .yield _
  | integer => exact .tried (hsteady .integer)
  | float => exact .tried (hsteady .float)
  | string =>
      exact .asked fun _ _ _ hr hs => (Grammar.run_string.mp hs).2 ▸ Reader.onward_advanced hr
  | unary op => exact .work (follows_unary h op)
  | group => exact follows_group h
  | array =>
      exact (Follows.asked Grammar.steady_advance).chained fun _ =>
        (follows_arguments h _).chained fun _ => .yield _
  | ownMember => exact .tried (hsteady .ownMember)
  | branch => exact .work (follows_branch h hdepth)
  | whileLoop => exact .work (follows_whileLoop h hdepth)
  | forLoop => exact .work (follows_forLoop h hdepth)

theorem follows_operand : Follows g g (operand E).run (Grammar.operand e (g.context b)).run := by
  refine (Follows.asked Grammar.steady_current).chained fun t => ?_
  cases Grammar.Starter.ofKind? t.kind with
  | some st => exact follows_begun h hdepth st
  | none => exact .tried (Grammar.Deepens.refuse rfl).steady

end Operands

/-! ### Chains -/

/-- What has been read so far, as `Follows` has it, with some depth added. From there the
grammar still goes on with `f`, given the result and the depth that has been reached. -/
def Leads {α γ : Type} (g : Registers) (T : Trial α) (a : Attempt γ) (f : α → Nat → Attempt γ) :
    Prop :=
  ∀ ⦃w : Machine⦄, w.Fair → w.registers = g → ∃ o w' d, T.run.run w = (o, w') ∧ w'.Fair ∧
    g.depth ≤ d ∧ w'.registers = g.atDepth d ∧
    a.run.run w.reader = match o with
      | .ok x => (f x d).run.run w'.reader
      | .error refusal => (.error refusal, w'.reader)

theorem steady_refuseDepth {α : Type} : Steady (Grammar.refuseDepth : Attempt α).run :=
  (Grammar.deepens_refuseDepth (a := Grammar.refuseDepth)).steady

namespace Leads

variable {α β γ : Type} {T : Trial α} {a : Attempt γ} {f : α → Nat → Attempt γ}

theorem yield {x : α} (hx : f x g.depth = a) : Leads g (Pure.pure x) a f := fun w hw hg =>
  ⟨.ok x, w, g.depth, rfl, hw, Nat.le_refl _, hg, hx ▸ rfl⟩

theorem chained {A : Trial β} {a : Attempt β} {F : β → Trial α} {k : β → Attempt γ}
    (h : Follows g g A.run a.run) (hF : ∀ x, Leads g (F x) (k x) f) :
    Leads g (A >>= F) (a >>= k) f := by
  intro w hw hg
  obtain ⟨hrun, hregisters, hfair⟩ := h hw hg
  rw [ExceptT.run_bind, ExceptT.run_bind, StateT.run_bind, StateT.run_bind, hrun]
  rcases hout : A.run.run w with ⟨⟨⟩ | x, w'⟩
  · rw [hout] at hregisters hfair
    exact ⟨_, w', g.depth, rfl, hfair, Nat.le_refl _, hregisters, rfl⟩
  · rw [hout] at hregisters hfair
    exact hF x hfair hregisters

/-- Where the first part ends the grammar goes on as the second part does. -/
theorem bind {T : Trial β} {F : β → Trial α} {k : β → Nat → Attempt γ} (h : Leads g T a k)
    (hF : ∀ x d, g.depth ≤ d → Leads (g.atDepth d) (F x) (k x d) f) : Leads g (T >>= F) a f := by
  intro w hw hg
  obtain ⟨o, w', d, hout, hfair, hd, hregisters, hrun⟩ := h hw hg
  rw [ExceptT.run_bind, StateT.run_bind, hout, hrun]
  cases o with
  | ok x =>
      obtain ⟨o, w'', d', hout', hfair', hd', hregisters', hrun'⟩ := hF x d hd hfair hregisters
      exact ⟨o, w'', d', hout', hfair', Nat.le_trans hd hd', hregisters', hrun'⟩
  | error refusal => exact ⟨.error refusal, w', d, rfl, hfair, hd, hregisters, rfl⟩

theorem ite {p : Prop} [Decidable p] {T' : Trial α} {a' : Attempt γ} (h : Leads g T a f)
    (h' : Leads g T' a' f) : Leads g (if p then T else T') (if p then a else a') f := by
  split
  · exact h
  · exact h'

theorem placed {F : Context → Trial α} (h : Leads g (F (g.context (g.depth == 0))) a f) :
    Leads g (liftM place >>= F) a f := by
  intro w hw hg
  have hF := h hw hg
  rw [← hg] at hF
  subst hg
  exact hF

theorem nested (h : Leads g.nested T a f) : Leads g (nested T) a f := by
  intro w hw hg
  have hw' : Fair { w with registers := g.nested } := ⟨hw.sound, hw.statements, hw.members⟩
  obtain ⟨o, w', d, hout, hfair, hd, hregisters, hrun⟩ := h hw' rfl
  refine ⟨o, { w' with registers := w'.registers.unnested }, d, ?_, ?_, hd, ?_, hrun⟩
  · have hnested : (Machine.nested T).run.run w =
        ((T.run.run { w with registers := w.registers.nested }).1,
          { (T.run.run { w with registers := w.registers.nested }).2 with
            registers :=
              (T.run.run { w with registers := w.registers.nested }).2.registers.unnested }) :=
      rfl
    rw [hnested, hg, hout]
  · exact ⟨hfair.sound, hfair.statements, hfair.members⟩
  · rw [hregisters]
    rfl

theorem refuseDepth {F : Unit → Trial α} (hdepth : Grammar.maxDepth ≤ g.depth) :
    Leads g (grow >>= F) Grammar.refuseDepth f := by
  have hgrow : Follows g g grow.run (Grammar.refuseDepth : Attempt Unit).run := by
    refine .consulted ?_
    rw [if_pos hdepth]
    exact .lift steady_refuseDepth
  intro w hw hg
  obtain ⟨hrun, hregisters, hfair⟩ := hgrow hw hg
  have hrefuses : ∀ β, (Grammar.refuseDepth : Attempt β).run.run w.reader =
      (.error .reported, w.reader.silenced) := fun _ => Grammar.refuses_refuseDepth.mpr rfl
  rw [ExceptT.run_bind, StateT.run_bind]
  rcases hout : Machine.grow.run.run w with ⟨o, w'⟩
  rw [hout] at hregisters hfair
  rw [hout, hrefuses] at hrun
  obtain ⟨rfl, hreader⟩ := Prod.mk.inj hrun
  exact ⟨_, w', g.depth, rfl, hfair, Nat.le_refl _, hregisters, (hrefuses γ).trans (by rw [hreader])⟩

theorem grow {F : Unit → Trial α} (hdepth : g.depth < Grammar.maxDepth)
    (h : Leads (g.atDepth (g.depth + 1)) (F ()) a f) : Leads g (grow >>= F) a f := by
  intro w hw hg
  have hw' : Fair { w with registers := g.atDepth (g.depth + 1) } :=
    ⟨hw.sound, hw.statements, hw.members⟩
  obtain ⟨o, w', d, hout, hfair, hd, hregisters, hrun⟩ := h hw' rfl
  refine ⟨o, w', d, ?_, hfair, Nat.le_of_succ_le hd, hregisters, hrun⟩
  have hgrow : Machine.grow.run.run w =
      (.ok (), { w with registers := g.atDepth (g.depth + 1) }) := by
    subst hg
    have hif : Machine.grow.run.run w = (if Grammar.maxDepth ≤ w.registers.depth then
        (liftM (Grammar.refuseDepth : Attempt Unit).run : Work (Except Refusal Unit))
      else register (·.atDepth (w.registers.depth + 1)) >>= fun _ => Pure.pure (.ok ())).run w := rfl
    rw [hif, if_neg (Nat.not_le.mpr hdepth)]
    rfl
  rw [ExceptT.run_bind, StateT.run_bind, hgrow]
  exact hout

/-- Whatever depth has been added inside is taken back. -/
theorem deeper {T : Trial α} {a : Attempt α} (hdepth : g.depth < Grammar.maxDepth)
    (h : Leads (g.atDepth (g.depth + 1)) T a fun x _ => Pure.pure x) :
    Follows g g (deeper T).run a.run := by
  have hinside : Follows (g.atDepth (g.depth + 1)) g
      (T.run >>= fun o => register (·.atDepth g.depth) >>= fun _ => Pure.pure o) a.run := by
    intro w hw hg
    obtain ⟨o, w', d, hout, hfair, -, hregisters, hrun⟩ := h hw hg
    have hwhole : (T.run >>= fun o => register (·.atDepth g.depth) >>= fun _ => Pure.pure o).run w =
        (o, { w' with registers := w'.registers.atDepth g.depth }) := by
      rw [StateT.run_bind, hout]
      rfl
    refine ⟨?_, ?_, ?_⟩
    · rw [hwhole, hrun]
      cases o <;> rfl
    · rw [hwhole, hregisters]
      rfl
    · rw [hwhole]
      exact ⟨hfair.sound, hfair.statements, hfair.members⟩
  refine .consulted ?_
  rw [if_neg (Nat.not_le.mpr hdepth)]
  exact .register hinside

end Leads

/-- A chain asks for the next link, and with one there goes a level. -/
theorem chain_link (n : Nat) (c : Context) (p : Nat) (left : Expr) :
    Grammar.chain n c p none left = (do
      match Grammar.link? c p (← get) with
      | none => return left
      | some l =>
          match n with
          | 0 => Grammar.refuseDepth
          | n + 1 => do
              let (left, bracket) ← Grammar.attach (Grammar.expression n) c left (.link l)
              Grammar.chain n c p bracket left) := by
  rw [Grammar.chain.eq_def]
  simp only [Grammar.nextStep, pure_bind, bind_assoc]
  congr 1
  funext r
  cases Grammar.link? c p r <;> rfl

/-- Inside a list of subscripts a chain asks for a comma, and behind the list for a link. -/
theorem chain_subscript (n : Nat) (c : Context) (p : Nat) (bracket : Token) (left : Expr) :
    Grammar.chain n c p (some bracket) left = (do
      if (← Grammar.punctuation? .comma).isSome then
        match n with
        | 0 => Grammar.refuseDepth
        | n + 1 => do
            let i ← Grammar.expressionOrMissing (Grammar.expression n) c.delimit Grammar.loosest
            Grammar.chain n c p (some bracket) (.index bracket left i)
      else do
        Grammar.expectPunctuation .closeBracket
        Grammar.chain n c p none left) := by
  rw [Grammar.chain.eq_def]
  simp only [Grammar.nextStep, Grammar.nextSubscript, bind_assoc]
  congr 1
  funext o
  cases o with
  | none =>
      simp only [Option.isSome_none, Bool.false_eq_true, if_false, bind_assoc, pure_bind]
      congr 1
      funext u
      rw [chain_link]
      congr 1
      funext r
      cases Grammar.link? c p r <;> rfl
  | some t =>
      cases n with
      | zero => rfl
      | succ n =>
          simp [Grammar.attach, Grammar.subscript]

/-- What is told of the depth at which expressions are read from here on. -/
abbrev MirrorsWithin (E : Expressions) (levels : Nat) : Prop :=
  ∀ depth, Grammar.maxDepth - depth ≤ levels →
    Mirrors E (Grammar.expression (Grammar.maxDepth - depth)) depth

variable {levels : Nat}

/-- A level is left, and one less below it. -/
theorem levels_below {depth n : Nat} (hdepth : depth < Grammar.maxDepth)
    (hn : Grammar.maxDepth - depth ≤ n + 1) :
    Grammar.maxDepth - depth = Grammar.maxDepth - (depth + 1) + 1 ∧
      Grammar.maxDepth - (depth + 1) ≤ n := by
  omega

theorem leads_subscripts (hE : MirrorsWithin E levels) (p : Nat) (bracket : Token) {rounds : Nat}
    (hrounds : Grammar.maxDepth - g.depth ≤ rounds) (hlevels : Grammar.maxDepth - g.depth ≤ levels)
    (left : Expr) :
    Leads g.nested (subscripts E bracket rounds left)
      (Grammar.chain (Grammar.maxDepth - g.depth) (g.context b) p (some bracket) left)
      fun x d => Grammar.chain (Grammar.maxDepth - d) (g.context b) p none x := by
  induction rounds generalizing g left with
  | zero =>
      have hdepth : Grammar.maxDepth ≤ g.depth := Nat.le_of_sub_eq_zero (Nat.le_zero.mp hrounds)
      rw [subscripts, chain_subscript]
      refine .chained (.asked (Grammar.steady_take? _)) fun o => .ite ?_
        (.chained (.tried (Grammar.steady_expectPunctuation _)) fun _ => .yield rfl)
      rw [Nat.sub_eq_zero_of_le hdepth]
      exact .refuseDepth hdepth
  | succ rounds ih =>
      rw [subscripts, chain_subscript]
      refine .chained (.asked (Grammar.steady_take? _)) fun o => .ite ?_
        (.chained (.tried (Grammar.steady_expectPunctuation _)) fun _ => .yield rfl)
      rcases Nat.lt_or_ge g.depth Grammar.maxDepth with hdepth | hdepth
      · obtain ⟨hn, hsub⟩ := levels_below hdepth hrounds
        have hsub' := (levels_below hdepth (Nat.le_succ_of_le hlevels)).2
        rw [hn]
        refine .grow hdepth (.chained (.work (follows_expressionOrMissing
          (g := (g.atDepth (g.depth + 1)).nested) (b := b) (hE _ hsub') _)) fun i => ?_)
        exact ih (g := g.atDepth (g.depth + 1)) hsub hsub' _
      · rw [Nat.sub_eq_zero_of_le hdepth]
        exact .refuseDepth hdepth

/-- A link, and what the chain does with it. -/
theorem leads_attach (hE : MirrorsWithin E levels) (p : Nat) {rounds : Nat}
    (hrounds : Grammar.maxDepth - g.depth ≤ rounds) (hlevels : Grammar.maxDepth - g.depth ≤ levels)
    (left : Expr) (l : Grammar.Link) :
    Leads g (attach E rounds left l)
      (Grammar.attach (Grammar.expression (Grammar.maxDepth - g.depth)) (g.context b) left (.link l)
        >>= fun out => Grammar.chain (Grammar.maxDepth - g.depth) (g.context b) p out.2 out.1)
      fun x d => Grammar.chain (Grammar.maxDepth - d) (g.context b) p none x := by
  have h := hE g.depth hlevels
  simp only [Grammar.attach, bind_assoc]
  refine .chained (.asked Grammar.steady_advance) fun t => ?_
  cases l with
  | binary op =>
      simp only [bind_assoc, pure_bind]
      exact .chained (.work (follows_expressionOrMissing h _)) fun _ => .yield rfl
  | assign =>
      have hvalue : Leads g
          (liftM (expressionOrMissing E Grammar.loosest) >>= fun y =>
            Pure.pure (Expr.assign t left y))
          (liftM (Grammar.expressionOrMissing
              (Grammar.expression (Grammar.maxDepth - g.depth)) (g.context b) Grammar.loosest) >>=
            fun y => Grammar.chain (Grammar.maxDepth - g.depth) (g.context b) p none
              (Expr.assign t left y))
          fun x d => Grammar.chain (Grammar.maxDepth - d) (g.context b) p none x :=
        .chained (.work (follows_expressionOrMissing h _)) fun _ => .yield rfl
      cases hassignable : left.isAssignable with
      | true =>
          simp only [if_true, bind_assoc, pure_bind]
          exact hvalue
      | false =>
          simp only [Bool.false_eq_true, if_false, bind_assoc, pure_bind]
          exact .chained (.asked (Grammar.steady_report rfl)) fun _ => hvalue
  | call =>
      simp only [bind_assoc, pure_bind]
      exact .chained (follows_arguments h _) fun _ => .yield rfl
  | index =>
      simp only [Grammar.subscript, liftM_bind, bind_assoc, liftM_pure, pure_bind]
      refine .nested (.chained (.work (follows_expressionOrMissing (g := g.nested) (b := b) h _))
        fun i => ?_)
      exact leads_subscripts hE p t hrounds hlevels _
  | member =>
      simp only [bind_assoc, pure_bind]
      exact .chained (.tried (Grammar.steady_name _)) fun _ => .yield rfl

theorem leads_chain (hE : MirrorsWithin E levels) (p : Nat) {rounds : Nat}
    (hrounds : Grammar.maxDepth - g.depth ≤ rounds) (hlevels : Grammar.maxDepth - g.depth ≤ levels)
    (left : Expr) :
    Leads g (chain E rounds p left)
      (Grammar.chain (Grammar.maxDepth - g.depth) (g.context b) p none left)
      fun x _ => Pure.pure x := by
  induction rounds generalizing g left with
  | zero =>
      have hdepth : Grammar.maxDepth ≤ g.depth := Nat.le_of_sub_eq_zero (Nat.le_zero.mp hrounds)
      rw [chain, chain_link, Nat.sub_eq_zero_of_le hdepth]
      refine .placed (.chained (.asked Grammar.steady_get) fun r => ?_)
      have hlink : Grammar.link? (g.context (g.depth == 0)) p r =
        Grammar.link? (g.context b) p r := rfl
      rw [hlink]
      cases Grammar.link? (g.context b) p r with
      | none => exact .yield rfl
      | some l => exact .refuseDepth hdepth
  | succ rounds ih =>
      rw [chain, chain_link]
      refine .placed (.chained (.asked Grammar.steady_get) fun r => ?_)
      have hlink : Grammar.link? (g.context (g.depth == 0)) p r =
        Grammar.link? (g.context b) p r := rfl
      rw [hlink]
      cases Grammar.link? (g.context b) p r with
      | none => exact .yield rfl
      | some l =>
          rcases Nat.lt_or_ge g.depth Grammar.maxDepth with hdepth | hdepth
          · obtain ⟨hn, hsub⟩ := levels_below hdepth hrounds
            have hsub' := (levels_below hdepth (Nat.le_succ_of_le hlevels)).2
            rw [hn]
            refine .grow hdepth (.bind (leads_attach (g := g.atDepth (g.depth + 1)) (b := b) hE p
              hsub hsub' left l) fun y d hd => ?_)
            have hle : Grammar.maxDepth - d ≤ Grammar.maxDepth - (g.depth + 1) :=
              Nat.sub_le_sub_left hd _
            exact ih (g := g.atDepth d) (Nat.le_trans hle hsub) (Nat.le_trans hle hsub') y
          · rw [Nat.sub_eq_zero_of_le hdepth]
            exact .refuseDepth hdepth

/-- An expression gives back all the depth that was added inside. -/
theorem mirrors_expression (levels : Nat) : MirrorsWithin (expression levels) levels := by
  induction levels with
  | zero =>
      intro depth hlevels
      refine ⟨Grammar.lawful_expression _, Grammar.indifferent_expression _, fun g b p hg => ?_⟩
      rw [Nat.le_zero.mp hlevels]
      exact .tried steady_refuseDepth
  | succ levels ih =>
      intro depth hlevels
      refine ⟨Grammar.lawful_expression _, Grammar.indifferent_expression _, fun g b p hg => ?_⟩
      subst hg
      rcases Nat.lt_or_ge g.depth Grammar.maxDepth with hdepth | hdepth
      · obtain ⟨hn, hsub⟩ := levels_below hdepth hlevels
        rw [hn]
        have hread : Leads (g.atDepth (g.depth + 1))
            (operand (expression levels) >>= fun left => chain (expression levels) levels p left)
            (Grammar.expression (Grammar.maxDepth - (g.depth + 1) + 1) (g.context b) p)
            fun x _ => Pure.pure x := by
          rw [Grammar.expression]
          exact .chained (follows_operand (g := g.atDepth (g.depth + 1)) (ih _ hsub)
            (Nat.succ_pos _)) fun left =>
              leads_chain (g := g.atDepth (g.depth + 1)) ih p hsub hsub left
        exact hread.deeper hdepth
      · rw [Nat.sub_eq_zero_of_le hdepth]
        refine .consulted ?_
        rw [if_pos hdepth]
        exact .lift steady_refuseDepth

end Clipper.Machine
