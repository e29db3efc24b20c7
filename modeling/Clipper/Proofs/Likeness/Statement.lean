import Clipper.Proofs.Likeness.Token

/-!
Statements and declarations side by side, over expressions of a bounded depth that are read
alike. Outside every guarded block nothing may be left open where the first text ends.
-/

namespace Clipper

namespace Correspondence

variable (K : Correspondence) (nested : Bool)

abbrev Exprs (x y : Expr) : Prop := Part.Alike K nested (.expression x) (.expression y)

abbrev ExprsIfAny (x y : Option Expr) : Prop :=
  Part.Alike K nested (.expressionIfAny x) (.expressionIfAny y)

abbrev Blocks (b b' : Block) : Prop := Part.Alike K nested (.block b) (.block b')

abbrev Stmts (s s' : Stmt) : Prop := Part.Alike K nested (.statement s) (.statement s')

abbrev Routines (r r' : Routine) : Prop := Part.Alike K nested (.routine r) (.routine r')

/-- Declared names with their first values. -/
def Declarators (d d' : Name × Option Expr) : Prop :=
  K.Names d.1 d'.1 ∧ K.ExprsIfAny nested d.2 d'.2

inductive Members : Grammar.Member → Grammar.Member → Prop
  | data {a a' : Attribute} : K.Attributes a a' → Members (.data a) (.data a')
  | method {m m' : Routine} : K.Routines true m m' → Members (.method m) (.method m')

variable {K nested}

theorem statements_of_forall₂ {ss ss' : List Stmt} (h : List.Forall₂ (K.Stmts nested) ss ss') :
    Part.Alike K nested (.statements ss) (.statements ss') := by
  induction h with
  | nil => exact .noStatements
  | cons hs _ ih => exact .statements hs ih

theorem expressions_of_forall₂ {xs ys : List Expr} (h : List.Forall₂ (K.Exprs nested) xs ys) :
    Part.Alike K nested (.expressions xs) (.expressions ys) := by
  induction h with
  | nil => exact .noExpressions
  | cons hx _ ih => exact .expressions hx ih

end Correspondence

namespace Grammar

open Concur

/-- Nothing read from here is left open where the text ends, unless a guarded block is around
it. -/
def Shut (K : Correspondence) (c : Context) (w : Stretch) (r : Reader) : Prop :=
  K.guards c.closers ∨ ¬LeftOpen w r

/-- Expressions of at most this depth are read alike. -/
def Compares (K : Correspondence) (n : Nat) : Prop :=
  ∀ c p, Concur K True (Shut K c (.expression n c p)) True (Carried (K.Exprs c.inRoutine))
    (expression n c p).run (expression n c p).run

variable {α β : Type} {K : Correspondence} {P : Prop} {D : Reader → Prop} {guarded : Prop}
  {n p : Nat} {c : Context}

/-- Inside a block the text has to go on behind what is read. -/
theorem Concur.inBlock {w : Stretch} {R : α → β → Prop} {m : Reading α} {m' : Reading β}
    {E : Reader → Prop} (h : Concur K P (fun r => E r ∧ Shut K c w r) True R m m')
    (hend : ∀ ⦃r x s⦄, r.Sound → LeftOpen w r → Run m r x s → s.atEnd = true) :
    Concur K P E (K.guards c.closers) R m m' := by
  refine ⟨h.steady, h.steady', fun hp r r' x x' s s' hr hd hx hx' hs => ?_⟩
  refine h.alike hp hr ⟨hd, hs.imp id fun hopen hleft => ?_⟩ hx hx' (.inl trivial)
  simp [hend hr.sound hleft hx] at hopen

theorem concur_expressionOrMissing (he : Compares K n) :
    Concur K P (Shut K c (.expression n c p)) True (K.Exprs c.inRoutine)
      (expressionOrMissing (expression n) c p) (expressionOrMissing (expression n) c p) := by
  refine concur_current.bind_of (E := fun _ => Shut K c (.expression n c p)) (fun t t' => ?_) ?_
  · refine ((he c p).given fun _ => trivial).bind (.except (fun _ _ => .pure And.right) ?_)
    exact .ite (fun _ => Iff.rfl) (.pure fun h => .missing h.1.2)
      (concur_skipLine.bind fun _ _ => .pure fun h => .missing h.1.1.2)
  · intro _ r t s hd h
    obtain ⟨_, rfl⟩ := run_current.mp h
    exact hd

theorem LeftOpen.atEnd_expressionOrMissing {r s : Reader} {x : Expr} (hr : r.Sound)
    (h : LeftOpen (.expression n c p) r) (hx : Run (expressionOrMissing (expression n) c p) r x s) :
    s.atEnd = true := by
  obtain ⟨t, ht, hsound, ho⟩ := leads_expressionOrMissing hr hx
  exact atEnd_of_onward hsound (h.atEnd hr ht) ho

theorem concur_expressionInBlock (he : Compares K n) :
    Concur K P D (K.guards c.closers) (K.Exprs c.inRoutine)
      (expressionOrMissing (expression n) c p) (expressionOrMissing (expression n) c p) :=
  (Concur.inBlock (E := Anywhere) ((concur_expressionOrMissing he).begun fun _ _ => And.right)
    fun _ _ _ hr h hx => h.atEnd_expressionOrMissing hr hx).begun fun _ _ _ => trivial

theorem concur_block {statement : Context → Reading (List Stmt)} {closers : List Keyword}
    {nested : Bool}
    (hpast : ∀ ⦃c r ss s⦄, r.Sound → r.atEnd = false → Run (statement c) r ss s → r.Past s)
    (hstatement : Concur K P Open (K.guards (closers ++ c.closers))
      (List.Forall₂ (K.Stmts nested)) (statement (c.enter closers)) (statement (c.enter closers)))
    (hguarded : guarded → K.guards (closers ++ c.closers)) :
    Concur K P D guarded (K.Blocks nested) (block statement c closers)
      (block statement c closers) := by
  have hmore : ∀ r : Reader, (!r.atEnd && !r.atAny (c.enter closers).closers) = true →
      r.atEnd = false := fun r h => by simp_all
  have hloop : Concur K P Anywhere (K.guards (closers ++ c.closers))
      (List.Forall₂ (K.Stmts nested))
      (repeated (fun r => !r.atEnd && !r.atAny (c.enter closers).closers)
        (statement (c.enter closers)))
      (repeated (fun r => !r.atEnd && !r.atAny (c.enter closers).closers)
        (statement (c.enter closers))) := by
    refine .repeated hmore (fun r ss s hr hm h => hpast hr (hmore r hm) h) (fun _ r r' hr hg => ?_)
      (hstatement.begun fun _ => hmore)
    rw [← Bool.not_or, ← Bool.not_or]
    exact congrArg _ (hr.blockEnds hg)
  have hsteady : Steady (block statement c closers) := steady_block hpast
  refine ⟨hsteady, hsteady, fun hp r r' b b' s s' hr _ h h' hs => ?_⟩
  obtain ⟨ss, hss, rfl⟩ := run_block.mp h
  obtain ⟨ss', hss', rfl⟩ := run_block.mp h'
  obtain ⟨halike, hend⟩ := hloop.alike hp hr trivial hss hss' (hs.imp hguarded id)
  refine ⟨?_, hend⟩
  cases hopen : r.atEnd with
  | false => exact .block (hr.steps hopen).token (Correspondence.statements_of_forall₂ halike)
  | true =>
      -- At the end of the first text the block is empty.
      have hnil : ss = [] := by
        cases (run_repeated (fun r ss s hr hm h => hpast hr (hmore r hm) h) hr.sound).mp hss with
        | stop => rfl
        | round hm => simp [hmore r hm] at hopen
      subst hnil
      cases halike
      exact .emptyBlock hr.meets

theorem concur_unmute : Concur K P D guarded Eq unmute unmute := by
  have hsettled : ∀ r : Reader, { r with muted := false } = r.settled .file := fun _ => rfl
  have hsteady : Steady unmute := fun r u s hr h =>
    run_unmute.mp h ▸ hsettled r ▸ Reader.onward_settled hr
  refine .intro hsteady hsteady fun _ r r' u u' s s' hr _ h h' => ?_
  obtain rfl := run_unmute.mp h
  obtain rfl := run_unmute.mp h'
  exact ⟨rfl, hr.settled .file⟩

theorem concur_wholeStatement {body : Reading (List Stmt × Bool)} {R : Stmt → Stmt → Prop}
    (hopen : ∀ r, D r → r.atEnd = false) (hbody : Concur K P D guarded (Listed R) body body) :
    Concur K P D guarded (List.Forall₂ R) (wholeStatement c body) (wholeStatement c body) :=
  (Concur.recovering hopen hbody).bind fun _ _ => .ite (fun _ => Iff.rfl)
    (concur_unmute.bind fun _ _ => .pure fun h => h.1.1.2) (.pure fun h => h.1.2)

theorem concur_endOfStatement :
    Concur K P D guarded (Carried Eq) (endOfStatement c).run (endOfStatement c).run := by
  refine .intro steady_endOfStatement steady_endOfStatement fun _ r r' e e' s s' hr _ h h' => ?_
  have hsame := hr.stops c
  rcases run_attempt h with ⟨_, rfl, h⟩ | ⟨rfl, h⟩
  · obtain ⟨hstops, rfl⟩ := yields_endOfStatement.mp h
    rcases run_attempt h' with ⟨_, rfl, h'⟩ | ⟨rfl, h'⟩
    · obtain ⟨_, rfl⟩ := yields_endOfStatement.mp h'
      exact ⟨.ok rfl, hr⟩
    · have hstops' := (refuses_endOfStatement.mp h').1
      simp [← hsame, hstops] at hstops'
  · obtain ⟨hstops, rfl⟩ := refuses_endOfStatement.mp h
    rcases run_attempt h' with ⟨_, rfl, h'⟩ | ⟨rfl, h'⟩
    · have hstops' := (yields_endOfStatement.mp h').1
      simp [← hsame, hstops] at hstops'
    · obtain ⟨_, rfl⟩ := refuses_endOfStatement.mp h'
      exact ⟨.error, hr.reported (.lineGoesOn hr.meets)⟩

theorem concur_declarator (he : Compares K n) :
    Concur K P (Shut K c (.declarators n c)) True (Carried (K.Declarators c.inRoutine))
      (declarator (expression n) c).run (declarator (expression n) c).run := by
  have hsteady := steady_declarator (c := c) (lawful_expression n)
  refine .intro hsteady hsteady fun _ r r' e e' s s' hr hd h h' => ?_
  rcases run_attempt h with ⟨d, rfl, h⟩ | ⟨rfl, h⟩
  · obtain ⟨hk, h⟩ := yields_declarator.mp h
    rcases run_attempt h' with ⟨d', rfl, h'⟩ | ⟨rfl, h'⟩
    · have h' := (yields_declarator.mp h').2
      have hopen := Reader.atEnd_of_kind hk (by simp)
      have hname : K.Names ⟨r.current⟩ ⟨r'.current⟩ := .written (hr.steps hopen).token hk
      have ha := hr.advanced hopen
      rw [← ha.isOperator] at h'
      split at h
      · rename_i hassign
        rw [if_pos hassign] at h'
        obtain ⟨x, hx, rfl⟩ := h
        obtain ⟨x', hx', rfl⟩ := h'
        have hshut : Shut K c (.expression n c loosest) r.advanced.advanced :=
          hd.imp id fun hleft h => hleft (.declarator hk hassign h)
        obtain ⟨hxx, hss⟩ := (concur_expressionOrMissing (P := True) he).alike trivial
          (ha.advanced (Reader.atEnd_of_operator hassign)) hshut hx hx' (.inl trivial)
        exact ⟨.ok ⟨hname, .someExpression hxx⟩, hss⟩
      · rename_i hassign
        rw [if_neg hassign] at h'
        obtain ⟨rfl, rfl⟩ := h
        obtain ⟨rfl, rfl⟩ := h'
        exact ⟨.ok ⟨hname, .noExpression⟩, ha⟩
    · exact absurd (hr.identifier_iff.mp hk) (refuses_declarator.mp h').1
  · obtain ⟨hk, rfl⟩ := refuses_declarator.mp h
    rcases run_attempt h' with ⟨d', rfl, h'⟩ | ⟨rfl, h'⟩
    · exact absurd (hr.identifier_iff.mpr (yields_declarator.mp h').1) hk
    · obtain ⟨_, rfl⟩ := refuses_declarator.mp h'
      exact ⟨.error, hr.reported (.expected _ hr.meets)⟩

theorem variables_alike {t t' : Token} {nested : Bool} (ht : K.token t t')
    {ds ds' : List (Name × Option Expr)} (h : List.Forall₂ (K.Declarators nested) ds ds') :
    List.Forall₂ (K.Stmts nested) (ds.map fun d => .variable t (storageOf t) d.1 d.2)
      (ds'.map fun d => .variable t' (storageOf t') d.1 d.2) := by
  have hstorage : storageOf t = storageOf t' := by
    simp [storageOf, Token.isKeyword, K.kind_eq ht]
  rw [← hstorage, List.forall₂_map_left_iff, List.forall₂_map_right_iff]
  exact h.imp fun d d' hd => .variable ht hd.1 hd.2

theorem concur_variableList (he : Compares K n) :
    Concur K P (fun r => r.atEnd = false ∧ Shut K c (.declarators n c) r.advanced) True
      (Listed (K.Stmts c.inRoutine)) (variableList (expression n) c)
      (variableList (expression n) c) := by
  refine (concur_advance fun _ r hr => hr.1).bind_of
    (E := fun _ => Shut K c (.declarators n c)) (fun t t' => ?_) ?_
  · refine (Concur.listed (concur_declarator he) fun r d s hd hx hcomma => ?_).bind
      fun ds ds' => ?_
    · exact hd.imp id fun hleft h => hleft (.nextDeclarator hx hcomma h)
    · refine .ite (fun h => by rw [h.2.2]) ?_ ?_
      · exact (Concur.succeeds concur_endOfStatement).bind fun b b' => .pure fun h =>
          ⟨variables_alike h.1.1.1.2 h.1.1.2.1, h.2⟩
      · exact .pure fun h => ⟨variables_alike h.1.1.2 h.1.2.1, rfl⟩
  · rintro _ r t s hd h
    obtain ⟨_, rfl⟩ := run_advance.mp h
    exact hd.2

theorem concur_returnedValue (he : Compares K n) :
    Concur K P (fun r => r.stops c = false → Shut K c (.expression n c loosest) r) True
      (Carried (K.ExprsIfAny c.inRoutine)) (returnedValue (expression n) c).run
      (returnedValue (expression n) c).run := by
  refine (lift concur_get).then_of
    (E := fun r s => r.stops c = false → Shut K c (.expression n c loosest) s) (fun r r' => ?_) ?_
  · refine .attempt_ite (fun h => by rw [h.2.stops]) (.yield fun _ => .noExpression) ?_
    have hvalue : Concur K ((P ∧ K.Readers r r') ∧ ¬r.stops c = true)
        (fun s => r.stops c = false → Shut K c (.expression n c loosest) s) True _ _ _ :=
      ((he c loosest).given fun _ => trivial).begun fun hp _ hd => hd (by simpa using hp.2)
    exact hvalue.andThen fun x x' => .yield fun h => .someExpression h.2
  · rintro _ r x s hd h
    obtain ⟨rfl, rfl⟩ := yields_get.mp h
    exact hd

theorem concur_returned (he : Compares K n) :
    Concur K P (fun r => r.current.isKeyword .kwReturn = true ∧ Shut K c (.plain n c) r) True
      (Carried (K.Stmts c.inRoutine)) (returned (expression n) c).run
      (returned (expression n) c).run := by
  refine (lift (concur_advance fun _ r hr => Reader.atEnd_of_keyword hr.1)).then_of
    (E := fun _ s => s.stops c = false → Shut K c (.expression n c loosest) s) (fun t t' => ?_) ?_
  · refine (concur_returnedValue he).andThen fun v v' => ?_
    exact concur_endOfStatement.andThen fun _ _ => .yield fun h => .ret h.1.1.2 h.1.2
  · rintro _ r t s hd h hstops
    obtain ⟨_, rfl⟩ := run_advance.mp (yields_lift.mp h)
    exact hd.2.imp id fun hleft h => hleft (.returned hd.1 hstops h)

theorem concur_expressionStatement (he : Compares K n) :
    Concur K P (fun r => r.atEnd = false ∧ Shut K c (.expression n c loosest) r) True
      (Carried (K.Stmts c.inRoutine)) (expressionStatement (expression n) c).run
      (expressionStatement (expression n) c).run := by
  refine (lift (concur_front fun _ r hr => hr.1)).then_of
    (E := fun _ => Shut K c (.expression n c loosest)) (fun t t' => ?_) ?_
  · refine ((he c loosest).given fun _ => trivial).andThen fun x x' => ?_
    exact concur_endOfStatement.andThen fun _ _ => .yield fun h => .expression h.1.1.2 h.1.2
  · rintro _ r t s hd h
    obtain ⟨_, rfl⟩ := run_current.mp (yields_lift.mp h)
    exact hd.2

theorem concur_plain (he : Compares K n) :
    Concur K P (fun r => r.atEnd = false ∧ Shut K c (.plain n c) r) True
      (Listed (K.Stmts c.inRoutine)) (plain (expression n) c) (plain (expression n) c) := by
  have hsteady := steady_plain (c := c) (lawful_expression n)
  refine .intro hsteady hsteady fun hp r r' x x' s s' hr hd h h' => ?_
  have hkind := K.kind_eq (hr.steps hd.1).token
  rw [run_plain] at h h'
  rw [← hkind, ← hr.isKeyword (by decide)] at h'
  split at h
  · rename_i hstorage
    rw [if_pos hstorage] at h'
    refine (concur_variableList he).alike hp hr ⟨hd.1, hd.2.imp id fun hleft h => ?_⟩ h h'
      (.inl trivial)
    exact hleft (.declaration hstorage h)
  rename_i hstorage
  rw [if_neg hstorage] at h'
  split at h
  · rename_i hreturn
    rw [if_pos hreturn] at h'
    exact (Concur.single (concur_returned he)).alike hp hr ⟨hreturn, hd.2⟩ h h' (.inl trivial)
  rename_i hreturn
  rw [if_neg hreturn] at h'
  split at h
  · rename_i hopens
    rw [if_pos hopens] at h'
    refine (Concur.single (concur_expressionStatement he)).alike hp hr
      ⟨hd.1, hd.2.imp id fun hleft h => ?_⟩ h h' (.inl trivial)
    exact hleft (.statement hopens h)
  · rename_i hopens
    rw [if_neg hopens] at h'
    obtain ⟨rfl, rfl⟩ := h
    obtain ⟨rfl, rfl⟩ := h'
    exact ⟨⟨.nil, rfl⟩, (hr.advanced hd.1).reported (.notAStatement hr.meets)⟩

/-! ### Statements in blocks -/

theorem atEnd_wholeStatement {body : Reading (List Stmt × Bool)} (hbody : Steady body)
    {r s : Reader} {ss : List Stmt} (hr : r.Sound)
    (hend : ∀ ⦃out t⦄, Run body r out t → t.atEnd = true)
    (h : Run (wholeStatement c body) r ss s) : s.atEnd = true := by
  obtain ⟨t, ht, rfl⟩ := run_wholeStatement.mp h
  obtain ⟨whole, u, hu, rfl⟩ := run_recovering.mp ht
  have ho := hbody hr hu
  have hrecovered : u.Onward (if whole then u else u.recovered c r.current.span.start) := by
    split
    · exact .refl ho.sound
    · exact Reader.onward_recovered ho.sound _
  exact atEnd_of_onward ho.sound (hend hu)
    (hrecovered.trans (Reader.onward_settled hrecovered.sound))

/-- No declaration of a function or a class is left open as a plain statement. -/
theorem LeftOpen.not_declares {r : Reader} (h : LeftOpen (.plain n c) r) :
    opensFunction r = false ∧ r.current.isKeyword .kwClass = false := by
  refine opensFunction_of_plain ?_
  cases h with
  | declaration hstorage _ => simp [opensPlain, hstorage]
  | returned hreturn _ _ => simp_all [opensPlain, Token.isKeyword]
  | statement hopens _ => simp [opensPlain, hopens]

theorem concur_plainStatement (he : Compares K n) :
    Concur K P Open (K.guards c.closers) (List.Forall₂ (K.Stmts c.inRoutine))
      (plainStatement (expression n) c) (plainStatement (expression n) c) := by
  refine Concur.inBlock (w := .plain n c)
    (concur_wholeStatement (fun _ h => h.1) (concur_plain he)) fun r ss s hr hleft h => ?_
  exact atEnd_wholeStatement (steady_plain (lawful_expression n)) hr
    (fun out t ht => hleft.atEnd hr ⟨out, ht⟩) h

/-! ### Declarations -/

theorem concur_parameters :
    Concur K P D guarded (List.Forall₂ K.Names) (parameters c) (parameters c) := by
  refine concur_get.bind_of (E := fun r s => s = r) (fun r r' => ?_) ?_
  · refine .ite (fun h => ?_) ?_ (.pure fun _ => .nil)
    · rw [show (r.current.isPunctuation .openParen && r.sameLine) = _ from
        h.2.onLine (p := (· == .punctuation .openParen)) (by simp) (by simp)]
      rfl
    · have hadvance : Concur K ((P ∧ K.Readers r r') ∧
          (r.current.isPunctuation .openParen && r.sameLine) = true) (fun s => s = r) guarded
          K.token advance advance := by
        refine concur_advance fun h s hs => hs ▸ ?_
        exact Reader.atEnd_of_punctuation (Bool.and_eq_true_iff.mp h.2).1
      have hnames : ∀ {Q : Prop}, Concur K Q Anywhere guarded (Carried (List.Forall₂ K.Names))
          (listUpTo .closeParen (name "a parameter name")).run
          (listUpTo .closeParen (name "a parameter name")).run :=
        (concur_listUpTo (D := Anywhere) (concur_name _) fun _ _ _ _ _ _ => trivial).begun
          fun _ _ _ _ => trivial
      exact hadvance.discard.bind fun _ _ => hnames.bind (.except (fun _ _ => .pure And.right)
        (concur_skipLine.bind fun _ _ => .pure fun _ => .nil))
  · rintro _ r x s _ h
    obtain ⟨rfl, rfl⟩ := run_get.mp h
    rfl

theorem concur_routine (he : Compares K n) {what : String} {t t' : Token}
    {closers : List Keyword} {close : Keyword} (ht : P → K.token t t')
    (hclose : close ∉ declaring)
    (hguarded : guarded → K.guards (closers ++ c.closers)) :
    Concur K P D guarded (K.Routines true) (routine (expression n) c what t closers close)
      (routine (expression n) c what t' closers close) := by
  have hbody : ∀ {Q : Prop}, Concur K Q Anywhere guarded (K.Blocks true)
      (block (plainStatement (expression n)) c.insideRoutine closers)
      (block (plainStatement (expression n)) c.insideRoutine closers) :=
    concur_block (fun _ _ _ _ => past_plainStatement (lawful_expression n))
      (concur_plainStatement (c := c.insideRoutine.enter closers) he) hguarded
  unfold routine
  refine (concur_nameOrMissing what).bind fun m m' => concur_parameters.bind fun ps ps' =>
    hbody.bind fun b b' => (concur_keyword? close hclose).bind fun o o' => .pure fun h => ?_
  exact .routine (ht h.1.1.1.1) h.1.1.1.2 h.1.1.2 h.1.2 h.2

theorem concur_function (he : Compares K n) {nested : Bool} (hinner : nested = false) :
    Concur K P (fun r => opensFunction r = true ∧ r.atEnd = false) guarded (K.Stmts nested)
      (function (expression n) c) (function (expression n) c) := by
  subst hinner
  have hsteady : Steady (function (expression n) c) := fun r x s hr h =>
    (Reader.onward_advanced hr).trans (onward_function (lawful_expression n) hr h)
  refine .intro hsteady hsteady fun hp r r' x x' s s' hr hd h h' => ?_
  obtain ⟨f, hf, rfl⟩ := run_function.mp h
  obtain ⟨f', hf', rfl⟩ := run_function.mp h'
  have hsteps := hr.steps hd.2
  have hstatic : r.current.isKeyword .kwStatic = r'.current.isKeyword .kwStatic := by
    simp [Token.isKeyword, K.kind_eq hsteps.token]
  have ha := hr.advanced hd.2
  have hbegun : K.Readers
      (if r.current.isKeyword .kwStatic then r.advanced.advanced else r.advanced)
      (if r'.current.isKeyword .kwStatic then r'.advanced.advanced else r'.advanced) := by
    rw [← hstatic]
    split
    · rename_i hs
      have hfunction : r.advanced.current.isKeyword .kwFunction = true := by
        have hkind : r.current.kind = .keyword .kwStatic := by simpa [Token.isKeyword] using hs
        have hnext : r.next.isKeyword .kwFunction = true := by
          simpa [opensFunction, Token.isKeyword, hkind] using hd.1
        exact hnext
      exact ha.advanced (Reader.atEnd_of_keyword hfunction)
    · exact ha
  have hroutine : Concur K True Anywhere True (K.Routines true)
      (routine (expression n) c "a function name" r.current functionClosers .kwEndFunction)
      (routine (expression n) c "a function name" r'.current functionClosers .kwEndFunction) :=
    concur_routine he (fun _ => hsteps.token) (by decide) fun _ => K.guards_function _
  obtain ⟨hfunction, hend⟩ := hroutine.alike trivial hbegun trivial hf hf' (.inl trivial)
  exact ⟨hstatic ▸ .function hfunction, hend⟩

theorem concur_attributes :
    Concur K P Open guarded (Listed K.Members) (attributes c) (attributes c) := by
  refine (concur_advance fun _ _ => id).bind fun t t' => ?_
  refine (Concur.listed (D := Anywhere) (concur_name _) fun _ _ _ _ _ _ => trivial).bind
    fun ns ns' => ?_
  have hmembers : ∀ {Q : Prop}, ((P ∧ K.token t t') ∧ Listed K.Names ns ns') ∧ Q →
      List.Forall₂ K.Members (ns.1.map fun n => .data ⟨t, n⟩) (ns'.1.map fun n => .data ⟨t', n⟩) := by
    intro Q h
    rw [List.forall₂_map_left_iff, List.forall₂_map_right_iff]
    exact h.1.2.1.imp fun n n' hn => .data ⟨h.1.1.2, hn⟩
  refine .ite (fun h => by rw [h.2.2]) ?_ (.pure fun h => ⟨hmembers h, rfl⟩)
  exact (Concur.succeeds concur_endOfStatement).bind fun b b' => .pure fun h =>
    ⟨hmembers h.1, h.2⟩

theorem concur_method (he : Compares K n) (hguards : K.guards c.closers) :
    Concur K P Open guarded (Listed K.Members) (method (expression n) c)
      (method (expression n) c) := by
  refine (concur_advance fun _ _ => id).bind fun t t' => ?_
  refine (concur_routine he And.right (by decide) fun _ => ?_).bind fun m m' => .pure fun h => ?_
  · exact K.guards_append _ hguards
  · exact ⟨.cons (.method h.2) .nil, rfl⟩

theorem concur_member (he : Compares K n) (hguards : K.guards c.closers) :
    Concur K P Open guarded (Listed K.Members) (member (expression n) c)
      (member (expression n) c) := by
  have hsteady := steady_member (c := c) (lawful_expression n)
  refine ⟨hsteady, hsteady, fun hp r r' x x' s s' hr hd h h' hs => ?_⟩
  rw [run_member] at h h'
  rw [← hr.isKeyword (by decide), ← hr.isKeyword (by decide)] at h'
  split at h
  · rename_i hdata
    rw [if_pos hdata] at h'
    exact concur_attributes.alike hp hr hd h h' hs
  rename_i hdata
  rw [if_neg hdata] at h'
  split at h
  · rename_i hmethod
    rw [if_pos hmethod] at h'
    exact (concur_method he hguards).alike hp hr hd h h' hs
  · rename_i hmethod
    rw [if_neg hmethod] at h'
    obtain ⟨rfl, rfl⟩ := h
    obtain ⟨rfl, rfl⟩ := h'
    exact ⟨⟨.nil, rfl⟩, hr.reported (.expected _ hr.meets)⟩

theorem concur_members (he : Compares K n) (hguards : K.guards c.closers) :
    Concur K P D guarded (List.Forall₂ K.Members) (members (expression n) c)
      (members (expression n) c) :=
  .repeated (show ∀ r, moreMembers c r = true → r.atEnd = false from fun _ => atEnd_of_moreMembers)
    (past_memberRound (lawful_expression n))
    (fun _ _ _ hr _ => hr.moreMembers (.inl hguards))
    ((Concur.recovering (fun _ => id) (concur_member he hguards)).begun
      fun _ _ => atEnd_of_moreMembers)

theorem concur_parentClass :
    Concur K P D guarded (Option.Rel K.Names) parentClass parentClass := by
  refine (concur_keyword? .kwFrom (by decide)).bind (.option (fun t t' => ?_) (.pure fun _ => .none))
  refine (concur_name _).bind (.except (fun n n' => .pure fun h => ?_) (.pure fun _ => .none))
  exact .some h.2

theorem parted_alike {ms ms' : List Member} (h : List.Forall₂ K.Members ms ms') :
    List.Forall₂ K.Attributes (ms.filterMap Member.attribute?) (ms'.filterMap Member.attribute?) ∧
      Part.Alike K true (.routines (ms.filterMap Member.method?))
        (.routines (ms'.filterMap Member.method?)) := by
  induction h with
  | nil => exact ⟨.nil, .noRoutines⟩
  | cons hm _ ih =>
      cases hm with
      | data ha => exact ⟨.cons ha ih.1, ih.2⟩
      | method hm => exact ⟨ih.1, .routines hm ih.2⟩

theorem concur_classDefinition (he : Compares K n) :
    Concur K P Open guarded (K.Stmts false) (classDefinition (expression n) c)
      (classDefinition (expression n) c) := by
  unfold classDefinition
  refine (concur_advance fun _ _ => id).bind fun t t' => ?_
  refine (concur_nameOrMissing _).bind fun m m' => concur_parentClass.bind fun o o' => ?_
  refine (concur_members he (K.guards_class _)).bind fun ms ms' => ?_
  refine (concur_closing (by decide) fun h => h.1.1.1.2).bind fun u u' => .pure fun h => ?_
  have hparted := parted_alike h.1.2
  exact .classDef (.classDefinition h.1.1.1.1.2 h.1.1.1.2 h.1.1.2 hparted.1 hparted.2 h.2)

theorem concur_general (he : Compares K n) :
    Concur K P (fun r => r.atEnd = false ∧ Shut K c (.plain n c) r) True
      (Listed (K.Stmts c.inRoutine)) (general (expression n) c) (general (expression n) c) := by
  have hsteady := steady_general (c := c) (lawful_expression n)
  refine .intro hsteady hsteady fun hp r r' x x' s s' hr hd h h' => ?_
  have hclass : r.current.isKeyword .kwClass = r'.current.isKeyword .kwClass := by
    simp [Token.isKeyword, K.kind_eq (hr.steps hd.1).token]
  rw [run_general] at h h'
  rw [← hr.opensFunction hd.1, ← hclass] at h'
  split at h
  · rename_i hroutine
    rw [if_pos hroutine] at h'
    exact (concur_plain he).alike hp hr hd h h' (.inl trivial)
  rename_i hroutine
  rw [if_neg hroutine] at h'
  have hinner : c.inRoutine = false := by simpa using hroutine
  split at h
  · rename_i hfunction
    rw [if_pos hfunction] at h'
    obtain ⟨f, hf, rfl⟩ := h
    obtain ⟨f', hf', rfl⟩ := h'
    have hfunctions : Concur K True _ True _ (function (expression n) c)
        (function (expression n) c) := concur_function he hinner
    obtain ⟨hff, hss⟩ := hfunctions.alike trivial hr ⟨hfunction, hd.1⟩ hf hf' (.inl trivial)
    exact ⟨⟨.cons hff .nil, rfl⟩, hss⟩
  rename_i hfunction
  rw [if_neg hfunction] at h'
  split at h
  · rename_i hdefines
    rw [if_pos hdefines] at h'
    obtain ⟨f, hf, rfl⟩ := h
    obtain ⟨f', hf', rfl⟩ := h'
    have hclasses : Concur K True _ True _ (classDefinition (expression n) c)
        (classDefinition (expression n) c) := concur_classDefinition he
    obtain ⟨hff, hss⟩ := hclasses.alike trivial hr hd.1 hf hf' (.inl trivial)
    exact ⟨⟨.cons (hinner ▸ hff) .nil, rfl⟩, hss⟩
  · rename_i hdefines
    rw [if_neg hdefines] at h'
    exact (concur_plain he).alike hp hr hd h h' (.inl trivial)

/-- One statement, where nothing is left open behind it. -/
theorem concur_statement (he : Compares K n) :
    Concur K P (fun r => r.atEnd = false ∧ Shut K c (.plain n c) r) True
      (List.Forall₂ (K.Stmts c.inRoutine)) (statement (expression n) c)
      (statement (expression n) c) :=
  concur_wholeStatement (fun _ h => h.1) (concur_general he)

theorem concur_statementInBlock (he : Compares K n) :
    Concur K P Open (K.guards c.closers) (List.Forall₂ (K.Stmts c.inRoutine))
      (statement (expression n) c) (statement (expression n) c) := by
  refine Concur.inBlock (concur_statement he) fun r ss s hr hleft h => ?_
  refine atEnd_wholeStatement (steady_general (lawful_expression n)) hr (fun out t ht => ?_) h
  rw [run_general, hleft.not_declares.1, hleft.not_declares.2] at ht
  exact hleft.atEnd hr ⟨out, by simpa using ht⟩

/-- The statements of a conditional or a loop. -/
theorem concur_body (he : Compares K n) (closers : List Keyword) :
    Concur K P D (K.guards c.closers) (K.Blocks c.inRoutine) (body (expression n) c closers)
      (body (expression n) c closers) :=
  concur_block (c := c.insideExpression) (fun _ _ _ _ => past_statement (lawful_expression n))
    (concur_statementInBlock (c := c.insideExpression.enter closers) he) (K.guards_append closers)

end Grammar

end Clipper
