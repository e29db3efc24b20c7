import Clipper.Proofs.Reading.Token

/-!
Rules for the runs of statements and declarations, over any reading of expressions.
-/

namespace Clipper.Grammar

variable {α : Type} {e : Expressions} {c : Context} {r r' : Reader}

/-! ### Expressions and blocks inside statements -/

theorem run_expressionOrMissing {p : Nat} {x : Expr} :
    Run (expressionOrMissing e c p) r x r' ↔
      Yields (e c p) r x r' ∨
        ∃ s, Refuses (e c p) r s ∧ .missing r.current = x ∧
          (if c.delimited then s else s.lineSkipped c) = r' := by
  by_cases h : c.delimited
  · simp [expressionOrMissing, h, and_assoc]
  · simp [expressionOrMissing, run_skipLine, h, and_assoc, and_comm]

theorem run_block {statement : Context → Reading (List Stmt)} {closers : List Keyword}
    {b : Block} :
    Run (block statement c closers) r b r' ↔
      ∃ ss, Run (repeated (fun r => !r.atEnd && !r.atAny (c.enter closers).closers)
        (statement (c.enter closers))) r ss r' ∧ ⟨r.current, ss⟩ = b := by
  simp [block, and_assoc]

theorem run_closing {k : Keyword} {opener : Token} {t : Option Token} :
    Run (closing k opener) r t r' ↔
      if r.current.isKeyword k then some r.current = t ∧ r.advanced = r'
      else none = t ∧ r.reported (.unclosed k.canonical opener r.current) = r' := by
  by_cases h : r.current.isKeyword k <;> simp [closing, h, and_assoc, and_comm]

theorem yields_endOfStatement {u : Unit} :
    Yields (endOfStatement c) r u r' ↔ r.stops c ∧ r = r' := by
  simp only [endOfStatement, yields_bind, yields_get]
  constructor
  · rintro ⟨_, _, ⟨rfl, rfl⟩, h⟩
    by_cases hs : r.stops c <;> simp_all
  · rintro ⟨hs, rfl⟩
    exact ⟨_, _, ⟨rfl, rfl⟩, by simp [hs]⟩

theorem refuses_endOfStatement :
    Refuses (endOfStatement c) r r' ↔
      r.stops c = false ∧ r.reported (.lineGoesOn r.current) = r' := by
  simp only [endOfStatement, refuses_bind, refuses_get, yields_get, false_or]
  constructor
  · rintro ⟨_, _, ⟨rfl, rfl⟩, h⟩
    by_cases hs : r.stops c <;> simp_all
  · rintro ⟨hs, rfl⟩
    exact ⟨_, _, ⟨rfl, rfl⟩, by simp [hs]⟩

theorem run_succeeds {a : Attempt Unit} {b : Bool} :
    Run (succeeds a) r b r' ↔ Yields a r () r' ∧ true = b ∨ Refuses a r r' ∧ false = b := by
  simp only [succeeds, bind_pure_comp, run_map, exists_except, run_ok, run_error]
  refine or_congr ⟨?_, fun h => ⟨(), h⟩⟩ Iff.rfl
  rintro ⟨_, h⟩
  exact h

theorem yields_declarator {d : Name × Option Expr} :
    Yields (declarator e c) r d r' ↔
      r.current.kind = .identifier ∧
        if r.advanced.current.isOperator .assign then
          ∃ x, Run (expressionOrMissing e c loosest) r.advanced.advanced x r' ∧
            (⟨r.current⟩, some x) = d
        else (⟨r.current⟩, none) = d ∧ r.advanced = r' := by
  by_cases h : r.advanced.current.isOperator .assign <;>
    simp [declarator, yields_name, h, and_assoc]

theorem refuses_declarator :
    Refuses (declarator e c) r r' ↔
      r.current.kind ≠ .identifier ∧
        r.reported (.expected "a variable name" r.current) = r' := by
  by_cases h : r.advanced.current.isOperator .assign <;>
    simp [declarator, yields_name, refuses_name, h, and_assoc]

theorem run_variableList {out : List Stmt × Bool} :
    Run (variableList e c) r out r' ↔
      ∃ ds whole s, Run (listed (declarator e c)) r.advanced (ds, whole) s ∧
        (if whole then ∃ b, Run (succeeds (endOfStatement c)) s b r' ∧
            (ds.map fun d => .variable r.current (storageOf r.current) d.1 d.2, b) = out
          else (ds.map fun d => .variable r.current (storageOf r.current) d.1 d.2, false) = out ∧
            s = r') := by
  simp [variableList, and_assoc]

theorem yields_returnedValue {v : Option Expr} :
    Yields (returnedValue e c) r v r' ↔
      if r.stops c then none = v ∧ r = r' else ∃ x, Yields (e c loosest) r x r' ∧ some x = v := by
  simp only [returnedValue, yields_bind, yields_get]
  constructor
  · rintro ⟨_, _, ⟨rfl, rfl⟩, h⟩
    by_cases hs : r.stops c <;> simp_all
  · intro h
    refine ⟨_, _, ⟨rfl, rfl⟩, ?_⟩
    by_cases hs : r.stops c <;> simp_all

theorem refuses_returnedValue :
    Refuses (returnedValue e c) r r' ↔ r.stops c = false ∧ Refuses (e c loosest) r r' := by
  simp only [returnedValue, refuses_bind, refuses_get, yields_get, false_or]
  constructor
  · rintro ⟨_, _, ⟨rfl, rfl⟩, h⟩
    by_cases hs : r.stops c <;> simp_all
  · intro h
    refine ⟨_, _, ⟨rfl, rfl⟩, ?_⟩
    by_cases hs : r.stops c <;> simp_all

theorem yields_returned {x : Stmt} :
    Yields (returned e c) r x r' ↔
      ∃ v, Yields (returnedValue e c) r.advanced v r' ∧ r'.stops c ∧ .ret r.current v = x := by
  simp only [returned, yields_bind, yields_lift, run_advance, yields_endOfStatement, yields_pure]
  constructor
  · rintro ⟨_, _, ⟨rfl, rfl⟩, v, _, hv, _, _, ⟨hs, rfl⟩, rfl, rfl⟩
    exact ⟨v, hv, hs, rfl⟩
  · rintro ⟨v, hv, hs, rfl⟩
    exact ⟨_, _, ⟨rfl, rfl⟩, v, r', hv, (), r', ⟨hs, rfl⟩, rfl, rfl⟩

theorem refuses_returned :
    Refuses (returned e c) r r' ↔
      Refuses (returnedValue e c) r.advanced r' ∨
        ∃ v s, Yields (returnedValue e c) r.advanced v s ∧ Refuses (endOfStatement c) s r' := by
  simp [returned, and_assoc]

theorem yields_expressionStatement {x : Stmt} :
    Yields (expressionStatement e c) r x r' ↔
      ∃ y, Yields (e c loosest) r y r' ∧ r'.stops c ∧ .expression r.current y = x := by
  simp only [expressionStatement, yields_bind, yields_lift, run_current, yields_endOfStatement,
    yields_pure]
  constructor
  · rintro ⟨_, _, ⟨rfl, rfl⟩, y, _, hy, _, _, ⟨hs, rfl⟩, rfl, rfl⟩
    exact ⟨y, hy, hs, rfl⟩
  · rintro ⟨y, hy, hs, rfl⟩
    exact ⟨_, _, ⟨rfl, rfl⟩, y, r', hy, (), r', ⟨hs, rfl⟩, rfl, rfl⟩

theorem refuses_expressionStatement :
    Refuses (expressionStatement e c) r r' ↔
      Refuses (e c loosest) r r' ∨
        ∃ y s, Yields (e c loosest) r y s ∧ Refuses (endOfStatement c) s r' := by
  simp [expressionStatement, and_assoc]

/-- The words that begin a declaration of variables. -/
def isStorage (k : TokenKind) : Bool :=
  k == .keyword .kwLocal || k == .keyword .kwPublic || k == .keyword .kwPrivate

/-- A statement may be an expression that begins so. -/
def opensExpression : TokenKind → Bool
  | .keyword k => k.startsExpression
  | _ => true

/-- A plain statement may begin so. -/
def opensPlain (k : TokenKind) : Bool :=
  isStorage k || k == .keyword .kwReturn || opensExpression k

theorem run_plain {out : List Stmt × Bool} :
    Run (plain e c) r out r' ↔
      if isStorage r.current.kind then Run (variableList e c) r out r'
      else if r.current.isKeyword .kwReturn then Run (single (returned e c)) r out r'
      else if opensExpression r.current.kind then Run (single (expressionStatement e c)) r out r'
      else ([], true) = out ∧ r.advanced.reported (.notAStatement r.current) = r' := by
  rw [plain, run_bind_current]
  cases hk : r.current.kind with
  | keyword k =>
      cases k <;> simp [isStorage, opensExpression, Token.isKeyword, hk,
        Keyword.startsExpression, Keyword.category, and_assoc, and_comm]
  | _ => simp [isStorage, opensExpression, Token.isKeyword, hk]

theorem run_wholeStatement {body : Reading (List Stmt × Bool)} {ss : List Stmt} :
    Run (wholeStatement c body) r ss r' ↔
      ∃ s, Run (recovering c body) r ss s ∧ s.settled c = r' := by
  simp only [wholeStatement, run_bind]
  constructor
  · rintro ⟨_, s, h, h'⟩
    refine ⟨s, ?_⟩
    by_cases ho : c.outermost
    · rw [if_pos ho] at h'
      obtain ⟨_, _, hm, h'⟩ := run_bind.mp h'
      obtain rfl := run_unmute.mp hm
      obtain ⟨rfl, rfl⟩ := run_pure.mp h'
      exact ⟨h, by simp [Reader.settled, ho]⟩
    · rw [if_neg ho] at h'
      obtain ⟨rfl, rfl⟩ := run_pure.mp h'
      exact ⟨h, by simp [Reader.settled, ho]⟩
  · rintro ⟨s, h, rfl⟩
    refine ⟨ss, s, h, ?_⟩
    by_cases ho : c.outermost <;> simp [Reader.settled, ho]

/-! ### Declarations -/

theorem run_parameters {ns : List Name} :
    Run (parameters c) r ns r' ↔
      if r.current.isPunctuation .openParen && r.sameLine then
        Yields (listUpTo .closeParen (name "a parameter name")) r.advanced ns r' ∨
          ∃ s, Refuses (listUpTo .closeParen (name "a parameter name")) r.advanced s ∧
            [] = ns ∧ s.lineSkipped c = r'
      else [] = ns ∧ r = r' := by
  simp only [parameters, run_bind, run_get]
  constructor
  · rintro ⟨_, _, ⟨rfl, rfl⟩, h⟩
    by_cases ho : (r.current.isPunctuation .openParen && r.sameLine) = true
    · rw [if_pos ho] at h ⊢
      simpa [run_skipLine, and_assoc, and_comm] using h
    · rw [if_neg ho] at h ⊢
      exact run_pure.mp h
  · intro h
    refine ⟨_, _, ⟨rfl, rfl⟩, ?_⟩
    by_cases ho : (r.current.isPunctuation .openParen && r.sameLine) = true
    · rw [if_pos ho] at h ⊢
      simpa [run_skipLine, and_assoc, and_comm] using h
    · rw [if_neg ho] at h ⊢
      exact run_pure.mpr h

theorem run_routine {what : String} {t : Token} {closers : List Keyword} {close : Keyword}
    {x : Routine} :
    Run (routine e c what t closers close) r x r' ↔
      ∃ n s ps s₁ b s₂, Run (nameOrMissing what) r n s ∧ Run (parameters c) s ps s₁ ∧
        Run (block (plainStatement e) c.insideRoutine closers) s₁ b s₂ ∧
        ∃ closing, Run (keyword? close) s₂ closing r' ∧ ⟨t, n, ps, b, closing⟩ = x := by
  simp only [routine, bind_pure_comp, run_bind, run_map]
  constructor
  · rintro ⟨n, s, hn, ps, s₁, hps, b, s₂, hb, hc⟩
    exact ⟨n, s, ps, s₁, b, s₂, hn, hps, hb, hc⟩
  · rintro ⟨n, s, ps, s₁, b, s₂, hn, hps, hb, hc⟩
    exact ⟨n, s, hn, ps, s₁, hps, b, s₂, hb, hc⟩

theorem run_function {x : Stmt} :
    Run (function e c) r x r' ↔
      ∃ f, Run (routine e c "a function name" r.current functionClosers .kwEndFunction)
          (if r.current.isKeyword .kwStatic then r.advanced.advanced else r.advanced) f r' ∧
        .function (r.current.isKeyword .kwStatic) f = x := by
  by_cases h : r.current.isKeyword .kwStatic <;> simp [function, h, and_assoc]

theorem run_attributes {out : List Member × Bool} :
    Run (attributes c) r out r' ↔
      ∃ ns whole s, Run (listed (name "an attribute name")) r.advanced (ns, whole) s ∧
        (if whole then ∃ b, Run (succeeds (endOfStatement c)) s b r' ∧
            (ns.map fun n => .data ⟨r.current, n⟩, b) = out
          else (ns.map fun n => .data ⟨r.current, n⟩, false) = out ∧ s = r') := by
  simp [attributes, and_assoc]

theorem run_method {out : List Member × Bool} :
    Run (method e c) r out r' ↔
      ∃ m, Run (routine e c "a method name" r.current methodClosers .kwEndMethod) r.advanced m r' ∧
        ([.method m], true) = out := by
  simp [method, and_assoc]

theorem run_members {ms : List Member} :
    Run (members e c) r ms r' ↔
      Run (repeated (fun r => r.atAny [.kwData, .kwMethod] || (!r.atEnd && !r.atAny c.closers))
        (recovering c (member e c))) r ms r' := Iff.rfl

theorem run_member {out : List Member × Bool} :
    Run (member e c) r out r' ↔
      if r.current.isKeyword .kwData then Run (attributes c) r out r'
      else if r.current.isKeyword .kwMethod then Run (method e c) r out r'
      else ([], false) = out ∧
        r.reported (.expected "'Data', 'Method' or 'EndClass'" r.current) = r' := by
  rw [member, run_bind_current]
  cases hk : r.current.kind with
  | keyword k => cases k <;> simp [Token.isKeyword, hk, and_comm]
  | _ => simp [Token.isKeyword, hk, and_comm]

theorem run_parentClass {n : Option Name} :
    Run parentClass r n r' ↔
      if r.current.isKeyword .kwFrom then
        (∃ p, Yields (name "a parent class name") r.advanced p r' ∧ some p = n) ∨
          Refuses (name "a parent class name") r.advanced r' ∧ none = n
      else none = n ∧ r = r' := by
  by_cases h : r.current.isKeyword .kwFrom <;>
    simp [parentClass, Except.toOption, h, and_assoc]

theorem run_classDefinition {x : Stmt} :
    Run (classDefinition e c) r x r' ↔
      ∃ n s parent s₁ ms s₂, Run (nameOrMissing "a class name") r.advanced n s ∧
        Run parentClass s parent s₁ ∧ Run (members e (c.enter classClosers)) s₁ ms s₂ ∧
        ∃ closed, Run (closing .kwEndClass r.current) s₂ closed r' ∧
          .classDef ⟨r.current, n, parent, ms.filterMap Member.attribute?,
            ms.filterMap Member.method?, closed⟩ = x := by
  simp only [classDefinition, bind_pure_comp, run_bind, run_map, run_advance]
  constructor
  · rintro ⟨_, _, ⟨rfl, rfl⟩, n, s, hn, parent, s₁, hp, ms, s₂, hms, hc⟩
    exact ⟨n, s, parent, s₁, ms, s₂, hn, hp, hms, hc⟩
  · rintro ⟨n, s, parent, s₁, ms, s₂, hn, hp, hms, hc⟩
    exact ⟨_, _, ⟨rfl, rfl⟩, n, s, hn, parent, s₁, hp, ms, s₂, hms, hc⟩

/-- A declaration of a function or a class begins here. -/
def opensFunction (r : Reader) : Bool :=
  r.current.isKeyword .kwFunction ||
    r.current.isKeyword .kwStatic && r.next.isKeyword .kwFunction

/-- Where a plain statement begins nothing else is declared. -/
theorem opensFunction_of_plain (h : opensPlain r.current.kind = true) :
    opensFunction r = false ∧ r.current.isKeyword .kwClass = false := by
  cases hk : r.current.kind with
  | keyword k =>
      cases k <;> simp_all [opensPlain, opensFunction, Token.isKeyword, isStorage, opensExpression,
        Keyword.startsExpression, Keyword.category]
  | _ => simp [opensFunction, Token.isKeyword, hk]

theorem run_general {out : List Stmt × Bool} :
    Run (general e c) r out r' ↔
      if c.inRoutine then Run (plain e c) r out r'
      else if opensFunction r then ∃ f, Run (function e c) r f r' ∧ ([f], true) = out
      else if r.current.isKeyword .kwClass then
        ∃ d, Run (classDefinition e c) r d r' ∧ ([d], true) = out
      else Run (plain e c) r out r' := by
  by_cases hc : c.inRoutine
  · simp [general, hc]
  rw [general, if_neg hc, run_bind_get]
  cases hk : r.current.kind with
  | keyword k => cases k <;> simp [opensFunction, Token.isKeyword, hk, hc]
  | _ => simp [opensFunction, Token.isKeyword, hk, hc]

theorem run_statement {ss : List Stmt} :
    Run (statement e c) r ss r' ↔ Run (wholeStatement c (general e c)) r ss r' := Iff.rfl

/-- Inside a routine every statement is a plain one. -/
theorem block_insideRoutine (closers : List Keyword) :
    block (plainStatement e) c.insideRoutine closers =
      block (statement e) c.insideRoutine closers := by
  have hplain : plainStatement e (c.insideRoutine.enter closers) =
      statement e (c.insideRoutine.enter closers) := by
    rw [plainStatement, statement, general]
    rfl
  rw [block, block, hplain]

end Clipper.Grammar
