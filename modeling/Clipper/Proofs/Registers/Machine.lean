import Clipper.Grammar.Expression

/-!
The grammar as a machine. What a context says of a place is kept in registers here: how many
delimiters are open, how high the expression is that is being built, and the words that close
the blocks now open. A production sets them on its way in and has to put them back on its way
out, whether it is carried through or not. The machine notes every statement and every round of
a class body with the moments at which they begin and end.
-/

namespace Clipper

structure Registers where
  /-- How many parentheses, brackets and braces are open. -/
  nesting : Nat
  /-- The height of the expression being built. -/
  depth : Nat
  /-- The words that close the blocks now open, those of the innermost block first. -/
  terminators : List (List Keyword)
  deriving DecidableEq, Repr

namespace Registers

def idle : Registers := ⟨0, 0, []⟩

def closers (g : Registers) : List Keyword := g.terminators.flatten

/-- What a reading at this place is told. -/
def context (g : Registers) (outermost : Bool) : Context :=
  ⟨g.closers, decide (0 < g.nesting), outermost, false⟩

def nested (g : Registers) : Registers := { g with nesting := g.nesting + 1 }

def unnested (g : Registers) : Registers := { g with nesting := g.nesting - 1 }

def atDepth (g : Registers) (depth : Nat) : Registers := { g with depth }

def pushed (g : Registers) (closers : List Keyword) : Registers :=
  { g with terminators := closers :: g.terminators }

def popped (g : Registers) : Registers := { g with terminators := g.terminators.tail }

def withNesting (g : Registers) (nesting : Nat) : Registers := { g with nesting }

end Registers

/-- A reader with the registers. -/
structure Moment where
  reader : Reader
  registers : Registers

/-- Something that was read, from the moment at which it began to that at which it was over. -/
structure Passage where
  entry : Moment
  exit : Moment

structure Machine extends Moment where
  /-- The statements read so far, those inside a statement before it. -/
  statements : List Passage
  /-- The rounds of class bodies gone through so far. -/
  members : List Passage

/-- A reading by the machine. -/
abbrev Work := StateM Machine

/-- One that may be given up. -/
abbrev Trial := ExceptT Refusal Work

namespace Machine

variable {α : Type}

def ofStream (s : TokenStream) : Machine := ⟨⟨.ofStream s, .idle⟩, [], []⟩

def context (w : Machine) : Context := w.registers.context (w.registers.depth == 0)

def noteStatement (w : Machine) (p : Passage) : Machine :=
  { w with statements := w.statements ++ [p] }

def noteMember (w : Machine) (p : Passage) : Machine := { w with members := w.members ++ [p] }

/-! ### Tokens and registers -/

/-- A reading that leaves the registers alone. It is told what they say. -/
def told (m : Context → Reading α) : Work α := fun w =>
  let (x, reader) := (m w.context).run w.reader
  (x, { w with reader })

def tried (a : Context → Attempt α) : Trial α := ExceptT.mk (told fun c => (a c).run)

instance : MonadLift Reading Work := ⟨fun m => told fun _ => m⟩

instance : MonadLift Attempt Trial := ⟨fun a => tried fun _ => a⟩

def place : Work Context := return (← get).context

def consulted : Work Registers := return (← get).registers

def register (f : Registers → Registers) : Work Unit :=
  modify fun w => { w with registers := f w.registers }

/-- Inside one more pair of delimiters. -/
def nested (t : Trial α) : Trial α := ExceptT.mk do
  register .nested
  let x ← t.run
  register .unnested
  return x

/-- One level deeper in the tree. What links have added inside is taken back as well. -/
def deeper (t : Trial α) : Trial α := ExceptT.mk do
  let depth := (← consulted).depth
  if Grammar.maxDepth ≤ depth then (Grammar.refuseDepth : Attempt α).run
  else
    register (·.atDepth (depth + 1))
    let x ← t.run
    register (·.atDepth depth)
    return x

/-- One more link of a chain. -/
def grow : Trial Unit := ExceptT.mk do
  let depth := (← consulted).depth
  if Grammar.maxDepth ≤ depth then (Grammar.refuseDepth : Attempt Unit).run
  else
    register (·.atDepth (depth + 1))
    return .ok ()

/-- Notes what a reading passes over. -/
def noted (note : Machine → Passage → Machine) (m : Work α) : Work α := do
  let entry := (← get).toMoment
  let x ← m
  modify fun w => note w ⟨entry, w.toMoment⟩
  return x

/-! ### Loops -/

def repeated (more : Machine → Bool) (body : Work (List α)) : Work (List α) := do
  go (← get).reader.rounds
where
  go : List Token → Work (List α)
    | [] => return []
    | _ :: rounds => do
        if more (← get) then
          let xs ← body
          return xs ++ (← go rounds)
        else return []

def listed (item : Trial α) : Work (List α × Bool) := do
  go (← get).reader.rounds
where
  go : List Token → Work (List α × Bool)
    | [] => return ([], true)
    | _ :: rounds => do
        match ← item.run with
        | .error _ => return ([], false)
        | .ok x =>
            if (← (Grammar.punctuation? .comma)).isSome then
              let (xs, whole) ← go rounds
              return (x :: xs, whole)
            else return ([x], true)

def itemsBefore (close : Punctuation) (item : Trial α) : Trial (List α) := do
  if (← Grammar.current).isPunctuation close then return []
  else
    let (items, whole) ← listed item
    if whole then return items else throw .reported

def listUpTo (close : Punctuation) (item : Trial α) : Trial (List α) := do
  let items ← itemsBefore close item
  (Grammar.expectPunctuation close)
  return items

def recovering (body : Work (List α × Bool)) : Work (List α) := do
  let start := (← Grammar.current).span.start
  let (xs, whole) ← body
  unless whole do told fun c => Grammar.recover c start
  return xs

def single (t : Trial α) : Work (List α × Bool) := do
  match ← t.run with
  | .ok x => return ([x], true)
  | .error _ => return ([], false)

/-! ### Statements -/

/-- Reads an expression whose operators all bind tighter than a number says. -/
abbrev Expressions := Nat → Trial Expr

def expressionOrMissing (e : Expressions) (precedence : Nat) : Work Expr := do
  let t ← Grammar.current
  match ← (e precedence).run with
  | .ok x => return x
  | .error _ =>
      unless decide (0 < (← consulted).nesting) do told Grammar.skipLine
      return .missing t

/-- A block ends where any of the blocks now open does. -/
def blockGoesOn (w : Machine) : Bool := !w.reader.atEnd && !w.reader.atAny w.registers.closers

def block (statement : Work (List Stmt)) (closers : List Keyword) : Work Block := do
  let t ← Grammar.current
  register (·.pushed closers)
  let nesting := (← consulted).nesting
  register (·.withNesting 0)
  let statements ← repeated blockGoesOn statement
  register (·.withNesting nesting)
  register .popped
  return ⟨t, statements⟩

def endOfStatement : Trial Unit := tried Grammar.endOfStatement

def declarator (e : Expressions) : Trial (Name × Option Expr) := do
  let n ← (Grammar.name "a variable name")
  match ← (Grammar.operator? .assign) with
  | some _ => return (n, some (← expressionOrMissing e Grammar.loosest))
  | none => return (n, none)

def variableList (e : Expressions) : Work (List Stmt × Bool) := do
  let t ← Grammar.advance
  let (declared, whole) ← listed (declarator e)
  let statements := declared.map fun d => .variable t (Grammar.storageOf t) d.1 d.2
  if whole then
    return (statements, ← told fun c => Grammar.succeeds (Grammar.endOfStatement c))
  else return (statements, false)

def returnedValue (e : Expressions) : Trial (Option Expr) := do
  let c ← place
  if (← (get : Reading Reader)).stops c then return none
  else return some (← e Grammar.loosest)

def returned (e : Expressions) : Trial Stmt := do
  let t ← Grammar.advance
  let value ← returnedValue e
  endOfStatement
  return .ret t value

def expressionStatement (e : Expressions) : Trial Stmt := do
  let t ← Grammar.current
  let value ← e Grammar.loosest
  endOfStatement
  return .expression t value

def plain (e : Expressions) : Work (List Stmt × Bool) := do
  match (← Grammar.current).kind with
  | .keyword .kwLocal | .keyword .kwPublic | .keyword .kwPrivate => variableList e
  | .keyword .kwReturn => single (returned e)
  | .keyword k =>
      if k.startsExpression then single (expressionStatement e)
      else
        (Grammar.report (.notAStatement (← Grammar.advance)))
        return ([], true)
  | _ => single (expressionStatement e)

/-- A statement that ends outside all expressions lets faults be reported again. -/
def wholeStatement (body : Work (List Stmt × Bool)) : Work (List Stmt) :=
  noted noteStatement do
    let statements ← recovering body
    if (← consulted).depth == 0 then Grammar.unmute
    return statements

def plainStatement (e : Expressions) : Work (List Stmt) := wholeStatement (plain e)

/-! ### Declarations -/

def parameters : Work (List Name) := do
  let r ← (get : Reading Reader)
  if r.current.isPunctuation .openParen && r.sameLine then
    discard (Grammar.advance)
    match ← (nested (listUpTo .closeParen ((Grammar.name "a parameter name")))).run with
    | .ok names => return names
    | .error _ =>
        told Grammar.skipLine
        return []
  else return []

/-- The words that begin a declaration close the body of a routine, so that all statements
there are plain ones. -/
def routine (e : Expressions) (what : String) (token : Token) (closers : List Keyword)
    (close : Keyword) : Work Routine := do
  let name ← (Grammar.nameOrMissing what)
  let parameters ← parameters
  let body ← block (plainStatement e) closers
  let closing ← (Grammar.keyword? close)
  return { token, name, parameters, body, closing }

def function (e : Expressions) : Work Stmt := do
  let t ← Grammar.advance
  let isStatic := t.isKeyword .kwStatic
  if isStatic then discard (Grammar.advance)
  return .function isStatic
    (← routine e "a function name" t Grammar.functionClosers .kwEndFunction)

def method (e : Expressions) : Work (List Grammar.Member × Bool) := do
  let t ← Grammar.advance
  let m ← routine e "a method name" t Grammar.methodClosers .kwEndMethod
  return ([.method m], true)

def member (e : Expressions) : Work (List Grammar.Member × Bool) := do
  let t ← Grammar.current
  match t.kind with
  | .keyword .kwData => told Grammar.attributes
  | .keyword .kwMethod => method e
  | _ =>
      (Grammar.report (.expected "'Data', 'Method' or 'EndClass'" t))
      return ([], false)

/-- A class body goes on at any member, even where a block around it ends. -/
def classGoesOn (w : Machine) : Bool := w.reader.atAny [.kwData, .kwMethod] || w.blockGoesOn

def classMembers (e : Expressions) : Work (List Grammar.Member) :=
  repeated classGoesOn (noted noteMember (recovering (member e)))

def classDefinition (e : Expressions) : Work Stmt := do
  let token ← Grammar.advance
  let className ← (Grammar.nameOrMissing "a class name")
  let parent ← Grammar.parentClass
  register (·.pushed Grammar.classClosers)
  let members ← classMembers e
  register .popped
  let closing ← (Grammar.closing .kwEndClass token)
  return .classDef
    { token, name := className, parent
      attributes := members.filterMap Grammar.Member.attribute?
      methods := members.filterMap Grammar.Member.method?
      closing }

def general (e : Expressions) : Work (List Stmt × Bool) := do
  let r ← (get : Reading Reader)
  match r.current.kind with
  | .keyword .kwFunction => return ([← function e], true)
  | .keyword .kwStatic =>
      if r.next.isKeyword .kwFunction then return ([← function e], true) else plain e
  | .keyword .kwClass => return ([← classDefinition e], true)
  | _ => plain e

def statement (e : Expressions) : Work (List Stmt) := wholeStatement (general e)

/-! ### Operands -/

def unary (e : Expressions) (op : UnaryOp) : Work Expr := do
  let t ← Grammar.advance
  return .unary t op (← expressionOrMissing e Operator.not.precedence)

def group (e : Expressions) : Trial Expr := do
  discard (Grammar.advance)
  nested do
    let inner ← e Grammar.loosest
    (Grammar.expectPunctuation .closeParen)
    return inner

def arguments (e : Expressions) (close : Punctuation) : Trial (List Expr) :=
  nested (listUpTo close (expressionOrMissing e Grammar.loosest))

def array (e : Expressions) : Trial Expr := do
  let t ← Grammar.advance
  return .array t (← arguments e .closeBrace)

def guarded (e : Expressions) (token : Token) (closers : List Keyword) : Work Guarded := do
  let condition ← expressionOrMissing e Grammar.loosest
  return { token, condition, body := ← block (statement e) closers }

def otherBranches (e : Expressions) : Work (List Guarded) :=
  repeated (·.reader.current.isKeyword .kwElseIf) do
    return [← guarded e (← Grammar.advance) Grammar.branchClosers]

def alternative (e : Expressions) : Work (Option Block) := do
  match ← (Grammar.keyword? .kwElse) with
  | some _ => return some (← block (statement e) [.kwEndIf])
  | none => return none

def branch (e : Expressions) : Work Expr := do
  let t ← Grammar.advance
  let first ← guarded e t Grammar.branchClosers
  let others ← otherBranches e
  let otherwise ← alternative e
  return .branch first others otherwise (← (Grammar.closing .kwEndIf t))

def whileLoop (e : Expressions) : Work Expr := do
  let t ← Grammar.advance
  if t.isKeyword .kwDo then (Grammar.requireKeyword .kwWhile)
  let g ← guarded e t [.kwEndDo]
  return .whileLoop g (← (Grammar.closing .kwEndDo t))

def stepClause (e : Expressions) : Work (Option Expr) := do
  match ← (Grammar.keyword? .kwStep) with
  | some _ => return some (← expressionOrMissing e Grammar.loosest)
  | none => return none

def forLoop (e : Expressions) : Work Expr := do
  let t ← Grammar.advance
  let counter ← (Grammar.nameOrMissing "a loop counter")
  (Grammar.counterSign counter)
  let start ← expressionOrMissing e Grammar.loosest
  (Grammar.requireKeyword .kwTo)
  let stop ← expressionOrMissing e Grammar.loosest
  let step ← stepClause e
  let body ← block (statement e) [.kwNext]
  let closed ← (Grammar.closing .kwNext t)
  if closed.isSome then (Grammar.repeatedCounter counter)
  return .forLoop t counter start stop step body closed

/-- The operand that begins so. -/
def begun (e : Expressions) : Grammar.Starter → Trial Expr
  | .name => return .name ⟨← Grammar.advance⟩
  | .integer => Grammar.integer
  | .float => Grammar.float
  | .string => Grammar.string
  | .date => return .date (← Grammar.advance)
  | .boolean value => return .boolean (← Grammar.advance) value
  | .nil => return .nil (← Grammar.advance)
  | .unary op => unary e op
  | .group => group e
  | .array => array e
  | .ownMember => Grammar.ownMember
  | .branch => branch e
  | .whileLoop => whileLoop e
  | .forLoop => forLoop e

def operand (e : Expressions) : Trial Expr := do
  let t ← Grammar.current
  match Grammar.Starter.ofKind? t.kind with
  | some s => begun e s
  | none => (Grammar.refuse (.notAnExpression t))

/-! ### Chains -/

/-- The further subscripts of a list, and its end. The number bounds how many there can be. -/
def subscripts (e : Expressions) (bracket : Token) : Nat → Expr → Trial Expr
  | rounds, left => do
      if (← (Grammar.punctuation? .comma)).isSome then
        grow
        match rounds with
        | 0 => throw .reported
        | rounds + 1 =>
            let i ← expressionOrMissing e Grammar.loosest
            subscripts e bracket rounds (.index bracket left i)
      else
        (Grammar.expectPunctuation .closeBracket)
        return left

/-- Takes what has been read into a link. -/
def attach (e : Expressions) (rounds : Nat) (left : Expr) (l : Grammar.Link) : Trial Expr := do
  let t ← Grammar.advance
  match l with
  | .binary op => return .binary t op left (← expressionOrMissing e l.precedence)
  | .assign =>
      unless left.isAssignable do (Grammar.report (.notAssignable left.token))
      return .assign t left (← expressionOrMissing e Grammar.loosest)
  | .call => return .call t left (← arguments e .closeParen)
  | .index => nested do
      let i ← expressionOrMissing e Grammar.loosest
      subscripts e t rounds (.index t left i)
  | .member => return .member t left (← (Grammar.name "a member name"))

/-- The links behind an operand. The number bounds how many there can be. -/
def chain (e : Expressions) : Nat → Nat → Expr → Trial Expr
  | rounds, precedence, left => do
      let c ← place
      match Grammar.link? c precedence (← (get : Reading Reader)) with
      | none => return left
      | some l =>
          grow
          match rounds with
          | 0 => throw .reported
          | rounds + 1 => do
              let left ← attach e rounds left l
              chain e rounds precedence left

/-- Reads an expression. The number bounds how many levels are left. -/
def expression : Nat → Expressions
  | 0, _ => Grammar.refuseDepth
  | levels + 1, precedence => deeper do
      let left ← operand (expression levels)
      chain (expression levels) levels precedence left

def program : Work Program :=
  return ⟨← repeated (fun w => !w.reader.atEnd) (statement (expression Grammar.maxDepth))⟩

end Machine

end Clipper
