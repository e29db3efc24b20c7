import Clipper.Grammar.Statement
import Clipper.Number.Binary64
import Clipper.Token.Literal

/-!
Operands: names, literals, groups, operators that stand before their operand, and
the conditionals and loops, which are expressions over blocks of statements.
-/

namespace Clipper.Grammar

/-- Integers have 64 bits with a sign, which is never written as part of a literal. -/
def integerBound : Nat := Binary64.twoTo 63

def integer : Attempt Expr := do
  let t ← advance
  let value := Binary64.ofDigits t.literal.toList
  if value < integerBound then return .integer t value
  else refuse (.integerTooLarge t)

def float : Attempt Expr := do
  let t ← advance
  match Binary64.ofDecimal? t.literal.toList with
  | some bits => return .float t bits
  | none => refuse (.malformedNumber t)

def string : Reading Expr := do
  let t ← advance
  let (delimiter, body) := Literal.stringParts t.literal
  return .string t delimiter body

/-- An operator before an operand binds tighter than those between operands. -/
def unary (e : Expressions) (c : Context) (op : UnaryOp) : Reading Expr := do
  let t ← advance
  return .unary t op (← expressionOrMissing e c Operator.not.precedence)

/-- Parentheses leave no trace in the tree. -/
def group (e : Expressions) (c : Context) : Attempt Expr := do
  discard advance
  let inner ← e c.delimit loosest
  expectPunctuation .closeParen
  return inner

/-- Expressions between commas. One that cannot be read leaves a placeholder. -/
def arguments (e : Expressions) (c : Context) (close : Punctuation) : Attempt (List Expr) :=
  listUpTo close (expressionOrMissing e c.delimit loosest)

def array (e : Expressions) (c : Context) : Attempt Expr := do
  let t ← advance
  return .array t (← arguments e c .closeBrace)

/-- A member of the receiver, which is not written. -/
def ownMember : Attempt Expr := do
  let t ← advance
  let member ← name "a member name"
  return .member t (.name ⟨.implied (.keyword .kwSelf) "Self" t⟩) member

/-- The statements of a conditional or a loop. -/
def body (e : Expressions) (c : Context) (closers : List Keyword) : Reading Block :=
  block (statement e) c.insideExpression closers

def guarded (e : Expressions) (c : Context) (token : Token) (closers : List Keyword) :
    Reading Guarded := do
  let condition ← expressionOrMissing e c loosest
  return { token, condition, body := ← body e c closers }

def branchClosers : List Keyword := [.kwElseIf, .kwElse, .kwEndIf]

/-- The branches behind the first one, each under a condition of its own. -/
def otherBranches (e : Expressions) (c : Context) : Reading (List Guarded) :=
  repeated (·.current.isKeyword .kwElseIf) do
    return [← guarded e c (← advance) branchClosers]

/-- The statements for the case that no condition holds. -/
def alternative (e : Expressions) (c : Context) : Reading (Option Block) := do
  match ← keyword? .kwElse with
  | some _ => return some (← body e c [.kwEndIf])
  | none => return none

def branch (e : Expressions) (c : Context) : Reading Expr := do
  let t ← advance
  let first ← guarded e c t branchClosers
  let others ← otherBranches e c
  let otherwise ← alternative e c
  return .branch first others otherwise (← closing .kwEndIf t)

/-- A word that belongs here and that reading can do without. -/
def requireKeyword (k : Keyword) : Reading Unit := discard (expectKeyword k).run

def whileLoop (e : Expressions) (c : Context) : Reading Expr := do
  let t ← advance
  if t.isKeyword .kwDo then requireKeyword .kwWhile
  let g ← guarded e c t [.kwEndDo]
  return .whileLoop g (← closing .kwEndDo t)

/-- The name of the counter may be repeated behind the end of the loop. -/
def repeatedCounter (counter : Name) : Reading Unit := do
  let r ← get
  if r.current.kind = .identifier && r.sameLine then
    let t ← advance
    if !counter.isMissing && !Text.sameWord t.literal counter.text then
      report (.otherCounter t counter.token)

/-- The sign between a counter and its first value. -/
def counterSign (counter : Name) : Reading Unit := do
  let sign ← take? fun t => t.isOperator .assign || t.isOperator .equal
  if sign.isNone && !counter.isMissing then
    report (.expected "':='" (← current))

def stepClause (e : Expressions) (c : Context) : Reading (Option Expr) := do
  match ← keyword? .kwStep with
  | some _ => return some (← expressionOrMissing e c loosest)
  | none => return none

/-- A faulty header still gives a loop, so that its body and its end are read as such. -/
def forLoop (e : Expressions) (c : Context) : Reading Expr := do
  let t ← advance
  let counter ← nameOrMissing "a loop counter"
  counterSign counter
  let start ← expressionOrMissing e c loosest
  requireKeyword .kwTo
  let stop ← expressionOrMissing e c loosest
  let step ← stepClause e c
  let body ← body e c [.kwNext]
  let closed ← closing .kwNext t
  if closed.isSome then repeatedCounter counter
  return .forLoop t counter start stop step body closed

/-- What an expression can begin with. -/
inductive Starter
  | name | integer | float | string | date
  | boolean (value : Bool)
  | nil
  | unary (op : UnaryOp)
  | group | array | ownMember
  | branch | whileLoop | forLoop
  deriving DecidableEq, Repr

def Starter.ofKind? : TokenKind → Option Starter
  | .identifier | .keyword .kwSelf => some .name
  | .integer => some .integer
  | .float => some .float
  | .string => some .string
  | .date => some .date
  | .keyword .kwTrue => some (.boolean true)
  | .keyword .kwFalse => some (.boolean false)
  | .keyword .kwNil => some .nil
  | .operator .minus => some (.unary .negate)
  | .operator .not => some (.unary .not)
  | .punctuation .openParen => some .group
  | .punctuation .openBrace => some .array
  | .punctuation .colonColon => some .ownMember
  | .keyword .kwIf => some .branch
  | .keyword .kwWhile | .keyword .kwDo => some .whileLoop
  | .keyword .kwFor => some .forLoop
  | _ => none

/-- The operand that begins so. -/
def begun (e : Expressions) (c : Context) : Starter → Attempt Expr
  | .name => return .name ⟨← advance⟩
  | .integer => integer
  | .float => float
  | .string => string
  | .date => return .date (← advance)
  | .boolean value => return .boolean (← advance) value
  | .nil => return .nil (← advance)
  | .unary op => unary e c op
  | .group => group e c
  | .array => array e c
  | .ownMember => ownMember
  | .branch => branch e c
  | .whileLoop => whileLoop e c
  | .forLoop => forLoop e c

def operand (e : Expressions) (c : Context) : Attempt Expr := do
  let t ← current
  match Starter.ofKind? t.kind with
  | some s => begun e c s
  | none => refuse (.notAnExpression t)

end Clipper.Grammar
