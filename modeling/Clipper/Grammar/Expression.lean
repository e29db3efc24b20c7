import Clipper.Grammar.Operand

/-!
Expressions by precedence: an operand, and then, as long as they bind tightly enough,
operators with their right operands, calls, subscripts and member sends. A number
given along bounds the depth of the tree. Each operand and each link of a chain
spends one from it.
-/

namespace Clipper.Grammar

/-- What can follow an operand and take it into a larger expression. -/
inductive Link
  | binary (op : BinaryOp)
  | assign
  | call
  | index
  | member
  deriving DecidableEq, Repr

namespace Link

def ofKind? : TokenKind → Option Link
  | .operator .assign => some assign
  | .operator o => (BinaryOp.ofOperator? o).map binary
  | .punctuation .openParen => some call
  | .punctuation .openBracket => some index
  | .punctuation .colon => some member
  | _ => none

/-- Calls, subscripts and member sends bind tighter than every operator. -/
def precedence : Link → Nat
  | binary op => op.operator.precedence
  | assign => Operator.assign.precedence
  | call | index | member => 255

end Link

/-- A link of a chain. The subscripts of one list share its opening bracket. -/
inductive Step
  | link (l : Link)
  | subscript (bracket : Token)

/-- The link at the current token, if it binds tightly enough and the expression may go
on there. -/
def link? (c : Context) (precedence : Nat) (r : Reader) : Option Link :=
  match Link.ofKind? r.current.kind with
  | some l => if precedence < l.precedence && (c.delimited || r.sameLine) then some l else none
  | none => none

/-- Goes on with a list of subscripts, or closes it. -/
def nextSubscript (bracket : Token) : Attempt (Option Step) := do
  if (← punctuation? .comma).isSome then return some (.subscript bracket)
  else
    expectPunctuation .closeBracket
    return none

/-- The link that comes next, if any. After a subscript the list of subscripts goes on
or is closed first. -/
def nextStep (c : Context) (precedence : Nat) (bracket : Option Token) :
    Attempt (Option Step) := do
  let step ← match bracket with
    | some t => nextSubscript t
    | none => pure none
  match step with
  | some s => return some s
  | none => return (link? c precedence (← get)).map .link

def subscript (e : Expressions) (c : Context) (bracket : Token) (left : Expr) :
    Reading (Expr × Option Token) :=
  return (.index bracket left (← expressionOrMissing e c.delimit loosest), some bracket)

/-- Takes what has been read into the next link. A bracket comes back while its list
of subscripts is open. -/
def attach (e : Expressions) (c : Context) (left : Expr) : Step → Attempt (Expr × Option Token)
  | .subscript bracket => subscript e c bracket left
  | .link l => do
      let t ← advance
      match l with
      | .binary op =>
          return (.binary t op left (← expressionOrMissing e c l.precedence), none)
      | .assign =>
          unless left.isAssignable do report (.notAssignable left.token)
          return (.assign t left (← expressionOrMissing e c loosest), none)
      | .call => return (.call t left (← arguments e c .closeParen), none)
      | .index => subscript e c t left
      | .member => return (.member t left (← name "a member name"), none)

mutual

/-- Reads an expression of at most this depth. -/
def expression : Nat → Expressions
  | 0, _, _ => refuseDepth
  | n + 1, c, precedence => do
      chain n c precedence none (← operand (expression n) c)

/-- Goes on behind an operand with links that bind tighter than `precedence`. -/
def chain : Nat → Context → Nat → Option Token → Expr → Attempt Expr
  | n, c, precedence, bracket, left => do
      match ← nextStep c precedence bracket with
      | none => return left
      | some step =>
          match n with
          | 0 => refuseDepth
          | n + 1 => do
              let (left, bracket) ← attach (expression n) c left step
              chain n c precedence bracket left

end

/-- The depth that no expression exceeds. -/
def maxDepth : Nat := 64

/-- Reads statements to the end of the text. -/
def program : Reading Program :=
  return ⟨← repeated (!·.atEnd) (statement (expression maxDepth) .file)⟩

end Clipper.Grammar

namespace Clipper

/-- The tree of a text and the faults found on the way. -/
structure Parsed where
  program : Program
  faults : List Fault

namespace Parsed

def ofStream (s : TokenStream) : Parsed :=
  let (program, r) := Grammar.program.run (.ofStream s)
  ⟨program, r.faults.toList⟩

def ofSource (source file : String) : Parsed := ofStream (.ofText file source)

def diagnostics (p : Parsed) : List Diagnostic := p.faults.map Fault.diagnostic

/-- No error was found; warnings do not count. -/
def isOk (p : Parsed) : Bool := p.diagnostics.all fun d => !d.isError

end Parsed

end Clipper
