import Clipper.Canonical

/-!
Where headers end. Inside delimiters an expression may go on on the next line. So a conditional or a
loop there is read with another header if its body begins with a parenthesis: what is meant as the
body's first statement is taken for a call. The canonical form puts the operands of every operator
inside delimiters, and the bodies of blocks outside them again.
-/

namespace Clipper

namespace Headers

/-- In canonical form the statements begin with a parenthesis. -/
def opensGroup (ss : List Stmt) : Bool :=
  (Canonical.stmts ss).head? == some (Canonical.mark .openParen)

mutual

/-- In canonical form every header ends with its line. The form is that of an operand where `nested`
holds, and it is written inside delimiters where `delimited` does. -/
def expression (nested delimited : Bool) : Expr → Bool
  | .name _ | .integer _ _ | .float _ _ | .string _ _ _ | .date _ | .boolean _ _ | .nil _
  | .missing _ => true
  | .array _ elements => expressions elements
  | .unary _ _ operand => expression true true operand
  | .binary _ _ left right => expression true true left && expression true true right
  | .call _ callee arguments => expression true delimited callee && expressions arguments
  | .index _ indexed position =>
      expression true delimited indexed && expression false true position
  | .member t object _ => t.isPunctuation .colonColon || expression true delimited object
  | .assign _ target value =>
      expression true (nested || delimited) target && expression false (nested || delimited) value
  | .branch first others alternative _ =>
      guarded delimited first && (branches delimited others && blockIfAny alternative)
  | .whileLoop g _ => guarded delimited g
  | .forLoop _ _ start stop step body _ =>
      expression false delimited start && (expression false delimited stop &&
        (ifAny delimited step && headed delimited body))

/-- Expressions between delimiters. -/
def expressions : List Expr → Bool
  | [] => true
  | e :: es => expression false true e && expressions es

def ifAny (delimited : Bool) : Option Expr → Bool
  | none => true
  | some e => expression false delimited e

def guarded (delimited : Bool) : Guarded → Bool
  | ⟨_, condition, body⟩ => expression false delimited condition && headed delimited body

def branches (delimited : Bool) : List Guarded → Bool
  | [] => true
  | g :: gs => guarded delimited g && branches delimited gs

/-- A block right behind a header. -/
def headed (delimited : Bool) : Block → Bool
  | ⟨_, statements⟩ => !(delimited && opensGroup statements) && stmts statements

def blockIfAny : Option Block → Bool
  | none => true
  | some ⟨_, statements⟩ => stmts statements

def stmts : List Stmt → Bool
  | [] => true
  | s :: ss => stmt s && stmts ss

def stmt : Stmt → Bool
  | .function _ r => routine r
  | .classDef d => classDefinition d
  | .variable _ _ _ value | .ret _ value => ifAny false value
  | .expression _ value => expression false false value

def routine : Routine → Bool
  | ⟨_, _, _, ⟨_, statements⟩, _⟩ => stmts statements

def routines : List Routine → Bool
  | [] => true
  | r :: rs => routine r && routines rs

def classDefinition : ClassDef → Bool
  | ⟨_, _, _, _, methods, _⟩ => routines methods

end

end Headers

/-- In canonical form every header of the program ends with its line. -/
def Program.headersEnd (p : Program) : Bool := Headers.stmts p.statements

end Clipper
