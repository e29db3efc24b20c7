import Clipper.Layout
import Clipper.Tree

/-!
The canonical form of a tree, as pieces of text: every operator with its operands in
parentheses, every block with its closing word, attributes before methods and one to
a line. Placeholders are left out.
-/

namespace Clipper

namespace Canonical

def operator (o : Operator) : Piece :=
  if o.isDotted then .word o.canonical else .text o.canonical

def mark (p : Punctuation) : Piece := .text p.canonical

def space : Piece := .text " "

/-- The receiver is a reserved word, and cased like one. -/
def name (n : Name) : Piece :=
  if n.token.isKeyword .kwSelf then .keyword .kwSelf else .text n.text

def parameterNames : List Name → List Piece
  | [] => []
  | [n] => [.text n.text]
  | n :: ns => .text n.text :: .text ", " :: parameterNames ns

def parameters (ns : List Name) : List Piece :=
  mark .openParen :: parameterNames ns ++ [mark .closeParen]

def storage : Storage → Keyword
  | .localVar => .kwLocal
  | .publicVar => .kwPublic
  | .privateVar => .kwPrivate

def attributeLine (a : Attribute) : List Piece :=
  [.keyword .kwData, space, .text a.name.text, .newline]

/-- The delimiter of a string literal is the one it was written with. -/
def string (delimiter : Char) (body : String) : List Piece :=
  [.text delimiter.toString, .text body, .text delimiter.toString]

/-- An assignment inside another expression stands in parentheses. -/
def grouped (nested : Bool) (pieces : List Piece) : List Piece :=
  if nested then mark .openParen :: pieces ++ [mark .closeParen] else pieces

mutual

/-- The pieces of an expression; `nested` holds for the operands of another one. -/
def expression (nested : Bool) : Expr → List Piece
  | .name n => [name n]
  | .integer t _ | .float t _ | .date t => [.text t.literal]
  | .string _ delimiter body => string delimiter body
  | .boolean _ value => [.keyword (if value then .kwTrue else .kwFalse)]
  | .nil _ => [.keyword .kwNil]
  | .array _ elements => mark .openBrace :: expressions elements ++ [mark .closeBrace]
  | .unary _ op operand =>
      mark .openParen :: operator op.operator :: expression true operand ++ [mark .closeParen]
  | .binary _ op left right =>
      mark .openParen :: expression true left ++ space :: operator op.operator :: space ::
        expression true right ++ [mark .closeParen]
  | .call _ callee arguments =>
      expression true callee ++ mark .openParen :: expressions arguments ++ [mark .closeParen]
  | .index _ indexed position =>
      expression true indexed ++ mark .openBracket :: expression false position ++
        [mark .closeBracket]
  | .member t object member =>
      if t.isPunctuation .colonColon then [mark .colonColon, .text member.text]
      else expression true object ++ [mark .colon, .text member.text]
  | .assign _ target value =>
      grouped nested
        (expression true target ++ space :: operator .assign :: space :: expression false value)
  | .branch first others alternative _ =>
      guarded .kwIf first ++ elseIfs others ++ elseBlock alternative ++ [.keyword .kwEndIf]
  | .whileLoop g _ => guarded .kwWhile g ++ [.keyword .kwEndDo]
  | .forLoop _ counter start stop step body _ =>
      .keyword .kwFor :: space :: .text counter.text :: space :: operator .assign :: space ::
        expression false start ++ space :: .keyword .kwTo :: space :: expression false stop ++
        stepClause step ++ .newline :: block body ++ [.keyword .kwNext]
  | .missing _ => []

def expressions : List Expr → List Piece
  | [] => []
  | [e] => expression false e
  | e :: es => expression false e ++ mark .comma :: space :: expressions es

def stepClause : Option Expr → List Piece
  | none => []
  | some e => space :: .keyword .kwStep :: space :: expression false e

def guarded (opener : Keyword) : Guarded → List Piece
  | ⟨_, condition, body⟩ =>
      .keyword opener :: space :: expression false condition ++ .newline :: block body

def elseIfs : List Guarded → List Piece
  | [] => []
  | g :: gs => guarded .kwElseIf g ++ elseIfs gs

def elseBlock : Option Block → List Piece
  | none => []
  | some b => .keyword .kwElse :: .newline :: block b

def block : Block → List Piece
  | ⟨_, statements⟩ => .indent :: stmts statements ++ [.dedent]

def stmts : List Stmt → List Piece
  | [] => []
  | s :: ss => stmt s ++ .endLine :: stmts ss

/-- The pieces of a statement without the end of its line. -/
def stmt : Stmt → List Piece
  | .function isStatic r =>
      (if isStatic then [.keyword .kwStatic, space] else []) ++
        routine .kwFunction .kwEndFunction r
  | .classDef definition => classDefinition definition
  | .variable _ s n value => .keyword (storage s) :: space :: .text n.text :: initializer value
  | .ret _ value => .keyword .kwReturn :: result value
  | .expression _ value => expression false value

def initializer : Option Expr → List Piece
  | none => []
  | some e => space :: operator .assign :: space :: expression false e

def result : Option Expr → List Piece
  | none => []
  | some e => space :: expression false e

def routine (opener closer : Keyword) : Routine → List Piece
  | ⟨_, n, ps, body, _⟩ =>
      .keyword opener :: space :: .text n.text :: parameters ps ++ .newline :: block body ++
        [.keyword closer]

def methods : List Routine → List Piece
  | [] => []
  | r :: rs => routine .kwMethod .kwEndMethod r ++ .newline :: methods rs

def classDefinition : ClassDef → List Piece
  | ⟨_, n, parent, attributes, ms, _⟩ =>
      .keyword .kwClass :: space :: .text n.text ::
        (parent.elim [] fun p => [space, .keyword .kwFrom, space, .text p.text]) ++
        .newline :: .indent :: attributes.flatMap attributeLine ++ methods ms ++
        [.dedent, .keyword .kwEndClass]

end

/-- Statements at file level, behind another one or none. Declarations stand apart. -/
def topLevel : Option Stmt → List Stmt → List Piece
  | _, [] => []
  | previous, s :: ss =>
      let apart := previous.any fun p => p.isDeclaration || s.isDeclaration
      (if apart then [.gap] else []) ++ stmt s ++ .endLine :: topLevel (some s) ss

end Canonical

/-- The canonical text of a program. -/
def Program.render (style : Style) (p : Program) : String :=
  Layout.render style (Canonical.topLevel none p.statements)

/-- The canonical text of one expression. -/
def Expr.render (style : Style) (e : Expr) : String :=
  Layout.render style (Canonical.expression false e)

end Clipper
