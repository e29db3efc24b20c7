import Clipper.Tree

/-!
The nodes of a tree as one list, each behind its parts, and what makes a node
incomplete: a placeholder stands for something that could not be read, and an open
construct has no closing word.
-/

namespace Clipper

inductive Node
  | expression (e : Expr)
  | statement (s : Stmt)
  | name (n : Name)

namespace Nodes

mutual

def expression : Expr → List Node
  | .name n => [.name n, .expression (.name n)]
  | .integer t value => [.expression (.integer t value)]
  | .float t bits => [.expression (.float t bits)]
  | .string t delimiter body => [.expression (.string t delimiter body)]
  | .date t => [.expression (.date t)]
  | .boolean t value => [.expression (.boolean t value)]
  | .nil t => [.expression (.nil t)]
  | .array t elements => expressions elements ++ [.expression (.array t elements)]
  | .unary t op operand => expression operand ++ [.expression (.unary t op operand)]
  | .binary t op left right =>
      expression left ++ expression right ++ [.expression (.binary t op left right)]
  | .call t callee arguments =>
      expression callee ++ expressions arguments ++ [.expression (.call t callee arguments)]
  | .index t indexed position =>
      expression indexed ++ expression position ++ [.expression (.index t indexed position)]
  | .member t object member =>
      expression object ++ [.name member, .expression (.member t object member)]
  | .assign t target value =>
      expression target ++ expression value ++ [.expression (.assign t target value)]
  | .branch first others alternative closing =>
      guarded first ++ branches others ++ blockIfAny alternative ++
        [.expression (.branch first others alternative closing)]
  | .whileLoop g closing => guarded g ++ [.expression (.whileLoop g closing)]
  | .forLoop t counter start stop step body closing =>
      .name counter :: expression start ++ expression stop ++ ifAny step ++ block body ++
        [.expression (.forLoop t counter start stop step body closing)]
  | .missing t => [.expression (.missing t)]

def expressions : List Expr → List Node
  | [] => []
  | e :: es => expression e ++ expressions es

def ifAny : Option Expr → List Node
  | none => []
  | some e => expression e

def guarded : Guarded → List Node
  | ⟨_, condition, body⟩ => expression condition ++ block body

def branches : List Guarded → List Node
  | [] => []
  | g :: gs => guarded g ++ branches gs

def blockIfAny : Option Block → List Node
  | none => []
  | some b => block b

def block : Block → List Node
  | ⟨_, statements⟩ => stmts statements

def stmts : List Stmt → List Node
  | [] => []
  | s :: ss => stmt s ++ stmts ss

def stmt : Stmt → List Node
  | .function isStatic r => routine r ++ [.statement (.function isStatic r)]
  | .classDef d => classDefinition d ++ [.statement (.classDef d)]
  | .variable t storage n value => .name n :: ifAny value ++ [.statement (.variable t storage n value)]
  | .ret t value => ifAny value ++ [.statement (.ret t value)]
  | .expression t value => expression value ++ [.statement (.expression t value)]

def routine : Routine → List Node
  | ⟨_, n, parameters, body, _⟩ => .name n :: parameters.map .name ++ block body

def routines : List Routine → List Node
  | [] => []
  | r :: rs => routine r ++ routines rs

def classDefinition : ClassDef → List Node
  | ⟨_, n, parent, attributes, methods, _⟩ =>
      .name n :: parent.toList.map .name ++ attributes.map (fun a => .name a.name) ++
        routines methods

end

end Nodes

/-- Every node of a program. -/
def Program.nodes (p : Program) : List Node := Nodes.stmts p.statements

namespace Node

/-- Stands for an operand or a name that could not be read. -/
def isPlaceholder : Node → Bool
  | expression (.missing _) => true
  | name n => n.isMissing
  | _ => false

/-- For a conditional, a loop or a class without its closing word: that word and the token
that opened the construct. -/
def unclosed? : Node → Option (Keyword × Token)
  | expression (.branch first _ _ none) => some (.kwEndIf, first.token)
  | expression (.whileLoop g none) => some (.kwEndDo, g.token)
  | expression (.forLoop t _ _ _ _ _ none) => some (.kwNext, t)
  | statement (.classDef d) => if d.closing.isNone then some (.kwEndClass, d.token) else none
  | _ => none

/-- The tree around such a node is not complete. -/
def isIncomplete (n : Node) : Bool := n.isPlaceholder || n.unclosed?.isSome

end Node

end Clipper
