import Clipper.Symbol
import Clipper.Tree

/-!
The names of a program: those it declares and those it refers to, each with the scope
it stands in, in the order of the text. Of a class the attributes and the methods are
declared before anything inside a method, and a variable before what its first value
declares.
-/

namespace Clipper

structure Declaration where
  scope : Scope
  name : Name
  kind : SymbolKind
  isStatic : Bool
  parent : Option String
  deriving DecidableEq, Repr

namespace Declaration

def key (d : Declaration) : String := d.scope.key d.name.text

def symbol (d : Declaration) : Symbol where
  name := d.name.text
  kind := d.kind
  scope := d.scope.name
  isStatic := d.isStatic
  token := d.name.token
  parent := d.parent

def ofName (s : Scope) (kind : SymbolKind) (n : Name) : Declaration :=
  ⟨s, n, kind, false, none⟩

end Declaration

namespace Names

mutual

def declared (s : Scope) : Expr → List Declaration
  | .name _ | .integer _ _ | .float _ _ | .string _ _ _ | .date _ | .boolean _ _ | .nil _
  | .missing _ => []
  | .array _ elements => declaredEach s elements
  | .unary _ _ operand => declared s operand
  | .binary _ _ left right => declared s left ++ declared s right
  | .call _ callee arguments => declared s callee ++ declaredEach s arguments
  | .index _ indexed position => declared s indexed ++ declared s position
  | .member _ object _ => declared s object
  | .assign _ target value => declared s target ++ declared s value
  | .branch first others alternative _ =>
      declaredGuarded s first ++ declaredGuardeds s others ++ declaredOptBlock s alternative
  | .whileLoop g _ => declaredGuarded s g
  | .forLoop _ _ start stop step body _ =>
      declared s start ++ declared s stop ++ declaredOpt s step ++ declaredBlock s body

def declaredEach (s : Scope) : List Expr → List Declaration
  | [] => []
  | e :: es => declared s e ++ declaredEach s es

def declaredOpt (s : Scope) : Option Expr → List Declaration
  | none => []
  | some e => declared s e

def declaredGuarded (s : Scope) : Guarded → List Declaration
  | ⟨_, condition, body⟩ => declared s condition ++ declaredBlock s body

def declaredGuardeds (s : Scope) : List Guarded → List Declaration
  | [] => []
  | g :: gs => declaredGuarded s g ++ declaredGuardeds s gs

def declaredBlock (s : Scope) : Block → List Declaration
  | ⟨_, statements⟩ => declaredStmts s statements

def declaredOptBlock (s : Scope) : Option Block → List Declaration
  | none => []
  | some b => declaredBlock s b

def declaredStmts (s : Scope) : List Stmt → List Declaration
  | [] => []
  | t :: ts => declaredStmt s t ++ declaredStmts s ts

def declaredStmt (s : Scope) : Stmt → List Declaration
  | .function isStatic r => ⟨s, r.name, .function, isStatic, none⟩ :: declaredFunction s r
  | .classDef definition => declaredClass s definition
  | .variable _ _ n value => .ofName s .variable n :: declaredOpt s value
  | .ret _ value => declaredOpt s value
  | .expression _ value => declared s value

def declaredFunction (s : Scope) : Routine → List Declaration
  | ⟨_, n, parameters, body, _⟩ =>
      parameters.map (.ofName (s.enterFunction n.text) .parameter) ++
        declaredBlock (s.enterFunction n.text) body

def declaredClass (s : Scope) : ClassDef → List Declaration
  | ⟨_, n, parent, attributes, methods, _⟩ =>
      ⟨s, n, .classDef, false, parent.map Name.text⟩ ::
        attributes.map (fun a => .ofName (s.enterClass n.text) .dataMember a.name) ++
        methods.map (fun m => .ofName (s.enterClass n.text) .method m.name) ++
        declaredMethods (s.enterClass n.text) methods

def declaredMethods (s : Scope) : List Routine → List Declaration
  | [] => []
  | m :: ms => declaredMethod s m ++ declaredMethods s ms

def declaredMethod (s : Scope) : Routine → List Declaration
  | ⟨_, n, parameters, body, _⟩ =>
      parameters.map (.ofName (s.enterMethod n.text) .parameter) ++
        declaredBlock (s.enterMethod n.text) body

end

end Names

/-- A name that a program refers to, with the scope it stands in. -/
structure Reference where
  scope : Scope
  name : Name
  deriving DecidableEq, Repr

namespace Names

mutual

def referred (s : Scope) : Expr → List Reference
  | .name n => [⟨s, n⟩]
  | .integer _ _ | .float _ _ | .string _ _ _ | .date _ | .boolean _ _ | .nil _
  | .missing _ => []
  | .array _ elements => referredEach s elements
  | .unary _ _ operand => referred s operand
  | .binary _ _ left right => referred s left ++ referred s right
  | .call _ callee arguments => referred s callee ++ referredEach s arguments
  | .index _ indexed position => referred s indexed ++ referred s position
  | .member _ object _ => referred s object
  | .assign _ target value => referred s target ++ referred s value
  | .branch first others alternative _ =>
      referredGuarded s first ++ referredGuardeds s others ++ referredOptBlock s alternative
  | .whileLoop g _ => referredGuarded s g
  | .forLoop _ counter start stop step body _ =>
      ⟨s, counter⟩ :: referred s start ++ referred s stop ++ referredOpt s step ++
        referredBlock s body

def referredEach (s : Scope) : List Expr → List Reference
  | [] => []
  | e :: es => referred s e ++ referredEach s es

def referredOpt (s : Scope) : Option Expr → List Reference
  | none => []
  | some e => referred s e

def referredGuarded (s : Scope) : Guarded → List Reference
  | ⟨_, condition, body⟩ => referred s condition ++ referredBlock s body

def referredGuardeds (s : Scope) : List Guarded → List Reference
  | [] => []
  | g :: gs => referredGuarded s g ++ referredGuardeds s gs

def referredBlock (s : Scope) : Block → List Reference
  | ⟨_, statements⟩ => referredStmts s statements

def referredOptBlock (s : Scope) : Option Block → List Reference
  | none => []
  | some b => referredBlock s b

def referredStmts (s : Scope) : List Stmt → List Reference
  | [] => []
  | t :: ts => referredStmt s t ++ referredStmts s ts

def referredStmt (s : Scope) : Stmt → List Reference
  | .function _ r => referredFunction s r
  | .classDef definition => referredClass s definition
  | .variable _ _ _ value | .ret _ value => referredOpt s value
  | .expression _ value => referred s value

def referredFunction (s : Scope) : Routine → List Reference
  | ⟨_, n, _, body, _⟩ => referredBlock (s.enterFunction n.text) body

def referredClass (s : Scope) : ClassDef → List Reference
  | ⟨_, n, _, _, methods, _⟩ => referredMethods (s.enterClass n.text) methods

def referredMethods (s : Scope) : List Routine → List Reference
  | [] => []
  | m :: ms => referredMethod s m ++ referredMethods s ms

def referredMethod (s : Scope) : Routine → List Reference
  | ⟨_, n, _, body, _⟩ => referredBlock (s.enterMethod n.text) body

end

end Names

def Program.declarations (p : Program) : List Declaration := Names.declaredStmts .file p.statements

def Program.references (p : Program) : List Reference := Names.referredStmts .file p.statements

end Clipper
