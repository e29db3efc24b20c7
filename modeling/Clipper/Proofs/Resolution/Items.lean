import Clipper.Analysis

/-!
The names of a program by the places they stand in, without scopes or keys: what a routine
declares and uses, what a class has as members, what the file declares.
-/

namespace Clipper

/-- What stands in a stretch of a program. Of the functions and classes declared there only
the declaration counts, not what stands in them. -/
inductive Item
  | use (n : Name)
  | var (n : Name)
  | function (isStatic : Bool) (r : Routine)
  | classDef (d : ClassDef)

namespace Items

mutual

def expression : Expr → List Item
  | .name n => [.use n]
  | .integer _ _ | .float _ _ | .string _ _ _ | .date _ | .boolean _ _ | .nil _
  | .missing _ => []
  | .array _ elements => expressions elements
  | .unary _ _ operand => expression operand
  | .binary _ _ left right => expression left ++ expression right
  | .call _ callee arguments => expression callee ++ expressions arguments
  | .index _ indexed position => expression indexed ++ expression position
  | .member _ object _ => expression object
  | .assign _ target value => expression target ++ expression value
  | .branch first others alternative _ =>
      guarded first ++ branches others ++ blockIfAny alternative
  | .whileLoop g _ => guarded g
  | .forLoop _ counter start stop step body _ =>
      .use counter :: expression start ++ expression stop ++ ifAny step ++ block body

def expressions : List Expr → List Item
  | [] => []
  | e :: es => expression e ++ expressions es

def ifAny : Option Expr → List Item
  | none => []
  | some e => expression e

def guarded : Guarded → List Item
  | ⟨_, condition, body⟩ => expression condition ++ block body

def branches : List Guarded → List Item
  | [] => []
  | g :: gs => guarded g ++ branches gs

def block : Block → List Item
  | ⟨_, statements⟩ => stmts statements

def blockIfAny : Option Block → List Item
  | none => []
  | some b => block b

def stmts : List Stmt → List Item
  | [] => []
  | s :: ss => stmt s ++ stmts ss

def stmt : Stmt → List Item
  | .function isStatic r => [.function isStatic r]
  | .classDef d => [.classDef d]
  | .variable _ _ n value => .var n :: ifAny value
  | .ret _ value => ifAny value
  | .expression _ value => expression value

end

end Items

namespace Item

def use? : Item → Option Name
  | use n => some n
  | _ => none

def var? : Item → Option Name
  | var n => some n
  | _ => none

def class? : Item → Option ClassDef
  | classDef d => some d
  | _ => none

/-- The name of a function or a class. -/
def routine? : Item → Option Name
  | function _ r => some r.name
  | classDef d => some d.name
  | _ => none

/-- Declares neither a function nor a class. -/
def isLocal (i : Item) : Bool := i.routine?.isNone

end Item

/-- The names that a routine uses, as identifiers or as counters of loops. -/
def Routine.used (r : Routine) : List Name := (Items.block r.body).filterMap Item.use?

/-- The parameters and all variables of a routine, in whatever block they are declared. -/
def Routine.locals (r : Routine) : List Name :=
  r.parameters ++ (Items.block r.body).filterMap Item.var?

def ClassDef.members (d : ClassDef) : List Name :=
  d.attributes.map Attribute.name ++ d.methods.map Routine.name

namespace Program

/-- What stands in a file outside all functions and classes, blocks included. -/
def items (p : Program) : List Item := Items.stmts p.statements

/-- The names of the functions and classes of a file. -/
def routineNames (p : Program) : List Name := p.items.filterMap Item.routine?

/-- The names that are declared in a file outside all functions and classes. -/
def globals (p : Program) : List Name :=
  p.items.filterMap fun i => i.var?.or i.routine?

/-- The functions and classes of a file have names of their own, and so have the methods of
a class. -/
def Distinct (p : Program) : Prop :=
  ((∀ n ∈ p.routineNames, n.isMissing = false) ∧ (p.routineNames.map Name.text).Nodup) ∧
    ∀ d ∈ p.items.filterMap Item.class?,
      (∀ m ∈ d.methods, m.name.isMissing = false) ∧ (d.methods.map (·.name.text)).Nodup

instance (p : Program) : Decidable p.Distinct := inferInstanceAs (Decidable (_ ∧ _))

end Program

/-- Where a name is used. -/
inductive Home
  | file
  | function (r : Routine)
  | method (d : ClassDef) (m : Routine)

namespace Home

def isMethod : Home → Bool
  | method _ _ => true
  | _ => false

/-- The names that are declared for the uses in a place. -/
def inReach (p : Program) : Home → List Name
  | file => p.globals
  | function r => r.locals ++ p.globals
  | method d m => m.locals ++ d.members ++ p.globals

end Home

/-- A name that is used, and where. -/
structure Use where
  home : Home
  name : Name

namespace Use

/-- A declaration in reach has the name, or it comes from the runtime library or from
outside. -/
def isKnown (x : Externals) (p : Program) (u : Use) : Bool :=
  (u.home.inReach p).any (·.text == u.name.text) || (Builtin.ofWord? u.name.text).isSome ||
    x.contains u.name.text

/-- Placeholders, and the receiver inside a method, need no declaration. -/
def isExempt (u : Use) : Bool := u.name.isMissing || (u.name.isSelf && u.home.isMethod)

def fault (u : Use) : Fault := .undeclared u.name.text u.name.token

end Use

/-- The uses in an item of a file. -/
def Item.uses : Item → List Use
  | use n => [⟨.file, n⟩]
  | var _ => []
  | function _ r => r.used.map (⟨.function r, ·⟩)
  | classDef d => d.methods.flatMap fun m => m.used.map (⟨.method d m, ·⟩)

/-- All uses of names in a file, in the order of the text. -/
def Program.uses (p : Program) : List Use := p.items.flatMap Item.uses

end Clipper
