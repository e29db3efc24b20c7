import Clipper.Fault
import Clipper.Names
import Clipper.Vocabulary.Builtin

/-!
Checking names: no name is declared twice in a scope, and every name that is referred
to has been declared, anywhere in its scope or around it, or comes from outside.
Placeholders are passed over.
-/

namespace Clipper

/-- Names defined outside the text. Their case does not matter. -/
structure Externals where
  names : List String
  deriving DecidableEq, Repr

namespace Externals

def none : Externals := ⟨[]⟩

def contains (x : Externals) (n : String) : Bool := x.names.any (Text.sameWord · n)

end Externals

/-- The names of a program with what is wrong about them. -/
structure Analysis where
  symbols : SymbolTable
  faults : List Fault

namespace Analysis

/-- Enters a declaration into the table, or reports that its key is taken. -/
def declare (a : Analysis) (d : Declaration) : Analysis :=
  if d.name.isMissing then a
  else
    match a.symbols.define d.key d.symbol with
    | (symbols, none) => { a with symbols }
    | (_, some first) =>
        { a with faults := a.faults ++ [.redeclared d.name.text d.name.token first.token] }

def collect (ds : List Declaration) : Analysis := ds.foldl declare ⟨.empty, []⟩

/-- A name is known by a declaration in reach, by the runtime library or from outside. -/
def isKnown (symbols : SymbolTable) (x : Externals) (r : Reference) : Bool :=
  (r.scope.candidates r.name.text).any symbols.contains ||
    (Builtin.ofWord? r.name.text).isSome || x.contains r.name.text

/-- Inside a method the receiver needs no declaration. -/
def isExempt (r : Reference) : Bool := r.name.isMissing || (r.name.isSelf && r.scope.isMethod)

def undeclared? (symbols : SymbolTable) (x : Externals) (r : Reference) : Option Fault :=
  if isExempt r || isKnown symbols x r then none
  else some (.undeclared r.name.text r.name.token)

def ofProgram (x : Externals) (p : Program) : Analysis :=
  let collected := collect p.declarations
  { collected with
    faults := collected.faults ++ p.references.filterMap (undeclared? collected.symbols x) }

def diagnostics (a : Analysis) : List Diagnostic := a.faults.map Fault.diagnostic

end Analysis

end Clipper
