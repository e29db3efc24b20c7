import Clipper.Scope
import Clipper.Token

/-!
Declared names and the table that holds them.
-/

namespace Clipper

inductive SymbolKind
  | function | classDef | method | variable | parameter | dataMember
  deriving DecidableEq, Repr

def SymbolKind.name : SymbolKind → String
  | .function => "function"
  | .classDef => "class"
  | .method => "method"
  | .variable => "variable"
  | .parameter => "parameter"
  | .dataMember => "attribute"

structure Symbol where
  name : String
  kind : SymbolKind
  /-- The name of the declaring scope. -/
  scope : String
  isStatic : Bool
  token : Token
  /-- The class that a class is derived from. -/
  parent : Option String
  deriving DecidableEq, Repr

/-- Symbols by key, in the order of their declaration. -/
structure SymbolTable where
  entries : List (String × Symbol)
  deriving DecidableEq, Repr

namespace SymbolTable

def empty : SymbolTable := ⟨[]⟩

def lookup (t : SymbolTable) (key : String) : Option Symbol := t.entries.lookup key

def contains (t : SymbolTable) (key : String) : Bool := (t.lookup key).isSome

def size (t : SymbolTable) : Nat := t.entries.length

def isEmpty (t : SymbolTable) : Bool := t.entries.isEmpty

/-- The first declaration of a key stays. Another one leaves the table as it is and
gives the first. -/
def define (t : SymbolTable) (key : String) (s : Symbol) : SymbolTable × Option Symbol :=
  match t.lookup key with
  | some first => (t, some first)
  | none => (⟨t.entries ++ [(key, s)]⟩, none)

end SymbolTable

end Clipper
