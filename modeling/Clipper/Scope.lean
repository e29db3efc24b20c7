/-!
Scopes: the file, its functions, its classes and their methods. A name is recorded
under a key that spells out its scope.
-/

namespace Clipper

inductive Scope
  | file
  | function (name : String)
  | classBody (name : String)
  | method (className name : String)
  deriving DecidableEq, Repr

namespace Scope

def enterFunction (_ : Scope) (name : String) : Scope := function name

def enterClass (_ : Scope) (name : String) : Scope := classBody name

/-- A method outside every class is a function. -/
def enterMethod : Scope → String → Scope
  | classBody c, name | method c _, name => method c name
  | file, name | function _, name => function name

def isFile (s : Scope) : Bool := s == file

/-- Where the receiver is bound. -/
def isMethod : Scope → Bool
  | method _ _ => true
  | _ => false

/-- The names of a scope with a point between them; empty at file level. -/
def name : Scope → String
  | file => ""
  | function f => f
  | classBody c => c
  | method c m => c ++ "." ++ m

/-- The key of a name declared in a scope. -/
def key (s : Scope) (n : String) : String := if s.isFile then n else s.name ++ "." ++ n

/-- The keys a name may have been declared under, seen from a scope: its own first,
then that of the class, then that of the file. -/
def candidates (s : Scope) (n : String) : List String :=
  match s with
  | file => [n]
  | method c _ => [s.key n, (classBody c).key n, n]
  | _ => [s.key n, n]

end Scope

end Clipper
