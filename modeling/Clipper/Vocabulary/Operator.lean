import Clipper.Text.Casing
import Clipper.Vocabulary.Dialect

/-!
Operators: their spellings, how tightly they bind and on which side they group.
The first spelling of an operator is the canonical one.
-/

namespace Clipper

inductive Operator
  | assign
  | plus | minus | star | slash | percent
  | equalEqual | equal | notEqual
  | less | lessEqual | greater | greaterEqual | contained
  | not | and | or
  deriving DecidableEq, Repr

namespace Operator

inductive Associativity
  | left | right
  deriving DecidableEq, Repr

inductive Arity
  | unary | binary
  deriving DecidableEq, Repr

def all : List Operator :=
  [assign, plus, minus, star, slash, percent, equalEqual, equal, notEqual,
   less, lessEqual, greater, greaterEqual, contained, not, and, or]

def spellings : Operator → List String
  | assign => [":="]
  | plus => ["+"]
  | minus => ["-"]
  | star => ["*"]
  | slash => ["/"]
  | percent => ["%"]
  | equalEqual => ["=="]
  | equal => ["="]
  | notEqual => ["!=", "<>", "#"]
  | less => ["<"]
  | lessEqual => ["<="]
  | greater => [">"]
  | greaterEqual => [">="]
  | contained => ["$"]
  | not => ["!", ".NOT."]
  | and => [".AND."]
  | or => [".OR."]

def canonical (o : Operator) : String := o.spellings.headD ""

/-- A higher number binds tighter. -/
def precedence : Operator → Nat
  | assign => 10
  | or => 20
  | and => 30
  | equalEqual | equal | notEqual => 40
  | less | lessEqual | greater | greaterEqual | contained => 50
  | plus | minus => 60
  | star | slash | percent => 70
  | not => 80

def associativity : Operator → Associativity
  | assign | not => .right
  | _ => .left

/-- A minus is recorded as binary; it also stands before an operand. -/
def arity : Operator → Arity
  | not => .unary
  | _ => .binary

/-- The canonical spelling is a word between dots. -/
def isDotted : Operator → Bool
  | and | or => true
  | _ => false

def origin (_ : Operator) : Dialect := .clipper

/-- The operator with exactly this spelling. -/
def ofSpelling? (s : String) : Option Operator := all.find? fun o => o.spellings.contains s

/-- The operator with this spelling in any case of its letters. -/
def ofWord? (s : String) : Option Operator := all.find? fun o => o.spellings.any (Text.sameWord · s)

theorem mem_all (o : Operator) : o ∈ all := by
  cases o <;> decide

end Operator

end Clipper
