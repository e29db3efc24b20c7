import Clipper.Token

/-!
Syntax trees. Every node keeps the token that introduced it. A tree of a faulty text
is partial: a name or an operand that could not be read leaves a placeholder, and a
construct without its closing word has no closing token.
-/

namespace Clipper

/-- A written name, or a placeholder whose token has no text. -/
structure Name where
  token : Token
  deriving DecidableEq, Repr

namespace Name

def text (n : Name) : String := n.token.literal

def isMissing (n : Name) : Bool := n.text.isEmpty

/-- Stands for a name that could not be read before `t`. -/
def missing (t : Token) : Name := ⟨.implied .identifier "" t⟩

/-- The receiver of a method. -/
def isSelf (n : Name) : Bool := Keyword.ofWord? n.text == some .kwSelf

end Name

inductive UnaryOp
  | negate | not
  deriving DecidableEq, Repr

def UnaryOp.operator : UnaryOp → Operator
  | negate => .minus
  | not => .not

/-- Operators between two operands. Spellings of one operator are not told apart. -/
inductive BinaryOp
  | add | sub | mul | div | mod
  | exactEq | eq | notEq | lt | ltEq | gt | gtEq | contains
  | and | or
  deriving DecidableEq, Repr

namespace BinaryOp

def operator : BinaryOp → Operator
  | add => .plus
  | sub => .minus
  | mul => .star
  | div => .slash
  | mod => .percent
  | exactEq => .equalEqual
  | eq => .equal
  | notEq => .notEqual
  | lt => .less
  | ltEq => .lessEqual
  | gt => .greater
  | gtEq => .greaterEqual
  | contains => .contained
  | and => .and
  | or => .or

/-- Assignment and negation are no operators between two operands. -/
def ofOperator? : Operator → Option BinaryOp
  | .plus => some add
  | .minus => some sub
  | .star => some mul
  | .slash => some div
  | .percent => some mod
  | .equalEqual => some exactEq
  | .equal => some eq
  | .notEqual => some notEq
  | .less => some lt
  | .lessEqual => some ltEq
  | .greater => some gt
  | .greaterEqual => some gtEq
  | .contained => some contains
  | .and => some and
  | .or => some or
  | .assign | .not => none

theorem ofOperator?_eq_some_iff {o : Operator} {b : BinaryOp} :
    ofOperator? o = some b ↔ b.operator = o := by
  cases o <;> cases b <;> decide

end BinaryOp

/-- Where a variable lives. -/
inductive Storage
  | localVar | publicVar | privateVar
  deriving DecidableEq, Repr

/-- An attribute of a class. -/
structure Attribute where
  token : Token
  name : Name
  deriving DecidableEq, Repr

mutual

inductive Expr where
  | name (name : Name)
  | integer (token : Token) (value : Nat)
  | float (token : Token) (bits : UInt64)
  /-- The body is the text between the delimiters, escapes as written. -/
  | string (token : Token) (delimiter : Char) (body : String)
  | date (token : Token)
  | boolean (token : Token) (value : Bool)
  | nil (token : Token)
  | array (token : Token) (elements : List Expr)
  | unary (token : Token) (op : UnaryOp) (operand : Expr)
  | binary (token : Token) (op : BinaryOp) (left right : Expr)
  | call (token : Token) (callee : Expr) (arguments : List Expr)
  | index (token : Token) (indexed position : Expr)
  | member (token : Token) (object : Expr) (member : Name)
  | assign (token : Token) (target value : Expr)
  | branch (first : Guarded) (others : List Guarded) (alternative : Option Block)
      (closing : Option Token)
  | whileLoop (guarded : Guarded) (closing : Option Token)
  | forLoop (token : Token) (counter : Name) (start stop : Expr) (step : Option Expr)
      (body : Block) (closing : Option Token)
  /-- Stands for an operand that could not be read; the token is where reading stopped. -/
  | missing (token : Token)

/-- Statements under a condition. -/
structure Guarded where
  token : Token
  condition : Expr
  body : Block

/-- Statements with the first token behind the block's opening. -/
structure Block where
  token : Token
  statements : List Stmt

inductive Stmt where
  | function (isStatic : Bool) (routine : Routine)
  | classDef (definition : ClassDef)
  | variable (token : Token) (storage : Storage) (name : Name) (value : Option Expr)
  | ret (token : Token) (value : Option Expr)
  | expression (token : Token) (value : Expr)

/-- A function or a method. It may end without a closing word. -/
structure Routine where
  token : Token
  name : Name
  parameters : List Name
  body : Block
  closing : Option Token

structure ClassDef where
  token : Token
  name : Name
  parent : Option Name
  attributes : List Attribute
  methods : List Routine
  closing : Option Token

end

structure Program where
  statements : List Stmt

namespace Expr

/-- The token that introduced an expression. -/
def token : Expr → Token
  | name n => n.token
  | integer t _ | float t _ | string t _ _ | date t | boolean t _ | nil t | array t _
  | unary t _ _ | binary t _ _ _ | call t _ _ | index t _ _ | member t _ _ | assign t _ _
  | forLoop t _ _ _ _ _ _ | missing t => t
  | branch g _ _ _ | whileLoop g _ => g.token

/-- What may stand left of an assignment. -/
def isAssignable : Expr → Bool
  | name _ | index _ _ _ | member _ _ _ => true
  | _ => false

end Expr

namespace Stmt

/-- Functions and classes, which stand apart in a file. -/
def isDeclaration : Stmt → Bool
  | function _ _ | classDef _ => true
  | _ => false

end Stmt

namespace Program

/-- The functions at file level. -/
def functions (p : Program) : List Routine :=
  p.statements.filterMap fun
    | .function _ r => some r
    | _ => none

/-- The classes at file level. -/
def classes (p : Program) : List ClassDef :=
  p.statements.filterMap fun
    | .classDef c => some c
    | _ => none

end Program

end Clipper
