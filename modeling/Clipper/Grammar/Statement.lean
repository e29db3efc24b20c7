import Clipper.Grammar.Reader

/-!
Statements and declarations, over any reading of expressions. A statement ends with
its line. What cannot be read is reported and its line is left; the rest of the
construct around it is read as usual.
-/

namespace Clipper.Grammar

/-- Reads an expression whose operators all bind tighter than a number says. -/
abbrev Expressions := Context → Nat → Attempt Expr

/-- Looser than every operator. -/
def loosest : Nat := 0

/-- An expression, or a placeholder if it cannot be read. Outside delimiters the rest
of the line goes with it. -/
def expressionOrMissing (e : Expressions) (c : Context) (precedence : Nat) : Reading Expr := do
  let t ← current
  match ← (e c precedence).run with
  | .ok x => return x
  | .error _ =>
      unless c.delimited do skipLine c
      return .missing t

/-- Statements up to the end of the text or a word that closes an open block. -/
def block (statement : Context → Reading (List Stmt)) (c : Context) (closers : List Keyword) :
    Reading Block := do
  let inner := c.enter closers
  return ⟨← current, ← repeated (fun r => !r.atEnd && !r.atAny inner.closers) (statement inner)⟩

/-- The word that closes a block; its absence is reported. -/
def closing (k : Keyword) (opener : Token) : Reading (Option Token) := do
  match ← keyword? k with
  | some t => return some t
  | none =>
      report (.unclosed k.canonical opener (← current))
      return none

def endOfStatement (c : Context) : Attempt Unit := do
  let r ← get
  unless r.stops c do refuse (.lineGoesOn r.current)

def declarator (e : Expressions) (c : Context) : Attempt (Name × Option Expr) := do
  let n ← name "a variable name"
  match ← operator? .assign with
  | some _ => return (n, some (← expressionOrMissing e c loosest))
  | none => return (n, none)

def storageOf (t : Token) : Storage :=
  if t.isKeyword .kwPublic then .publicVar
  else if t.isKeyword .kwPrivate then .privateVar
  else .localVar

/-- One statement for each declared name; those before a fault are kept. -/
def variableList (e : Expressions) (c : Context) : Reading (List Stmt × Bool) := do
  let t ← advance
  let (declared, whole) ← listed (declarator e c)
  let statements := declared.map fun d => .variable t (storageOf t) d.1 d.2
  if whole then return (statements, ← succeeds (endOfStatement c))
  else return (statements, false)

/-- The value stands on the line of the word that returns it. -/
def returnedValue (e : Expressions) (c : Context) : Attempt (Option Expr) := do
  if (← get).stops c then return none else return some (← e c loosest)

def returned (e : Expressions) (c : Context) : Attempt Stmt := do
  let t ← advance
  let value ← returnedValue e c
  endOfStatement c
  return .ret t value

def expressionStatement (e : Expressions) (c : Context) : Attempt Stmt := do
  let t ← current
  let value ← e c loosest
  endOfStatement c
  return .expression t value

/-- Any statement except a declaration of a function or a class. -/
def plain (e : Expressions) (c : Context) : Reading (List Stmt × Bool) := do
  match (← current).kind with
  | .keyword .kwLocal | .keyword .kwPublic | .keyword .kwPrivate => variableList e c
  | .keyword .kwReturn => single (returned e c)
  | .keyword k =>
      if k.startsExpression then single (expressionStatement e c)
      else
        report (.notAStatement (← advance))
        return ([], true)
  | _ => single (expressionStatement e c)

/-- Reads one statement. An expression that proved too deep keeps silent about its
consequences until the statement outside all expressions is over. -/
def wholeStatement (c : Context) (body : Reading (List Stmt × Bool)) : Reading (List Stmt) := do
  let statements ← recovering c body
  if c.outermost then unmute
  return statements

def plainStatement (e : Expressions) (c : Context) : Reading (List Stmt) :=
  wholeStatement c (plain e c)

def functionClosers : List Keyword := [.kwEndFunction, .kwFunction, .kwStatic, .kwClass]

def classClosers : List Keyword := [.kwEndClass, .kwFunction, .kwStatic, .kwClass]

def methodClosers : List Keyword := [.kwEndMethod, .kwMethod, .kwData, .kwEndClass]

/-- The list may be left out. A malformed one is dropped with the rest of its line. -/
def parameters (c : Context) : Reading (List Name) := do
  let r ← get
  if r.current.isPunctuation .openParen && r.sameLine then
    discard advance
    match ← (listUpTo .closeParen (name "a parameter name")).run with
    | .ok names => return names
    | .error _ =>
        skipLine c
        return []
  else return []

/-- What follows the word that introduces a function or a method. The body may end
where the next declaration begins. -/
def routine (e : Expressions) (c : Context) (what : String) (token : Token)
    (closers : List Keyword) (close : Keyword) : Reading Routine := do
  let name ← nameOrMissing what
  let parameters ← parameters c
  let body ← block (plainStatement e) c.insideRoutine closers
  let closing ← keyword? close
  return { token, name, parameters, body, closing }

def function (e : Expressions) (c : Context) : Reading Stmt := do
  let t ← advance
  let isStatic := t.isKeyword .kwStatic
  if isStatic then discard advance
  return .function isStatic (← routine e c "a function name" t functionClosers .kwEndFunction)

/-- A member of a class. -/
inductive Member
  | data (a : Attribute)
  | method (m : Routine)

def Member.attribute? : Member → Option Attribute
  | data a => some a
  | method _ => none

def Member.method? : Member → Option Routine
  | method m => some m
  | data _ => none

def attributes (c : Context) : Reading (List Member × Bool) := do
  let t ← advance
  let (names, whole) ← listed (name "an attribute name")
  let members := names.map fun n => .data ⟨t, n⟩
  if whole then return (members, ← succeeds (endOfStatement c))
  else return (members, false)

def method (e : Expressions) (c : Context) : Reading (List Member × Bool) := do
  let t ← advance
  let m ← routine e c "a method name" t methodClosers .kwEndMethod
  return ([.method m], true)

def member (e : Expressions) (c : Context) : Reading (List Member × Bool) := do
  let t ← current
  match t.kind with
  | .keyword .kwData => attributes c
  | .keyword .kwMethod => method e c
  | _ =>
      report (.expected "'Data', 'Method' or 'EndClass'" t)
      return ([], false)

def members (e : Expressions) (c : Context) : Reading (List Member) :=
  repeated (fun r => r.atAny [.kwData, .kwMethod] || (!r.atEnd && !r.atAny c.closers))
    (recovering c (member e c))

/-- The class that a class is derived from. -/
def parentClass : Reading (Option Name) := do
  match ← keyword? .kwFrom with
  | some _ => return (← (name "a parent class name").run).toOption
  | none => return none

def classDefinition (e : Expressions) (c : Context) : Reading Stmt := do
  let token ← advance
  let className ← nameOrMissing "a class name"
  let parent ← parentClass
  let members ← members e (c.enter classClosers)
  let closing ← closing .kwEndClass token
  return .classDef
    { token, name := className, parent
      attributes := members.filterMap Member.attribute?
      methods := members.filterMap Member.method?
      closing }

/-- Any statement. Inside a function or a class the words that declare either close
the body, so that no declaration is left to read. -/
def general (e : Expressions) (c : Context) : Reading (List Stmt × Bool) := do
  if c.inRoutine then plain e c
  else
    let r ← get
    match r.current.kind with
    | .keyword .kwFunction => return ([← function e c], true)
    | .keyword .kwStatic =>
        if r.next.isKeyword .kwFunction then return ([← function e c], true) else plain e c
    | .keyword .kwClass => return ([← classDefinition e c], true)
    | _ => plain e c

/-- Reads one statement, or several from a list of variables. -/
def statement (e : Expressions) (c : Context) : Reading (List Stmt) :=
  wholeStatement c (general e c)

end Clipper.Grammar
