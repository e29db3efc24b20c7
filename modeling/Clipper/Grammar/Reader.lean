import Clipper.Fault
import Clipper.Token.Stream
import Clipper.Tree

/-!
The state of reading a tree from tokens: the current token with one token of
lookahead, the tokens behind them, and the faults found so far. Illegal characters
are reported when they come into sight and are never current.
-/

namespace Clipper

structure Reader where
  current : Token
  next : Token
  ahead : List Token
  last : Token
  /-- The line on which the token taken last ended. -/
  line : Nat
  /-- Set from the moment an expression proves too deep until its statement ends;
  consequences of giving up are not reported. -/
  muted : Bool
  faults : Array Fault

namespace Reader

/-- Brings one more token into sight. -/
def shift (r : Reader) : Reader :=
  let illegal := r.ahead.takeWhile Token.isIllegal
  let legal := r.ahead.dropWhile Token.isIllegal
  { r with
    current := r.next
    next := legal.headD r.last
    ahead := legal.tail
    faults := r.faults ++ illegal.map Fault.illegalCharacter }

def ofStream (s : TokenStream) : Reader :=
  (Reader.mk s.last s.last s.body s.last 1 false #[]).shift.shift

/-- Takes the current token. At the end of the text the end token stays current. -/
def advanced (r : Reader) : Reader := { r.shift with line := r.current.endLine }

def atEnd (r : Reader) : Bool := r.current.isEnd

/-- The current token begins on the line where the one before it ended. -/
def sameLine (r : Reader) : Bool := r.current.line == r.line

/-- The current token is one of these words. -/
def atAny (words : List Keyword) (r : Reader) : Bool := r.current.kind.keyword?.any words.contains

/-- No repetition has more rounds than this list has members: every round but the
last takes a token. -/
def rounds (r : Reader) : List Token := r.last :: r.current :: r.next :: r.ahead

end Reader

/-- A reading that always gives a result. -/
abbrev Reading := StateM Reader

/-- Tells that a reading was given up and that its fault has been dealt with. -/
inductive Refusal
  | reported
  deriving DecidableEq, Repr

/-- A reading that may be given up. What it took stays taken. -/
abbrev Attempt := ExceptT Refusal Reading

/-- Where in a text something is being read. -/
structure Context where
  /-- The words that close one of the blocks now open. -/
  closers : List Keyword
  /-- Inside parentheses, brackets or braces an expression may go on on the next line. -/
  delimited : Bool
  /-- Outside every expression. -/
  outermost : Bool
  /-- Inside a function or a class, where neither can be declared. -/
  inRoutine : Bool
  deriving DecidableEq, Repr

namespace Context

def file : Context := ⟨[], false, true, false⟩

def delimit (c : Context) : Context := { c with delimited := true }

/-- Inside a block that these words close. The words that close the blocks around it
close it as well, so that a block without its own end does not swallow theirs. -/
def enter (c : Context) (closers : List Keyword) : Context :=
  { c with closers := closers ++ c.closers, delimited := false }

def insideExpression (c : Context) : Context := { c with outermost := false }

def insideRoutine (c : Context) : Context := { c with inRoutine := true }

end Context

/-- A statement can end before the current token: that begins a line, closes a block or
ends the text. -/
def Reader.stops (c : Context) (r : Reader) : Bool := r.atEnd || !r.sameLine || r.atAny c.closers

namespace Grammar

def current : Reading Token := return (← get).current

def advance : Reading Token := modifyGet fun r => (r.current, r.advanced)

def report (f : Fault) : Reading Unit :=
  modify fun r => if r.muted then r else { r with faults := r.faults.push f }

def refuse {α : Type} (f : Fault) : Attempt α := do
  report f
  throw .reported

/-- Gives up an expression that would exceed the depth of trees. -/
def refuseDepth {α : Type} : Attempt α := do
  report (.tooDeep (← current))
  modify ({ · with muted := true })
  throw .reported

def unmute : Reading Unit := modify ({ · with muted := false })

/-- Takes the current token if it is of the right kind. -/
def take? (p : Token → Bool) : Reading (Option Token) := do
  if p (← current) then return some (← advance) else return none

def keyword? (k : Keyword) : Reading (Option Token) := take? (·.isKeyword k)

def punctuation? (p : Punctuation) : Reading (Option Token) := take? (·.isPunctuation p)

def operator? (o : Operator) : Reading (Option Token) := take? (·.isOperator o)

def expectKeyword (k : Keyword) : Attempt Unit := do
  if (← keyword? k).isNone then
    refuse (.expected ("'" ++ k.canonical ++ "'") (← current))

def expectPunctuation (p : Punctuation) : Attempt Unit := do
  if (← punctuation? p).isNone then
    refuse (.expected ("'" ++ p.canonical ++ "'") (← current))

def name (what : String) : Attempt Name := do
  let t ← current
  if t.kind = .identifier then return ⟨← advance⟩
  else refuse (.expected what t)

/-- A name, or a placeholder so that the node around it survives. -/
def nameOrMissing (what : String) : Reading Name := do
  match ← (name what).run with
  | .ok n => return n
  | .error _ => return .missing (← current)

/-- Whether an attempt is carried through. -/
def succeeds (a : Attempt Unit) : Reading Bool := return (← a.run).isOk

/-- Takes tokens as long as `more` holds. -/
def skipWhile (more : Reader → Bool) : List Token → Reader → Reader
  | [], r => r
  | _ :: rounds, r => if more r then skipWhile more rounds r.advanced else r

/-- Skips to where the next statement can begin. -/
def skipLine (c : Context) : Reading Unit :=
  modify fun r => skipWhile (fun r => !r.stops c) r.rounds r

/-- Goes on behind something that began at an offset and was given up. At least one
token has been taken afterwards. -/
def recover (c : Context) (start : Nat) : Reading Unit := do
  let t ← current
  if t.span.start == start && !t.isEnd then discard advance
  skipLine c

/-- Repeats a reading as long as `more` holds. Every round has to take a token. -/
def repeated {α : Type} (more : Reader → Bool) (body : Reading (List α)) : Reading (List α) := do
  go (← get).rounds
where
  go : List Token → Reading (List α)
    | [] => return []
    | _ :: rounds => do
        if more (← get) then
          let xs ← body
          return xs ++ (← go rounds)
        else return []

/-- Reads items with commas between them, and tells whether the last one was carried
through. -/
def listed {α : Type} (item : Attempt α) : Reading (List α × Bool) := do
  go (← get).rounds
where
  go : List Token → Reading (List α × Bool)
    | [] => return ([], true)
    | _ :: rounds => do
        match ← item.run with
        | .error _ => return ([], false)
        | .ok x =>
            if (← punctuation? .comma).isSome then
              let (xs, whole) ← go rounds
              return (x :: xs, whole)
            else return ([x], true)

/-- The items between two delimiters, if any. -/
def itemsBefore {α : Type} (close : Punctuation) (item : Attempt α) : Attempt (List α) := do
  if (← current).isPunctuation close then return []
  else
    let (items, whole) ← listed item
    if whole then return items else throw .reported

/-- Reads a list up to its closing delimiter; the opening one has been taken. -/
def listUpTo {α : Type} (close : Punctuation) (item : Attempt α) : Attempt (List α) := do
  let items ← itemsBefore close item
  expectPunctuation close
  return items

/-- Reads one thing, or several, and goes on behind it if it is given up. -/
def recovering {α : Type} (c : Context) (body : Reading (List α × Bool)) : Reading (List α) := do
  let start := (← current).span.start
  let (xs, whole) ← body
  unless whole do recover c start
  return xs

/-- An attempt at one thing. -/
def single {α : Type} (a : Attempt α) : Reading (List α × Bool) := do
  match ← a.run with
  | .ok x => return ([x], true)
  | .error _ => return ([], false)

end Grammar

end Clipper
