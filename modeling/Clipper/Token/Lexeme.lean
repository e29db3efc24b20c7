import Clipper.Text.Alphabetic
import Clipper.Text.Numeric
import Clipper.Token

/-!
The shapes of tokens: of a text that begins with a token, `Lexeme.read` says the kind
of that token and how many characters it takes. It always takes as many as it can.
-/

namespace Clipper

/-- The token at the front of a text: its kind and its number of characters. -/
structure Lexeme where
  kind : TokenKind
  size : Nat
  deriving DecidableEq, Repr

namespace Lexeme

/-- A word begins with a letter or an underscore. -/
def isWordStart (c : Char) : Bool := Text.isAlphabetic c || c == '_'

def isWordPart (c : Char) : Bool := Text.isAlphabetic c || Text.isNumeric c || c == '_'

def isDelimiter (c : Char) : Bool := c == '"' || c == '\x27'

/-- The number of characters up to the closing delimiter, which counts as well. A
backslash takes the next character with it; without a delimiter all characters
count. -/
def stringLength (delimiter : Char) : List Char → Nat
  | [] => 0
  | ['\\'] => 1
  | '\\' :: _ :: cs => stringLength delimiter cs + 2
  | c :: cs => if c = delimiter then 1 else stringLength delimiter cs + 1

def digitRun (cs : List Char) : Nat := (cs.takeWhile Char.isDigit).length

def beginsWithDigit (cs : List Char) : Bool := cs.head?.any Char.isDigit

/-- The length of a slash and the digits behind it, if at least one follows. -/
def slashGroup? : List Char → Option Nat
  | '/' :: cs => if beginsWithDigit cs then some (digitRun cs + 1) else none
  | _ => none

/-- What follows the first digits of a number: two groups make it a date, a point a
fraction. One group alone is a division, and a point before a letter belongs to a
dotted word. -/
def numberTail (cs : List Char) : Lexeme :=
  match slashGroup? cs with
  | some n =>
      match slashGroup? (cs.drop n) with
      | some m => ⟨.date, n + m⟩
      | none => ⟨.integer, 0⟩
  | none =>
      match cs with
      | '.' :: c :: ds =>
          if c.isDigit then ⟨.float, digitRun (c :: ds) + 1⟩
          else if Text.isAlphabetic c then ⟨.integer, 0⟩
          else ⟨.float, 1⟩
      | ['.'] => ⟨.float, 1⟩
      | _ => ⟨.integer, 0⟩

def number (cs : List Char) : Lexeme :=
  let n := digitRun cs
  let tail := numberTail (cs.drop n)
  ⟨tail.kind, n + tail.size⟩

/-- A logical value or an operator between dots. -/
def dottedWord? (s : String) : Option TokenKind :=
  match Keyword.ofWord? s with
  | some .kwTrue => some (.keyword .kwTrue)
  | some .kwFalse => some (.keyword .kwFalse)
  | _ => (Operator.ofWord? s).map .operator

/-- The letters behind a point, with both points, if another point closes them. -/
def dottedLetters? (cs : List Char) : Option (List Char) :=
  let letters := cs.takeWhile Char.isAlpha
  if letters != [] && (cs.drop letters.length).head? == some '.' then
    some ('.' :: letters ++ ['.'])
  else none

/-- A token that begins with a point, of the text behind it: a fraction, a dotted
word or, failing these, the point alone. -/
def dot (cs : List Char) : Lexeme :=
  if beginsWithDigit cs then ⟨.float, digitRun cs + 1⟩
  else
    match dottedLetters? cs with
    | none => ⟨.illegal, 1⟩
    | some letters =>
        match dottedWord? (String.ofList letters) with
        | some kind => ⟨kind, letters.length⟩
        | none => ⟨.illegal, 1⟩

def word (cs : List Char) : Lexeme :=
  let letters := cs.takeWhile isWordPart
  let kind :=
    match Keyword.ofWord? (String.ofList letters) with
    | some k => .keyword k
    | none => .identifier
  ⟨kind, letters.length⟩

/-- The spellings of operators and punctuation that are no dotted words, the longer
ones first. -/
def symbols : List (List Char × TokenKind) :=
  let operators := Operator.all.flatMap fun o =>
    o.spellings.map fun s => (s.toList, TokenKind.operator o)
  let punctuation := Punctuation.all.map fun p => (p.canonical.toList, TokenKind.punctuation p)
  let undotted := (operators ++ punctuation).filter fun s => s.1.head? != some '.'
  undotted.filter (·.1.length == 2) ++ undotted.filter (·.1.length == 1)

def symbol (cs : List Char) : Lexeme :=
  match symbols.find? fun s => s.1.isPrefixOf cs with
  | some (s, kind) => ⟨kind, s.length⟩
  | none => ⟨.illegal, 1⟩

/-- The token that begins with `c`. -/
def read (c : Char) (cs : List Char) : Lexeme :=
  if isDelimiter c then ⟨.string, stringLength c cs + 1⟩
  else if c.isDigit then number (c :: cs)
  else if c = '.' then dot cs
  else if isWordStart c then word (c :: cs)
  else symbol (c :: cs)

end Lexeme

end Clipper
