import Clipper.Span
import Clipper.Vocabulary.Keyword
import Clipper.Vocabulary.Operator
import Clipper.Vocabulary.Punctuation

/-!
Tokens: the words, signs and literals of a source text, with their places.
-/

namespace Clipper

inductive TokenKind
  | keyword (k : Keyword)
  | operator (o : Operator)
  | punctuation (p : Punctuation)
  | identifier
  | integer
  | float
  | string
  | date
  /-- A character that no other token begins with. -/
  | illegal
  | endOfInput
  deriving DecidableEq, Repr

namespace TokenKind

def keyword? : TokenKind → Option Keyword
  | keyword k => some k
  | _ => none

/-- The name of the kind in a listing of tokens. -/
def name : TokenKind → String
  | keyword k => "keyword '" ++ k.canonical ++ "'"
  | operator o => "operator '" ++ o.canonical ++ "'"
  | punctuation p => "'" ++ p.canonical ++ "'"
  | identifier => "identifier"
  | integer => "integer"
  | float => "float"
  | string => "string"
  | date => "date"
  | illegal => "illegal character"
  | endOfInput => "end of input"

end TokenKind

/-- A token with the text it covers and the line and column, from one, of its first
character. Columns count characters. -/
structure Token where
  kind : TokenKind
  literal : String
  span : Span
  line : Nat
  column : Nat
  file : String
  deriving DecidableEq, Repr

namespace Token

def isKeyword (t : Token) (k : Keyword) : Bool := t.kind == .keyword k

def isOperator (t : Token) (o : Operator) : Bool := t.kind == .operator o

def isPunctuation (t : Token) (p : Punctuation) : Bool := t.kind == .punctuation p

def isIllegal (t : Token) : Bool := t.kind == .illegal

def isEnd (t : Token) : Bool := t.kind == .endOfInput

/-- The line of the last character: a string may cover several lines. -/
def endLine (t : Token) : Nat := t.line + t.literal.toList.count '\n'

/-- The column behind the last character, if the token stays on its line. -/
def endColumn (t : Token) : Nat := t.column + t.literal.length

/-- How a message names the token. -/
def describe (t : Token) : String :=
  if t.isEnd then "end of input" else "'" ++ t.literal ++ "'"

/-- A token that the text does not hold, placed before `t`. -/
def implied (kind : TokenKind) (literal : String) (t : Token) : Token :=
  { t with kind, literal, span := ⟨t.span.start, t.span.start⟩ }

end Token

end Clipper
