import Clipper.Vocabulary.Dialect

/-!
Delimiters, the separator and the marks of a member send.
-/

namespace Clipper

inductive Punctuation
  | comma | colon | colonColon
  | openParen | closeParen | openBracket | closeBracket | openBrace | closeBrace
  deriving DecidableEq, Repr

namespace Punctuation

def all : List Punctuation :=
  [comma, colon, colonColon, openParen, closeParen, openBracket, closeBracket,
   openBrace, closeBrace]

def canonical : Punctuation → String
  | comma => ","
  | colon => ":"
  | colonColon => "::"
  | openParen => "("
  | closeParen => ")"
  | openBracket => "["
  | closeBracket => "]"
  | openBrace => "\x7b"
  | closeBrace => "\x7d"

def aliases (_ : Punctuation) : List String := []

def origin : Punctuation → Dialect
  | colonColon => .harbour
  | _ => .clipper

def ofSpelling? (s : String) : Option Punctuation := all.find? fun p => p.canonical == s

theorem mem_all (p : Punctuation) : p ∈ all := by
  cases p <;> decide

end Punctuation

end Clipper
