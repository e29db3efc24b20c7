import Clipper.Text.Casing
import Clipper.Vocabulary.Keyword

/-!
Laying out text: pieces that say what is written, and a style that says how. The
pieces leave open the case of words, the width of an indentation and the blank lines
around declarations.
-/

namespace Clipper

/-- How reserved words are cased. In Pascal case a word is spelled canonically, and a
word without such a spelling is in capitals. -/
inductive KeywordCase
  | upper | lower | pascal
  deriving DecidableEq, Repr

namespace KeywordCase

/-- Cases a word by its canonical spelling. -/
def apply : KeywordCase → String → String
  | upper, s => Text.upper s
  | lower, s => Text.lower s
  | pascal, s => s

/-- Cases a word that has no form in Pascal case: the dotted words and the empty value. -/
def applyWord : KeywordCase → String → String
  | lower, s => Text.lower s
  | _, s => Text.upper s

end KeywordCase

structure Style where
  /-- Spaces for each level of indentation. -/
  indent : Nat := 4
  keywordCase : KeywordCase := .pascal
  /-- Empty lines on both sides of a function or a class at file level. -/
  blankLines : Nat := 1
  deriving DecidableEq, Repr

inductive Piece
  | text (s : String)
  | keyword (k : Keyword)
  | word (s : String)
  | newline
  /-- A line end, unless nothing stands on the line. -/
  | endLine
  | gap
  | indent
  | dedent
  deriving DecidableEq, Repr

namespace Layout

/-- What has been written, the level of indentation, and whether the line is empty. -/
structure Sheet where
  written : String
  level : Nat
  lineEmpty : Bool
  deriving DecidableEq, Repr

def Sheet.blank : Sheet := ⟨"", 0, true⟩

def spaces (n : Nat) : String := String.ofList (List.replicate n ' ')

/-- Indents the line if it is empty. Writing nothing leaves it empty. -/
def Sheet.write (sheet : Sheet) (width : Nat) (s : String) : Sheet :=
  if s.isEmpty then sheet
  else if sheet.lineEmpty then
    { sheet with written := sheet.written ++ spaces (sheet.level * width) ++ s, lineEmpty := false }
  else { sheet with written := sheet.written ++ s }

def Sheet.newlines (sheet : Sheet) (n : Nat) : Sheet :=
  { sheet with
    written := sheet.written ++ String.ofList (List.replicate n '\n')
    lineEmpty := sheet.lineEmpty || n != 0 }

/-- The logical values are written as dotted words. -/
def keywordText (case : KeywordCase) : Keyword → String
  | .kwTrue => case.applyWord ".T."
  | .kwFalse => case.applyWord ".F."
  | .kwNil => case.applyWord Keyword.kwNil.canonical
  | k => case.apply k.canonical

def put (style : Style) (sheet : Sheet) : Piece → Sheet
  | .text s => sheet.write style.indent s
  | .keyword k => sheet.write style.indent (keywordText style.keywordCase k)
  | .word s => sheet.write style.indent (style.keywordCase.applyWord s)
  | .newline => sheet.newlines 1
  | .endLine => if sheet.lineEmpty then sheet else sheet.newlines 1
  | .gap => sheet.newlines style.blankLines
  | .indent => { sheet with level := sheet.level + 1 }
  | .dedent => { sheet with level := sheet.level - 1 }

/-- The text of a sequence of pieces. -/
def render (style : Style) (pieces : List Piece) : String :=
  (pieces.foldl (put style) .blank).written

end Layout

end Clipper
