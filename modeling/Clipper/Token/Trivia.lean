import Clipper.Text.Blank
import Clipper.Token.Place

/-!
The text between tokens: blanks, line comments, block comments and directive
lines. A line comment runs to the end of its line, a block comment to its end mark
or to the end of the text. A directive line begins with a number sign that no token
precedes on its line; elsewhere that sign is an operator.
-/

namespace Clipper

/-- A point between two tokens. `fresh` holds while no token has ended on the
current line. -/
structure Cursor where
  place : Place
  fresh : Bool
  ahead : List Char
  deriving DecidableEq, Repr

namespace Cursor

def ofText (text : List Char) : Cursor := ⟨.start, true, text⟩

end Cursor

namespace Trivia

/-- What is being skipped. A directive is skipped like a line comment. -/
inductive Mode
  | blank | line | block
  deriving DecidableEq, Repr

/-- Moves over everything that is no token. -/
def skip : Mode → Place → Bool → List Char → Cursor
  | _, p, fresh, [] => ⟨p, fresh, []⟩
  | .line, p, fresh, c :: cs =>
      if c = '\n' then skip .blank (p.step c) true cs
      else skip .line (p.step c) fresh cs
  | .block, p, fresh, '*' :: '/' :: cs => skip .blank ((p.step '*').step '/') fresh cs
  | .block, p, fresh, c :: cs => skip .block (p.step c) (fresh || c == '\n') cs
  | .blank, p, fresh, '/' :: '/' :: cs => skip .line ((p.step '/').step '/') fresh cs
  | .blank, p, fresh, '&' :: '&' :: cs => skip .line ((p.step '&').step '&') fresh cs
  | .blank, p, fresh, '/' :: '*' :: cs => skip .block ((p.step '/').step '*') fresh cs
  | .blank, p, fresh, c :: cs =>
      if Text.isBlank c then skip .blank (p.step c) (fresh || c == '\n') cs
      else if c = '#' && fresh then skip .line (p.step c) fresh cs
      else ⟨p, fresh, c :: cs⟩

end Trivia

def Cursor.skipTrivia (c : Cursor) : Cursor := Trivia.skip .blank c.place c.fresh c.ahead

end Clipper
