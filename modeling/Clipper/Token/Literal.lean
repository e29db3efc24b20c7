/-!
What a literal token stands for.
-/

namespace Clipper.Literal

/-- Everything before the closing delimiter, or everything if there is none. A
backslash keeps the next character from closing the literal; both stay as written. -/
def stringBody (delimiter : Char) : List Char → List Char
  | '\\' :: c :: cs => '\\' :: c :: stringBody delimiter cs
  | c :: cs => if c = delimiter then [] else c :: stringBody delimiter cs
  | [] => []

/-- The delimiter of a string literal and the text between the delimiters. -/
def stringParts (literal : String) : Char × String :=
  match literal.toList with
  | [] => ('"', "")
  | delimiter :: cs => (delimiter, String.ofList (stringBody delimiter cs))

end Clipper.Literal
