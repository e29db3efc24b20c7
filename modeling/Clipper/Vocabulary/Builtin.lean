import Clipper.Text.Casing
import Clipper.Vocabulary.Dialect

/-!
Functions of the runtime library. A program may call them without a declaration.
-/

namespace Clipper

structure Builtin where
  canonical : String
  aliases : List String
  description : String
  origin : Dialect
  deriving DecidableEq, Repr

namespace Builtin

def all : List Builtin :=
  [⟨"Len", [], "Return the length of a string or array.", .clipper⟩,
   ⟨"Str", [], "Convert a number to a string.", .clipper⟩,
   ⟨"Val", [], "Convert a string to a number.", .clipper⟩,
   ⟨"AllTrim", [], "Remove leading and trailing blanks.", .clipper⟩,
   ⟨"Trim", ["RTrim"], "Remove trailing blanks.", .clipper⟩,
   ⟨"SubStr", [], "Extract a substring.", .clipper⟩,
   ⟨"Upper", [], "Convert a string to upper case.", .clipper⟩,
   ⟨"Lower", [], "Convert a string to lower case.", .clipper⟩,
   ⟨"Space", [], "Return a string of blanks.", .clipper⟩,
   ⟨"Replicate", [], "Repeat a string.", .clipper⟩,
   ⟨"StrZero", [], "Convert a number to a zero-padded string.", .clipper⟩,
   ⟨"Transform", [], "Format a value with a picture mask.", .clipper⟩,
   ⟨"At", [], "Return the position of a substring.", .clipper⟩,
   ⟨"Date", [], "Return the current date.", .clipper⟩,
   ⟨"Time", [], "Return the current time as a string.", .clipper⟩,
   ⟨"CToD", [], "Convert a string to a date.", .clipper⟩,
   ⟨"DToC", [], "Convert a date to a string.", .clipper⟩,
   ⟨"DToS", [], "Convert a date to a sortable `YYYYMMDD` string.", .clipper⟩,
   ⟨"Year", [], "Return the year of a date.", .clipper⟩,
   ⟨"Month", [], "Return the month of a date.", .clipper⟩,
   ⟨"Day", [], "Return the day of a date.", .clipper⟩,
   ⟨"Int", [], "Truncate a number to an integer.", .clipper⟩,
   ⟨"Round", [], "Round a number to a number of decimals.", .clipper⟩,
   ⟨"Abs", [], "Return the absolute value of a number.", .clipper⟩,
   ⟨"Max", [], "Return the larger of two values.", .clipper⟩,
   ⟨"Min", [], "Return the smaller of two values.", .clipper⟩,
   ⟨"AAdd", [], "Append an element to an array.", .clipper⟩,
   ⟨"AScan", [], "Search an array for a value.", .clipper⟩,
   ⟨"ASize", [], "Grow or shrink an array.", .clipper⟩,
   ⟨"AClone", [], "Duplicate a (nested) array.", .clipper⟩,
   ⟨"Empty", [], "Test whether a value is empty.", .clipper⟩,
   ⟨"ValType", [], "Return the type letter of a value.", .clipper⟩,
   ⟨"QOut", [], "Print values to the console.", .clipper⟩,
   ⟨"ConOut", [], "Write to the server console log.", .advpl⟩,
   ⟨"Alert", [], "Show a modal alert.", .clipper⟩,
   ⟨"MsgInfo", [], "Show an information dialog.", .advpl⟩,
   ⟨"MsgAlert", [], "Show a warning dialog.", .advpl⟩]

def spellings (b : Builtin) : List String := b.canonical :: b.aliases

/-- Holds for every spelling of the function, in any case of its letters. -/
def isNamed (b : Builtin) (s : String) : Bool := b.spellings.any (Text.sameWord · s)

/-- The function with exactly this spelling. -/
def ofSpelling? (s : String) : Option Builtin := all.find? fun b => b.spellings.contains s

def ofWord? (s : String) : Option Builtin := all.find? (isNamed · s)

end Builtin

end Clipper
