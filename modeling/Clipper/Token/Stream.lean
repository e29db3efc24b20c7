import Clipper.Text.Quoted
import Clipper.Token.Lexeme
import Clipper.Token.Trivia

/-!
The tokens of a text. Reading never fails: it ends with one end token, which any
further reading finds again.
-/

namespace Clipper

/-- The token behind a cursor, and the cursor behind that token. -/
def Cursor.next (file : String) (c : Cursor) : Token × Cursor :=
  let c := c.skipTrivia
  match c.ahead with
  | [] =>
      (⟨.endOfInput, "", ⟨c.place.offset, c.place.offset⟩, c.place.line, c.place.column, file⟩, c)
  | first :: others =>
      let lexeme := Lexeme.read first others
      let literal := c.ahead.take lexeme.size
      let stop := c.place.past literal
      (⟨lexeme.kind, String.ofList literal, ⟨c.place.offset, stop.offset⟩, c.place.line,
          c.place.column, file⟩,
        ⟨stop, false, c.ahead.drop lexeme.size⟩)

/-- The tokens of a text, the end token apart. -/
structure TokenStream where
  body : List Token
  last : Token
  deriving DecidableEq, Repr

namespace TokenStream

def toList (s : TokenStream) : List Token := s.body ++ [s.last]

/-- Reads at most `n` tokens before the end token. -/
def read (file : String) : Nat → Cursor → TokenStream
  | 0, c => ⟨[], (c.next file).1⟩
  | n + 1, c =>
      let (t, c) := c.next file
      if t.isEnd then ⟨[], t⟩
      else
        let s := read file n c
        ⟨t :: s.body, s.last⟩

/-- Every token takes a character, so there are at most as many tokens as characters. -/
def ofCursor (file : String) (c : Cursor) : TokenStream := read file c.ahead.length c

def ofText (file source : String) : TokenStream := ofCursor file (.ofText source.toList)

end TokenStream

/-- The tokens of a source text, the end token last. -/
def tokens (source file : String) : List Token := (TokenStream.ofText file source).toList

/-- Reads tokens one by one. Taken as a sequence the tokens stop behind the end token,
and `finished` holds from there on. -/
structure TokenReader where
  source : String
  file : String
  cursor : Cursor
  finished : Bool

namespace TokenReader

def ofSource (source file : String) : TokenReader :=
  ⟨source, file, .ofText source.toList, false⟩

/-- Begins again at the start of the text. -/
def reset (r : TokenReader) : TokenReader := ofSource r.source r.file

/-- The next token; at the end of the text the end token, any number of times. -/
def pull (r : TokenReader) : Token × TokenReader :=
  let (t, c) := r.cursor.next r.file
  (t, { r with cursor := c })

/-- The next member of the sequence of tokens. -/
def next? (r : TokenReader) : Option (Token × TokenReader) :=
  if r.finished then none
  else
    let (t, r) := r.pull
    some (t, { r with finished := t.isEnd })

/-- What is left of the sequence of tokens. -/
def remaining (r : TokenReader) : List Token :=
  if r.finished then [] else (TokenStream.ofCursor r.file r.cursor).toList

/-- The reader behind the sequence of tokens. -/
def drained (r : TokenReader) : TokenReader :=
  { r with cursor := ⟨r.cursor.place.past r.cursor.ahead, r.cursor.fresh, []⟩, finished := true }

end TokenReader

/-- One line of a token listing: place, kind and quoted text. -/
def Token.listing (t : Token) : String :=
  toString t.line ++ ":" ++ toString t.column ++ " " ++ t.kind.name ++ " " ++
    Text.Quoted.encode t.literal

end Clipper
