import Clipper.Proofs.Breaks.Bodies
import Clipper.Proofs.Likeness.Program

/-!
What is open around a place in a text. Between parentheses, brackets or braces a line may be
broken anywhere, but not in the bodies of the conditionals and loops that stand there, whose
statements end with their lines. A name behind `Next` is kept where it is as well: on the same
line it is the counter of the loop, and on another line it begins something else.
-/

namespace Clipper

namespace Punctuation

def opens : Punctuation → Bool
  | openParen | openBracket | openBrace => true
  | _ => false

def closes : Punctuation → Bool
  | closeParen | closeBracket | closeBrace => true
  | _ => false

end Punctuation

/-- What is open around a place: a delimiter, or a body that these words close. -/
inductive Frame
  | bracket
  | body (closers : List Keyword)
  deriving DecidableEq

namespace Frame

/-- Outside of the body that the token closes, if it closes the innermost one. -/
def leave (t : Token) : List Frame → List Frame
  | body closers :: fs => if t.isAny closers then fs else body closers :: fs
  | fs => fs

/-- With the delimiter that the token opens, or without the one that it closes. -/
def delimit (t : Token) (fs : List Frame) : List Frame :=
  match t.kind with
  | .punctuation p => if p.opens then bracket :: fs else if p.closes then fs.tail else fs
  | _ => fs

/-- What is open behind a token. -/
def past (t : Token) (fs : List Frame) : List Frame := delimit t (leave t fs)

end Frame

/-- A place in a text: what is open there, the innermost first, the bodies that are still to
begin, and whether `Next` stands in front of it. -/
structure Enclosure where
  frames : List Frame
  bodies : List BlockBody
  behindNext : Bool

namespace Enclosure

/-- In the body that begins at the token, if one does. -/
def entered (e : Enclosure) (t : Token) : Enclosure :=
  match e.bodies with
  | b :: bs => if b.token = t then { e with frames := .body b.closers :: e.frames, bodies := bs }
      else e
  | [] => e

/-- The place behind a token. -/
def past (e : Enclosure) (t : Token) : Enclosure where
  frames := Frame.past t (e.entered t).frames
  bodies := (e.entered t).bodies
  behindNext := t.isKeyword .kwNext

/-- What is open in front of a token. A word that closes a body stands outside of it, and so does
the first token of a body. -/
def around (e : Enclosure) (t : Token) : List Frame :=
  if e.bodies.head?.any (·.token = t) then e.frames else Frame.leave t e.frames

/-- In front of the token a line can be broken or not. -/
def isFree (e : Enclosure) (t : Token) : Bool :=
  (e.around t).head? == some .bracket && !(e.behindNext && t.kind == .identifier)

/-- For each of some tokens, whether a line can be broken in front of it or not. -/
def free : Enclosure → List Token → List Bool
  | _, [] => []
  | e, t :: ts => e.isFree t :: free (e.past t) ts

/-- The place in front of a program. -/
def start (p : Program) : Enclosure := ⟨[], p.bodies, false⟩

example : (start (Parsed.ofSource "f(If a\nb(\n1)\nc\nEndIf)" "t.prw").program).free
    (TokenStream.ofText "t.prw" "f(If a\nb(\n1)\nc\nEndIf)").body =
      [false, false, true, true, true, false, true, true, false, true, true] := by
  decide +kernel

end Enclosure

namespace Token

/-- The same words with the same spelling. -/
def SameLiteral (t u : Token) : Prop := t.kind = u.kind ∧ t.literal = u.literal

instance : DecidableRel SameLiteral := fun t u =>
  inferInstanceAs (Decidable (t.kind = u.kind ∧ t.literal = u.literal))

end Token

/-- The same words in two texts. In front of a word, the first one apart, both break the line or
neither does, unless the line can be broken or not in the program that is read from the first. -/
structure TokenStream.Rebroken (p : Program) (s s' : TokenStream) : Prop where
  words : List.Forall₂ Token.SameLiteral s.body s'.body
  breaks : List.zipWith or ((Enclosure.start p).free s.body).tail (Correspondence.joints s.body) =
    List.zipWith or ((Enclosure.start p).free s.body).tail (Correspondence.joints s'.body)

end Clipper
