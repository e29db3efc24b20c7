import Clipper.Text.Extending
import Clipper.Text.Unprintable

/-!
Text between double quotes on one line. A quote, a backslash and the usual
controls have an escape of two characters; a mark that would join the character
before it, and a character without a printed form, are written by code point.
-/

namespace Clipper.Text.Quoted

def hexDigits (n : Nat) : List Char := Nat.toDigits 16 n

/-- The code point in braces: U+200B is written u, open brace, 200b, close brace. -/
def byCodePoint (c : Char) : List Char :=
  ['\\', 'u', '\x7b'] ++ hexDigits c.toNat ++ ['\x7d']

def encodeChar (c : Char) : List Char :=
  match c with
  | '\x00' => ['\\', '0']
  | '\t' => ['\\', 't']
  | '\r' => ['\\', 'r']
  | '\n' => ['\\', 'n']
  | '\\' => ['\\', '\\']
  | '"' => ['\\', '"']
  | c => if isExtending c || isUnprintable c then byCodePoint c else [c]

def encode (s : String) : String :=
  String.ofList ('"' :: s.toList.flatMap encodeChar ++ ['"'])

end Clipper.Text.Quoted
