import Clipper.Diagnostic

/-!
Everything the front end can find wrong with a text. A fault names its cause and the
tokens it concerns; `Fault.diagnostic` words it.
-/

namespace Clipper

inductive Fault
  /-- Something else stands where `what` belongs. -/
  | expected (what : String) (found : Token)
  /-- The word that closes what `opener` opened is missing. -/
  | unclosed (closer : String) (opener found : Token)
  | notAStatement (found : Token)
  | notAnExpression (found : Token)
  /-- A statement does not end with its line. -/
  | lineGoesOn (found : Token)
  | notAssignable (target : Token)
  | illegalCharacter (token : Token)
  | tooDeep (found : Token)
  /-- The name behind the end of a loop is not the loop's counter. -/
  | otherCounter (found counter : Token)
  | integerTooLarge (token : Token)
  | malformedNumber (token : Token)
  | undeclared (name : String) (token : Token)
  | redeclared (name : String) (token first : Token)
  deriving DecidableEq, Repr

namespace Fault

def syntactic (message : String) (t : Token) : Diagnostic := .onToken .syntactic message t

def lexical (message : String) (t : Token) : Diagnostic := .onToken .lexical message t

def placeText (t : Token) : String := toString t.line ++ ":" ++ toString t.column

def diagnostic : Fault → Diagnostic
  | expected what found => syntactic ("expected " ++ what ++ ", found " ++ found.describe) found
  | unclosed closer opener found =>
      (syntactic ("expected '" ++ closer ++ "', found " ++ found.describe) found).withNote
        ("'" ++ opener.literal ++ "' opened at " ++ placeText opener ++ " is not closed")
  | notAStatement found => syntactic (found.describe ++ " cannot start a statement") found
  | notAnExpression found =>
      syntactic ("expected an expression, found " ++ found.describe) found
  | lineGoesOn found =>
      (syntactic ("expected end of line, found " ++ found.describe) found).withHint
        "each statement goes on its own line"
  | notAssignable target =>
      (syntactic ("cannot assign to " ++ target.describe) target).withHint
        "only variables, array elements and members can be assigned"
  | illegalCharacter token =>
      (lexical ("illegal character " ++ token.describe) token).through token
  | tooDeep found =>
      (syntactic "expression is nested too deeply" found).withHint
        "split it into intermediate variables"
  | otherCounter found counter =>
      (((syntactic ("'Next " ++ found.literal ++ "' does not match the loop counter '" ++
        counter.literal ++ "'") found).through found).withSeverity .warning).withNote
        ("the loop counter is declared at " ++ placeText counter)
  | integerTooLarge token =>
      lexical ("integer literal " ++ token.describe ++ " is out of range") token
  | malformedNumber token => lexical ("invalid number literal " ++ token.describe) token
  | undeclared name token =>
      (((Diagnostic.onToken .semantic ("identificador '" ++ name ++ "' não declarado") token).withCode
        .undeclared).through token).withHint
        ("declare it with 'Local " ++ name ++ "' before using it")
  | redeclared name token first =>
      (((Diagnostic.onToken .semantic ("'" ++ name ++ "' já foi declarado neste escopo") token).withCode
        .redeclared).through token).withNote
        ("first declared at " ++ placeText first)

end Fault

end Clipper
