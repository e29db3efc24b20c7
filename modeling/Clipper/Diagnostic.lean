import Clipper.Token

/-!
Findings about a source text as they are shown: a message with the span it is
about, its severity, and further notes and hints.
-/

namespace Clipper

/-- Errors fail a check and keep a text from being rendered; warnings are shown only. -/
inductive Severity
  | error | warning
  deriving DecidableEq, Repr

def Severity.name : Severity → String
  | error => "error"
  | warning => "warning"

/-- What was being looked at when the finding was made. -/
inductive Stage
  | lexical | syntactic | semantic
  deriving DecidableEq, Repr

def Stage.name : Stage → String
  | lexical => "lexical"
  | syntactic => "syntax"
  | semantic => "semantic"

/-- Stable names of the findings about names. -/
inductive Code
  | undeclared | redeclared
  deriving DecidableEq, Repr

def Code.name : Code → String
  | undeclared => "xbase::undeclared"
  | redeclared => "xbase::redeclared"

structure Diagnostic where
  message : String
  span : Span
  line : Nat
  column : Nat
  endLine : Option Nat
  endColumn : Option Nat
  file : String
  severity : Severity
  stage : Stage
  code : Option Code
  notes : List String
  hints : List String
  deriving DecidableEq, Repr

namespace Diagnostic

/-- An error at the start of a token. -/
def onToken (stage : Stage) (message : String) (t : Token) : Diagnostic where
  message
  span := t.span
  line := t.line
  column := t.column
  endLine := none
  endColumn := none
  file := t.file
  severity := .error
  stage
  code := none
  notes := []
  hints := []

def withCode (d : Diagnostic) (code : Code) : Diagnostic := { d with code := some code }

/-- Extends the finding to the end of a token. -/
def through (d : Diagnostic) (t : Token) : Diagnostic :=
  { d with
    span := d.span.merge t.span
    endLine := some t.endLine
    endColumn := some t.endColumn }

def withSeverity (d : Diagnostic) (severity : Severity) : Diagnostic := { d with severity }

def withNote (d : Diagnostic) (note : String) : Diagnostic := { d with notes := d.notes ++ [note] }

def withHint (d : Diagnostic) (hint : String) : Diagnostic := { d with hints := d.hints ++ [hint] }

def isError (d : Diagnostic) : Bool := d.severity == .error

/-- One line: the place, the stage with the severity, and the message. -/
def display (d : Diagnostic) : String :=
  d.file ++ ":" ++ toString d.line ++ ":" ++ toString d.column ++ ": " ++
    d.stage.name ++ " " ++ d.severity.name ++ ": " ++ d.message

end Diagnostic

end Clipper
