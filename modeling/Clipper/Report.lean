import Clipper.Diagnostic

/-!
Diagnostics put beside the text they are about: a label for the marked span, and the
hints and notes as one help text.
-/

namespace Clipper

structure Report where
  message : String
  severity : Severity
  /-- The name of the text. -/
  name : String
  offset : Nat
  length : Nat
  label : String
  help : Option String
  deriving DecidableEq, Repr

namespace Report

/-- The code of every report. -/
def code : String := "xbase::check"

def labelText (d : Diagnostic) : String :=
  match d.code, d.severity, d.stage with
  | some .undeclared, _, _ => "not declared"
  | some .redeclared, _, _ => "declared again here"
  | none, .warning, _ => "warning here"
  | none, .error, .lexical => "invalid token"
  | none, .error, _ => "error here"

/-- The label names the code of a finding that has one. -/
def labelOf (d : Diagnostic) : String :=
  labelText d ++ (d.code.elim "" fun c => " (" ++ c.name ++ ")")

/-- Hints come before notes, each on a line. -/
def helpOf (d : Diagnostic) : Option String :=
  match d.hints ++ d.notes with
  | [] => none
  | lines => some ("\n".intercalate lines)

/-- A span beyond the end of the text is cut off there. -/
def ofDiagnostic (d : Diagnostic) (name source : String) : Report :=
  let offset := min d.span.start source.utf8ByteSize
  { message := d.message
    severity := d.severity
    name
    offset
    length := min d.span.size (source.utf8ByteSize - offset)
    label := labelOf d
    help := helpOf d }

theorem offset_add_length_le_size (d : Diagnostic) (name source : String) :
    (ofDiagnostic d name source).offset + (ofDiagnostic d name source).length ≤
      source.utf8ByteSize := by
  simp only [ofDiagnostic]
  omega

end Report

end Clipper
