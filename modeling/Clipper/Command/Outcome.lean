import Clipper.Check
import Clipper.Canonical
import Clipper.Command.Arguments
import Clipper.Command.Source
import Clipper.Report

/-!
What the commands do, over any contents of the file system.
-/

namespace Clipper

structure Outcome where
  output : String
  /-- Messages about files that could not be read and did not stop the command. -/
  unreadable : List String
  reports : List Report
  /-- Why the command failed, if it did. -/
  failure : Option String

namespace Outcome

def exitCode (o : Outcome) : Nat := if o.failure.isNone then 0 else 1

def success (output : String) : Outcome := ⟨output, [], [], none⟩

def failed (message : String) : Outcome := ⟨"", [], [], some message⟩

def errorCount (ds : List Diagnostic) : Nat := ds.countP Diagnostic.isError

def reportsOn (ds : List Diagnostic) (path source : String) : List Report :=
  ds.map fun d => .ofDiagnostic d path source

def lex (path source : String) : Outcome :=
  success (String.join ((tokens source path).map fun t => t.listing ++ "\n"))

/-- A text with errors is not rendered. -/
def render (style : Style) (path source : String) : Outcome :=
  let parsed := Parsed.ofSource source path
  let reports := reportsOn parsed.diagnostics path source
  if parsed.isOk then { success (parsed.program.render style) with reports }
  else
    { failed ("\n" ++ path ++ ": not rendered, " ++ toString (errorCount parsed.diagnostics) ++
        " syntax error(s)") with reports }

/-- The last line of a check without a failed file. -/
def checkedLine (files warnings : Nat) : String :=
  "✓ " ++ toString files ++ " file(s) checked" ++
    (if warnings = 0 then "" else ", " ++ toString warnings ++ " warning(s)") ++ "\n"

def failureText (errors failed files : Nat) : String :=
  "\n" ++ toString errors ++ " error(s) in " ++ toString failed ++ " of " ++ toString files ++
    " file(s)"

/-- What checking some files came to. A file is failed if it cannot be read or has an error. -/
structure Tally where
  errors : Nat
  warnings : Nat
  failedFiles : Nat
  unreadable : List String
  reports : List Report

namespace Tally

def empty : Tally := ⟨0, 0, 0, [], []⟩

/-- One file more. -/
def add (externals : Externals) (entry : String → Entry) (t : Tally) (path : String) : Tally :=
  match (entry path).read with
  | .error f =>
      { t with
        failedFiles := t.failedFiles + 1
        unreadable := t.unreadable ++ [f.message path] }
  | .ok source =>
      let ds := (Check.ofSource externals source path).diagnostics
      let errors := errorCount ds
      { t with
        errors := t.errors + errors
        warnings := t.warnings + (ds.length - errors)
        failedFiles := if 0 < errors then t.failedFiles + 1 else t.failedFiles
        reports := t.reports ++ reportsOn ds path source }

/-- The outcome once all files are counted. -/
def outcome (t : Tally) (files : Nat) : Outcome :=
  let o := if 0 < t.failedFiles then failed (failureText t.errors t.failedFiles files)
    else success (checkedLine files t.warnings)
  { o with unreadable := t.unreadable, reports := t.reports }

end Tally

/-- Every file is checked, also behind one that failed. -/
def check (externals : Externals) (entry : String → Entry) (paths : List String) : Outcome :=
  (paths.foldl (Tally.add externals entry) .empty).outcome paths.length

/-- Goes on with the text of a file, or fails with the reason why it cannot be read. -/
def withSource (entry : String → Entry) (path : String) (go : String → Outcome) : Outcome :=
  match (entry path).read with
  | .error f => failed (f.message path)
  | .ok source => go source

end Outcome

/-- Carries out a command. An indentation of no width is refused before any file is read. -/
def Command.execute (entry : String → Entry) : Command → Outcome
  | lex path => Outcome.withSource entry path (Outcome.lex path)
  | render path keywordCase indent =>
      if indent = 0 then Outcome.failed "Error: --indent must be at least 1"
      else Outcome.withSource entry path (Outcome.render { keywordCase, indent } path)
  | check paths externals => Outcome.check ⟨externals⟩ entry paths

end Clipper
