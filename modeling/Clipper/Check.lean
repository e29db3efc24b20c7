import Clipper.Analysis
import Clipper.Grammar.Expression

/-!
Checking a source text: its tree and its names, with all that is wrong about them. The
names of a partial tree are checked as well.
-/

namespace Clipper

structure Check where
  parsed : Parsed
  analysis : Analysis

namespace Check

def ofSource (x : Externals) (source file : String) : Check :=
  let parsed := Parsed.ofSource source file
  ⟨parsed, .ofProgram x parsed.program⟩

/-- The faults of the text come before those of its names. -/
def diagnostics (c : Check) : List Diagnostic := c.parsed.diagnostics ++ c.analysis.diagnostics

def isOk (c : Check) : Bool := c.diagnostics.all fun d => !d.isError

end Check

end Clipper
