import Clipper.Text.Alphabetic
import Clipper.Text.Numeric
import Clipper.Text.Blank
import Clipper.Text.Quoted
import Clipper.Number.Binary64
import Clipper.Vocabulary.Keyword
import Clipper.Vocabulary.Operator
import Clipper.Vocabulary.Punctuation
import Clipper.Vocabulary.Builtin
import Clipper.Token.Stream
import Clipper.Fault
import Clipper.Tree
import Clipper.Grammar.Expression
import Clipper.Canonical
import Clipper.Check
import Clipper.Report
import Clipper.Command.Folder
import Clipper.Main
import Clipper.Proofs.Lexing.Spelling
import Clipper.Proofs.Lexing.Lines
import Clipper.Proofs.Lexing.Shape
import Clipper.Proofs.Depth.Height
import Clipper.Proofs.Faults.Complete
import Clipper.Proofs.Content.Conserved
import Clipper.Proofs.Position.Illegal
import Clipper.Proofs.Position.Reported
import Clipper.Proofs.Resolution.Redeclared
import Clipper.Proofs.Resolution.Reordered
import Clipper.Proofs.Resolution.Spacing
import Clipper.Proofs.Resolution.Nesting
import Clipper.Proofs.Likeness.Seam
import Clipper.Proofs.Rendering.Styles
import Clipper.Proofs.Rendering.Roundtrip
import Clipper.Proofs.Grammar.Sequel
import Clipper.Proofs.Grammar.Climbing
import Clipper.Proofs.Rendering.Reread
import Clipper.Proofs.Likeness.Joined
import Clipper.Proofs.Depth.Row
import Clipper.Proofs.Depth.Confined
import Clipper.Proofs.Depth.Overdeep
import Clipper.Proofs.Grammar.Header
import Clipper.Proofs.Resolution.Earliest
import Clipper.Proofs.Resolution.Order
import Clipper.Proofs.Resolution.Widened
import Clipper.Proofs.Registers.Restored
import Clipper.Proofs.Breaks.Programs
import Clipper.Proofs.Setting.Desugared
import Clipper.Proofs.Lexing.Calls
import Clipper.Proofs.Command.Checked
import Clipper.Proofs.Position.Gaps
import Clipper.Proofs.Position.NumberSign
import Clipper.Proofs.Command.Listed
import Clipper.Proofs.Lexing.Strings
import Clipper.Proofs.Lexing.Dates
