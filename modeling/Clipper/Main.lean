import Clipper.Command.Outcome

/-!
The command line program: reads the files a command names, carries it out and writes
what came of it.
-/

namespace Clipper

def usageText : String :=
  "Usage: clipper lex FILE\n" ++
  "       clipper render [--keyword-case upper|lower|pascal] [--indent N] FILE\n" ++
  "       clipper check [--extern NAME]... FILE..."

def versionText : String := "clipper 0.1.0"

/-- The fault behind a failed access, if the path is to blame. -/
def pathFault? : IO.Error → Option PathFault
  | .noFileOrDirectory .. => some .absent
  | .inappropriateType _ code _ => if code = 20 then some .throughFile else none
  | .invalidArgument _ code _ => if code = 36 then some .tooLong else some .malformed
  | _ => none

def entryAt (path : String) : IO Entry := do
  try
    let bytes ← IO.FS.readBinFile path
    return .file bytes.size (.pure bytes)
  catch e => return (pathFault? e).elim .directory .unreachable

/-- Fetches what stands at each path. -/
def entriesAt (paths : List String) : IO (String → Entry) := do
  let entries ← paths.mapM fun path => return (path, ← entryAt path)
  return fun path => (entries.lookup path).getD (.unreachable .absent)

def Command.paths : Command → List String
  | lex path => [path]
  | render path _ _ => [path]
  | check paths _ => paths

def Report.lines (r : Report) : String :=
  r.severity.name ++ ": " ++ r.message ++ "\n  at byte " ++ toString r.offset ++ " of " ++ r.name ++
    ": " ++ r.label ++ (r.help.elim "" fun h => "\n  help: " ++ h)

def Outcome.write (o : Outcome) : IO UInt32 := do
  for message in o.unreadable do IO.eprintln message
  for report in o.reports do IO.eprintln report.lines
  IO.print o.output
  if let some message := o.failure then IO.eprintln message
  return .ofNat o.exitCode

def Usage.write (u : Usage) : IO UInt32 := do
  match u with
  | .version => IO.println versionText
  | .help => IO.println usageText
  | _ => IO.eprintln usageText
  return .ofNat u.exitCode

end Clipper

def main (args : List String) : IO UInt32 := do
  match Clipper.Command.ofArguments args with
  | .error usage => usage.write
  | .ok command => (command.execute (← Clipper.entriesAt command.paths)).write
