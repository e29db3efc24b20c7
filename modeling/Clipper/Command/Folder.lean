import Clipper.Command.Source

/-!
A current directory as a value, and what a path leads to from there. A path is
followed step by step, and every step sets out from a directory. Outside the current
directory nothing is known but the way up.
-/

namespace Clipper

/-- The names on the way down from a directory. -/
abbrev Trail := List String

/-- What a directory holds. The directories on the way to something listed need not be
listed themselves. -/
structure Folder where
  entries : List (Trail × Entry)

namespace Folder

/-- Where a path has led so far. -/
inductive Spot
  | inside (trail : Trail)
  | outside
  deriving DecidableEq, Repr

/-- Above the outermost directory there is no other. -/
def Spot.up : Spot → Spot
  | inside (name :: trail) => inside (name :: trail).dropLast
  | inside [] | outside => outside

def Spot.down (name : String) : Spot → Option Spot
  | inside trail => some (inside (trail ++ [name]))
  | outside => none

/-- The greatest size of a name in bytes. -/
def nameLimit : Nat := 255

/-- A path of this size in bytes is too long as a whole. -/
def pathLimit : Nat := 4096

def entryOn (f : Folder) (trail : Trail) : Entry :=
  match f.entries.lookup trail with
  | some e => e
  | none =>
      if trail.isEmpty || f.entries.any fun e => trail.isPrefixOf e.1 then .directory
      else .unreachable .absent

def entryOf (f : Folder) : Spot → Entry
  | .inside trail => f.entryOn trail
  | .outside => .directory

/-- The place one step further on. The empty step and the point stay where they are. -/
def step (name : String) (s : Spot) : Except PathFault Spot :=
  if name = "" || name = "." then .ok s
  else if name = ".." then .ok s.up
  else if nameLimit < name.utf8ByteSize then .error .tooLong
  else
    match s.down name with
    | some s => .ok s
    | none => .error .absent

/-- Follows steps, each from a directory. -/
def follow (f : Folder) : Spot → List String → Entry
  | s, [] => f.entryOf s
  | s, name :: names =>
      match f.entryOf s with
      | .unreachable fault => .unreachable fault
      | .file _ _ => .unreachable .throughFile
      | .directory =>
          match step name s with
          | .error fault => .unreachable fault
          | .ok s => follow f s names

/-- What a path leads to. One that begins with a slash starts outside. -/
def entryAt (f : Folder) (path : String) : Entry :=
  if path.isEmpty then .unreachable .absent
  else if path.toList.contains '\x00' then .unreachable .malformed
  else if pathLimit ≤ path.utf8ByteSize then .unreachable .tooLong
  else
    match path.splitOn "/" with
    | "" :: names => f.follow .outside names
    | names => f.follow (.inside []) names

/-- A directory that holds things under the given paths. -/
def ofPaths (entries : List (String × Entry)) : Folder :=
  ⟨entries.map fun e => ((e.1.splitOn "/").filter fun name => name != "" && name != ".", e.2)⟩

end Folder

end Clipper
