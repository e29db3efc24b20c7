/-!
Source files: what stands at a path, and why it may not be readable as a text.
-/

namespace Clipper

/-- Why a path leads nowhere. -/
inductive PathFault
  | absent
  /-- The path goes on behind a file. -/
  | throughFile
  | tooLong
  /-- The path holds a NUL character. -/
  | malformed
  deriving DecidableEq, Repr

def PathFault.message : PathFault → String
  | absent => "No such file or directory (os error 2)"
  | throughFile => "Not a directory (os error 20)"
  | tooLong => "File name too long (os error 36)"
  | malformed => "file name contained an unexpected NUL byte"

/-- What a path leads to. The bytes of a file are fetched only when they are read. -/
inductive Entry
  | unreachable (fault : PathFault)
  | directory
  | file (size : Nat) (bytes : Thunk ByteArray)

/-- Why a source file cannot be read. -/
inductive ReadFault
  | unreachable (fault : PathFault)
  | directory
  | notText
  | tooLarge (size : Nat)
  deriving DecidableEq, Repr

namespace ReadFault

/-- The size in bytes beyond which a file is not read. -/
def maxSize : Nat := 100 * 1024 * 1024

def message (path : String) : ReadFault → String
  | unreachable fault => "Cannot access file '" ++ path ++ "': " ++ fault.message
  | directory => "Error reading file '" ++ path ++ "': Is a directory (os error 21)"
  | notText => "Error reading file '" ++ path ++ "': stream did not contain valid UTF-8"
  | tooLarge size =>
      "Source file '" ++ path ++ "' is too large (" ++ toString size ++ " bytes, max " ++
        toString maxSize ++ " bytes)"

end ReadFault

/-- The text of a file. Its size is checked before it is fetched. -/
def Entry.read : Entry → Except ReadFault String
  | unreachable fault => .error (.unreachable fault)
  | directory => .error .directory
  | file size bytes =>
      if ReadFault.maxSize < size then .error (.tooLarge size)
      else
        match String.fromUTF8? bytes.get with
        | some text => .ok text
        | none => .error .notText

end Clipper
