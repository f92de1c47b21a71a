import TapeMachine.Failure
import TapeMachine.Source.Framing
import TapeMachine.Text.Quoted

/-!
# The file of a command

What stands at the path that a command was given, and what reading it brings.
-/

namespace TapeMachine.Command

/-- What stands at a path. -/
inductive FileState where
  | missing
  | directory
  /-- Something that cannot be read, for the reason that the system gives. -/
  | unreadable (reason : String)
  | contents (bytes : List UInt8)
  deriving DecidableEq, Repr

namespace FileState

/-- The greatest length of a name, in bytes. -/
def longestName : Nat := 255

/-- The greatest length of a path, in bytes. -/
def longestPath : Nat := 4095

/-- A path, or a name in it, that is longer than the system takes. -/
def tooLong (path : String) : FileState :=
  .unreadable ("ENAMETOOLONG: name too long, open '" ++ path ++ "'")

/-- How much of a refused path is shown, in units. -/
def shownPath : Nat := 128

/-- A path with a NUL, which would end it for the system. -/
def cutShort (path : String) : FileState :=
  .unreadable ("The argument 'path' must be a string, Uint8Array, or URL without null bytes. " ++
    "Received " ++ Text.Quoted.excerpt shownPath path)

/-- What a relative path leads to in a directory that holds nothing: the
directory itself or one around it if no name occurs in the path. The first name
that does occur is looked up, the others are not. -/
def inEmptyDirectory (path : String) : FileState :=
  if path.toList.contains '\x00' then cutShort path
  else if longestPath < path.utf8ByteSize then tooLong path
  else
    let names := (path.splitOn "/").filter fun name => name ≠ "" ∧ name ≠ "." ∧ name ≠ ".."
    match names with
    | [] => if path.isEmpty then .missing else .directory
    | name :: _ => if longestName < name.utf8ByteSize then tooLong path else .missing

/-- Reads the source at a path. -/
def read (path : String) : FileState → Except Failure String
  | .missing =>
    .error (.fault ("ENOENT: no such file or directory, open '" ++ path ++ "'") (some "ENOENT"))
  | .directory =>
    .error (.fault "EISDIR: illegal operation on a directory, read" (some "EISDIR"))
  | .unreadable reason => .error (.fault reason none)
  | .contents bytes => .ok (Source.ofBytes bytes)

end FileState

end TapeMachine.Command
