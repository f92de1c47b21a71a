import TapeMachine.Program.Walk
import TapeMachine.StructureError
import TapeMachine.Text.Units

/-!
# Listings

A program is listed one node per line. The body of a loop stands between the
loop's line and a closing bracket, two blanks further in; a loop without a body
takes a single line. The listing follows the walk through the program, which
does not say where a body ends: a closing bracket is owed until the walk comes
to a node that is not deeper than the loop, or to the end. Deep nesting makes long
lines, and a listing that is longer than a text can be is not written.
-/

namespace TapeMachine

namespace Node

/-- The numbers of a node, in the order in which they are written. -/
def numbers : Node → List Int
  | .addAt offset delta => [offset, delta.toInt]
  | .setAt offset value => [offset, value.toNat]
  | .mulAt offset into factor => [offset, into, factor.toInt]
  | .move delta => [delta]
  | .outputAt offset => [offset]
  | .inputAt offset => [offset]
  | .loop _ => []
  | .scanLoop step => [step]

/-- Whether a node is a loop around other nodes. -/
def hasBody : Node → Bool
  | .loop (_ :: _) => true
  | _ => false

end Node

namespace Program

/-- A line of a listing without its indentation, and the depth it stands at. -/
abbrev ListedLine := Nat × String

/-- The line of a node without the body. -/
def label : Node → String
  | .loop [] => "Loop []"
  | .loop _ => "Loop ["
  | node => node.kind.name ++ "(" ++ ", ".intercalate (node.numbers.map Position.render) ++ ")"

/-- The closing bracket of a loop at a depth. -/
def closing (depth : Nat) : ListedLine :=
  (depth, "]")

/-- The lines of the nodes still to come, with the closing brackets owed at the
given depths, innermost first. -/
def linesFrom : List Nat → List (Nat × Node) → List ListedLine
  | owed, [] => owed.map closing
  | owed, (depth, node) :: rest =>
    let due := owed.takeWhile fun opened => depth ≤ opened
    let later := owed.dropWhile fun opened => depth ≤ opened
    due.map closing ++ (depth, label node) ::
      linesFrom (if node.hasBody then depth :: later else later) rest

/-- A line with its indentation. -/
def indented (line : ListedLine) : String :=
  String.ofList (List.replicate (2 * line.1) ' ') ++ line.2

/-- The lines of a program. -/
def listed (program : Block) : List ListedLine :=
  linesFrom [] (walk program)

/-- The text of a program's lines, of whatever length. -/
def listingText (program : Block) : String :=
  "\n".intercalate ((listed program).map indented)

/-- The number of UTF-16 units of lines that are put below each other. The
indentation is counted and not written. -/
def unitsOf (lines : List ListedLine) : Nat :=
  lines.foldl (fun total line => total + (2 * line.1 + Text.Units.length line.2.toList))
    (lines.length - 1)

/-- The listing of a program, if there is a text that long. -/
def listing (program : Block) : Except StructureError String :=
  if Text.Units.maxLength < unitsOf (listed program) then .error .excessiveWidth
  else .ok (listingText program)

end Program

end TapeMachine
