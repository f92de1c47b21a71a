import TapeMachine.Number.Decimal

/-!
# Structure errors

What can go wrong in the tables that a program is kept in while it is compiled.
A program read from text never meets one of these, unless there is more to write
about it than a text can hold; tables filled by hand can.
-/

namespace TapeMachine

/-- A fault in the token or node tables, or in what is written about them. -/
inductive StructureError where
  /-- No token has this number. -/
  | invalidToken (id : Int)
  /-- No node has this number. -/
  | invalidNode (id : Int)
  /-- The declared sizes below this node do not describe one tree. -/
  | malformedSubtree (id : Int)
  /-- The declared sizes send a walk over the children in circles. -/
  | endlessSubtree (id : Int)
  /-- A program node stands inside another node. -/
  | nestedProgram (token : Int)
  /-- A loop is closed that was not opened. -/
  | unmatchedClose (token : Nat)
  /-- A loop is still open at the end. -/
  | unclosedOpen (token : Nat)
  /-- A report's column lies before the start of its line. -/
  | negativeWidth (count : Int)
  /-- Reports or listings written out are longer than a text can be. -/
  | excessiveWidth
  deriving DecidableEq, Repr

/-- The wording of a fault. -/
def StructureError.message : StructureError → String
  | .invalidToken id => "Invalid TokenId: " ++ toString id
  | .invalidNode id => "Invalid NodeId: " ++ Position.render id
  | .malformedSubtree id => "Malformed subtree at NodeId: " ++ toString id
  | .endlessSubtree id => "Endless subtree at NodeId: " ++ toString id
  | .nestedProgram token =>
    "Program node at token " ++ toString token ++ " nested inside another node"
  | .unmatchedClose token => "Unmatched ']' at token " ++ toString token
  | .unclosedOpen token => "Unclosed '[' at token " ++ toString token
  | .negativeWidth count => "Invalid count value: " ++ toString count
  | .excessiveWidth => "Invalid string length"

end TapeMachine
