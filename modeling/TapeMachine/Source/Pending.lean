import TapeMachine.Instruction

/-!
# Pending source

Interactive source comes line by line. Lines are collected until they are worth
compiling: until every loop is closed, or a close has no loop to close. Lines have
no lone surrogates.
-/

namespace TapeMachine.Source

/-- The lines collected, last first, the number of loops open at their end, and
whether a close among them was stray. -/
structure Pending where
  lines : List String := []
  depth : Nat := 0
  stray : Bool := false
  deriving DecidableEq, Repr, Inhabited

namespace Pending

/-- Counts one instruction. -/
def count (pending : Pending) : Instruction → Pending
  | .loopOpen => { pending with depth := pending.depth + 1 }
  | .loopClose =>
    match pending.depth with
    | 0 => { pending with stray := true }
    | outer + 1 => { pending with depth := outer }
  | _ => pending

/-- Adds a line. -/
def append (pending : Pending) (line : String) : Pending :=
  (Instruction.ofChars line.toList).foldl count { pending with lines := line :: pending.lines }

/-- Whether there are no lines. -/
def isEmpty (pending : Pending) : Bool :=
  pending.lines.isEmpty

/-- Whether the lines are worth compiling. -/
def isComplete (pending : Pending) : Bool :=
  pending.depth == 0 || pending.stray

/-- The lines as one text. -/
def text (pending : Pending) : String :=
  "\n".intercalate pending.lines.reverse

/-- The text, and a collection that starts over. -/
def take (pending : Pending) : String × Pending :=
  (pending.text, {})

end Pending

end TapeMachine.Source
