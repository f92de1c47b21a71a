import TapeMachine.Instruction
import TapeMachine.Program.Node

/-!
# Spelling

The instructions that an unoptimized program stands for: each of its nodes is
one instruction, or a loop of such nodes.
-/

namespace TapeMachine.Program

mutual

/-- The instructions of a node, if it stands for any. -/
def spellNode? : Node → Option (List Instruction)
  | .addAt offset delta =>
    if offset = 0 ∧ delta = 1 then some [.increment]
    else if offset = 0 ∧ delta = -1 then some [.decrement]
    else none
  | .move delta =>
    if delta = 1 then some [.moveRight]
    else if delta = -1 then some [.moveLeft]
    else none
  | .outputAt offset => if offset = 0 then some [.output] else none
  | .inputAt offset => if offset = 0 then some [.input] else none
  | .loop body => (spell? body).map fun inner => .loopOpen :: inner ++ [.loopClose]
  | .setAt .. | .mulAt .. | .scanLoop _ => none

/-- The instructions of a block, if all its nodes stand for some. -/
def spell? : Block → Option (List Instruction)
  | [] => some []
  | node :: rest => do
    let first ← spellNode? node
    let others ← spell? rest
    return first ++ others

end

end TapeMachine.Program
