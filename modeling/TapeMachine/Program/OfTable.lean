import TapeMachine.ParseTree.Table
import TapeMachine.Program.Node

/-!
# From parse trees to programs

Each instruction of a parse tree becomes one node; nothing is fused.
-/

namespace TapeMachine.Program

/-- The node for an entry of a parse tree whose contents have become `body`. A
program inside another node has no counterpart. -/
def nodeOfEntry (entry : ParseTree.Entry) (body : Block) : Except StructureError Node :=
  match entry.kind with
  | .increment => .ok (.addAt 0 1)
  | .decrement => .ok (.addAt 0 (-1))
  | .moveRight => .ok (.move 1)
  | .moveLeft => .ok (.move (-1))
  | .output => .ok (.outputAt 0)
  | .input => .ok (.inputAt 0)
  | .loop => .ok (.loop body)
  | .program => .error (.nestedProgram entry.token)

/-- The program made of the children of a node. -/
def ofTable (table : ParseTree.Table) (id : Int) : Except StructureError Block := do
  let children ← table.children id
  children.mapM fun child => table.foldM nodeOfEntry child.1

end TapeMachine.Program
