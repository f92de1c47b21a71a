import TapeMachine.Program.Node

/-!
# Walking through programs

A program is walked through with an explicit list of unfinished blocks, innermost
first, so nesting costs no call stack. `walk` gives the nodes in the order in
which they are written; `mapBlocks` replaces whole blocks, the inner ones
first.
-/

namespace TapeMachine.Program

/-- The nodes of unfinished blocks, the innermost of which lies at a depth. -/
def walkFrom : Nat → List Block → List (Nat × Node)
  | _, [] => []
  | depth, [] :: outer => walkFrom (depth - 1) outer
  | depth, (.loop body :: rest) :: outer =>
    (depth, .loop body) :: walkFrom (depth + 1) (body :: rest :: outer)
  | depth, (node :: rest) :: outer => (depth, node) :: walkFrom depth (rest :: outer)
termination_by _ unfinished => sizeOf unfinished

/-- Every node of a program in order with its nesting depth, a loop before its
body. -/
def walk (program : Block) : List (Nat × Node) :=
  walkFrom 0 [program]

/-- The number of nodes of a program, nested ones included. -/
def size (program : Block) : Nat :=
  (walk program).length

/-- A block set aside for a loop in it: the nodes still to come, and the finished
ones, last first. -/
structure SetAside where
  pending : Block
  finished : List Node

variable {m : Type → Type} [Monad m]

/-- Finishes a block whose finished nodes are given and replaces it, then does so
with the blocks around it. -/
def mapBlocksFrom (replace : Block → m Block) :
    Block → List Node → List SetAside → m Block
  | [], finished, outer => do
    let block ← replace finished.reverse
    match outer with
    | [] => return block
    | around :: outer =>
      mapBlocksFrom replace around.pending (.loop block :: around.finished) outer
  | .loop body :: rest, finished, outer =>
    mapBlocksFrom replace body [] (⟨rest, finished⟩ :: outer)
  | node :: rest, finished, outer => mapBlocksFrom replace rest (node :: finished) outer
termination_by pending _ outer =>
  sizeOf pending + outer.foldr (fun block total => sizeOf block.pending + 1 + total) 0
decreasing_by
  all_goals simp
  all_goals omega

/-- Replaces every block of a program, innermost first and from left to right. A
block is handed over with the blocks inside it already replaced. -/
def mapBlocksM (replace : Block → m Block) (program : Block) : m Block :=
  mapBlocksFrom replace program [] []

/-- Applies a plain function to every block of a program, innermost first. -/
def mapBlocks (replace : Block → Block) (program : Block) : Block :=
  Id.run (mapBlocksM (fun block => pure (replace block)) program)

end TapeMachine.Program
