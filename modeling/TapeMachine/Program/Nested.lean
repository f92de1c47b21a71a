import TapeMachine.Program.Listing

/-!
# Programs as trees

Walking through a program, listing it and replacing its blocks once more, this
time by recursion on its nesting.
-/

namespace TapeMachine.Program

mutual

/-- A node at a depth, followed by its body. -/
def preorderNode (depth : Nat) : Node → List (Nat × Node)
  | .loop body => (depth, .loop body) :: preorder (depth + 1) body
  | node => [(depth, node)]

/-- The nodes of a block at a depth, each followed by its body. -/
def preorder (depth : Nat) : Block → List (Nat × Node)
  | [] => []
  | node :: rest => preorderNode depth node ++ preorder depth rest

end

mutual

/-- The lines of a node at a depth. -/
def nodeLines (depth : Nat) : Node → List ListedLine
  | .loop [] => [(depth, label (.loop []))]
  | .loop (first :: rest) =>
    (depth, label (.loop (first :: rest))) ::
      (nodeLines (depth + 1) first ++ lines (depth + 1) rest ++ [closing depth])
  | node => [(depth, label node)]

/-- The lines of a block at a depth. -/
def lines (depth : Nat) : Block → List ListedLine
  | [] => []
  | node :: rest => nodeLines depth node ++ lines depth rest

end

variable {m : Type → Type} [Monad m]

mutual

/-- A node with the blocks inside it replaced. -/
def replaceInNodeM (replace : Block → m Block) : Node → m Node
  | .loop body => do
    let inner ← replaceInEachM replace body
    let block ← replace inner
    return .loop block
  | node => return node

/-- The nodes of a block with the blocks inside them replaced. -/
def replaceInEachM (replace : Block → m Block) : Block → m Block
  | [] => return []
  | node :: rest => do
    let first ← replaceInNodeM replace node
    let others ← replaceInEachM replace rest
    return first :: others

end

/-- Replaces what is inside a program's loops, then the program itself. -/
def replaceNestedM (replace : Block → m Block) (program : Block) : m Block := do
  let inner ← replaceInEachM replace program
  replace inner

mutual

/-- A node with the blocks inside it replaced by a plain function. -/
def replaceInNode (replace : Block → Block) : Node → Node
  | .loop body => .loop (replace (replaceInEach replace body))
  | node => node

/-- The nodes of a block with the blocks inside them replaced by a plain
function. -/
def replaceInEach (replace : Block → Block) : Block → Block
  | [] => []
  | node :: rest => replaceInNode replace node :: replaceInEach replace rest

end

/-- Replaces what is inside a program's loops by a plain function, then the
program itself. -/
def replaceNested (replace : Block → Block) (program : Block) : Block :=
  replace (replaceInEach replace program)

end TapeMachine.Program
