import TapeMachine.ParseTree.Table

/-!
# Parse trees

The trees that node tables list: a table lists a tree in postorder if each node
stands after its children and declares the true number of nodes below it.
-/

namespace TapeMachine.ParseTree

/-- A node with its children in order. -/
inductive Tree where
  | node (kind : Kind) (token : Int) (children : List Tree)
  deriving Repr

namespace Tree

mutual

/-- The number of nodes of a tree. -/
def size : Tree → Nat
  | .node _ _ children => sizes children + 1

/-- The number of nodes of several trees. -/
def sizes : List Tree → Nat
  | [] => 0
  | tree :: rest => tree.size + sizes rest

end

/-- The entry that stands for the root of a tree. -/
def rootEntry (tree : Tree) : Entry :=
  match tree with
  | .node kind token _ => ⟨kind, token, tree.size⟩

mutual

/-- The entries of a tree in postorder. -/
def postorder : Tree → List Entry
  | .node kind token children =>
    postorders children ++ [rootEntry (.node kind token children)]

/-- The entries of several trees, one tree after the other. -/
def postorders : List Tree → List Entry
  | [] => []
  | tree :: rest => tree.postorder ++ postorders rest

end

mutual

/-- Combines a tree from the leaves up. -/
def fold {α : Type} (combine : Entry → List α → α) : Tree → α
  | .node kind token children =>
    combine (rootEntry (.node kind token children)) (folds combine children)

/-- Combines several trees. -/
def folds {α : Type} (combine : Entry → List α → α) : List Tree → List α
  | [] => []
  | tree :: rest => tree.fold combine :: folds combine rest

end

end Tree

end TapeMachine.ParseTree
