import TapeMachine.Program.Census
import TapeMachine.Program.Nested

/-!
# Walking through the nodes of a program

The walk with an explicit list of unfinished blocks visits what the recursion on the
nesting of a program visits. So the nodes of a program are its first node, the nodes in
that node's body and the nodes of the rest (`nodes_loop`, `nodes_single`), and a count of
them adds up in the same way.
-/

namespace TapeMachine.Program

/-! ## The walk and the recursion -/

theorem walkFrom_of_not_loop {node : Node} (notLoop : ∀ body, node ≠ .loop body) (depth : Nat)
    (rest : Block) (outer : List Block) :
    walkFrom depth ((node :: rest) :: outer) = (depth, node) :: walkFrom depth (rest :: outer) := by
  cases node with
  | loop body => exact absurd rfl (notLoop body)
  | _ =>
    rw [walkFrom]
    intro body same
    cases same

theorem preorder_loop (depth : Nat) (body rest : Block) : preorder depth (.loop body :: rest) =
    (depth, .loop body) :: (preorder (depth + 1) body ++ preorder depth rest) := by
  rw [preorder, preorderNode, List.cons_append]

theorem preorder_of_not_loop {node : Node} (notLoop : ∀ body, node ≠ .loop body) (depth : Nat)
    (rest : Block) : preorder depth (node :: rest) = (depth, node) :: preorder depth rest := by
  cases node with
  | loop body => exact absurd rfl (notLoop body)
  | _ => simp [preorder, preorderNode]

/-- The walk first goes through the innermost block. -/
theorem walkFrom_cons (depth : Nat) (block : Block) (outer : List Block) :
    walkFrom depth (block :: outer) = preorder depth block ++ walkFrom (depth - 1) outer := by
  induction block using Node.block_induction generalizing depth outer with
  | nil => rw [walkFrom, preorder, List.nil_append]
  | loop body rest ihBody ihRest =>
    rw [walkFrom, ihBody, Nat.add_sub_cancel, ihRest, preorder_loop, List.cons_append,
      List.append_assoc]
  | single node rest notLoop ihRest =>
    rw [walkFrom_of_not_loop notLoop, preorder_of_not_loop notLoop, ihRest, List.cons_append]

theorem walk_eq_preorder (program : Block) : walk program = preorder 0 program := by
  rw [walk, walkFrom_cons, walkFrom, List.append_nil]

/-! ## The nodes without their depths -/

/-- Every node of a program in order, a loop before its body. -/
def nodes (program : Block) : List Node :=
  (walk program).map Prod.snd

/-- The depth that a walk starts at only changes the depths. -/
theorem map_snd_preorder (depth : Nat) (program : Block) :
    (preorder depth program).map Prod.snd = nodes program := by
  rw [nodes, walk_eq_preorder]
  generalize 0 = start
  induction program using Node.block_induction generalizing depth start with
  | nil => rfl
  | loop body rest ihBody ihRest =>
    simp only [preorder_loop, List.map_cons, List.map_append]
    rw [ihBody (depth + 1) (start + 1), ihRest depth start]
  | single node rest notLoop ihRest =>
    rw [preorder_of_not_loop notLoop, preorder_of_not_loop notLoop, List.map_cons, List.map_cons,
      ihRest depth start]

@[simp] theorem nodes_nil : nodes [] = [] := by
  rw [nodes, walk_eq_preorder]
  rfl

@[simp] theorem nodes_loop (body rest : Block) :
    nodes (.loop body :: rest) = .loop body :: (nodes body ++ nodes rest) := by
  rw [← map_snd_preorder 1 body, ← map_snd_preorder 0 rest, nodes, walk_eq_preorder,
    preorder_loop, List.map_cons, List.map_append]

theorem nodes_single {node : Node} (notLoop : ∀ body, node ≠ .loop body) (rest : Block) :
    nodes (node :: rest) = node :: nodes rest := by
  rw [← map_snd_preorder 0 rest, nodes, walk_eq_preorder, preorder_of_not_loop notLoop,
    List.map_cons]

theorem nodes_append (p q : Block) : nodes (p ++ q) = nodes p ++ nodes q := by
  induction p using Node.block_induction with
  | nil => rw [nodes_nil, List.nil_append, List.nil_append]
  | loop body rest ihBody ihRest =>
    simp only [List.cons_append, nodes_loop, ihRest, List.append_assoc]
  | single node rest notLoop ih => simp only [List.cons_append, nodes_single notLoop, ih]

/-! ## Counting -/

theorem size_eq_length (program : Block) : size program = (nodes program).length := by
  rw [nodes, List.length_map]
  rfl

@[simp] theorem size_nil : size [] = 0 := by
  rw [size_eq_length, nodes_nil, List.length_nil]

@[simp] theorem size_loop (body rest : Block) :
    size (.loop body :: rest) = size body + size rest + 1 := by
  simp only [size_eq_length, nodes_loop, List.length_cons, List.length_append]

theorem size_single {node : Node} (notLoop : ∀ body, node ≠ .loop body) (rest : Block) :
    size (node :: rest) = size rest + 1 := by
  rw [size_eq_length, size_eq_length, nodes_single notLoop, List.length_cons]

theorem size_append (p q : Block) : size (p ++ q) = size p + size q := by
  simp only [size_eq_length, nodes_append, List.length_append]

theorem countKind_eq_countP (program : Block) (kind : Node.Kind) :
    countKind program kind = (nodes program).countP fun node => node.kind == kind := by
  rw [nodes, List.countP_map]
  rfl

@[simp] theorem countKind_nil (kind : Node.Kind) : countKind [] kind = 0 := by
  rw [countKind_eq_countP, nodes_nil, List.countP_nil]

@[simp] theorem countKind_loop (body rest : Block) (kind : Node.Kind) :
    countKind (.loop body :: rest) kind =
      countKind body kind + countKind rest kind + if Node.Kind.loop == kind then 1 else 0 := by
  simp only [countKind_eq_countP, nodes_loop, List.countP_cons, List.countP_append]
  rfl

theorem countKind_single {node : Node} (notLoop : ∀ body, node ≠ .loop body) (rest : Block)
    (kind : Node.Kind) : countKind (node :: rest) kind =
      countKind rest kind + if node.kind == kind then 1 else 0 := by
  rw [countKind_eq_countP, countKind_eq_countP, nodes_single notLoop, List.countP_cons]

theorem countKind_append (p q : Block) (kind : Node.Kind) :
    countKind (p ++ q) kind = countKind p kind + countKind q kind := by
  simp only [countKind_eq_countP, nodes_append, List.countP_append]

end TapeMachine.Program
