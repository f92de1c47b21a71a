import TapeMachine.Proofs.Program.Walk

/-!
# Places in a program

A node of a program has a place: the indices of the loops around it, from the outside in, and its
own index. Places tell equal nodes apart, and they say what comes first without a recursion. A walk
visits the nodes in the lexicographic order of their places (`lists_nodesAt`,
`walk_eq_map_nodesAt`). A block can only be finished behind those inside it and those in earlier
loops, and this leaves one order of the blocks as well (`lists_blocksAt`).
-/

namespace TapeMachine.Program

/-! ## Places -/

/-- The node at a place of a block: the index of the node, or that of a loop and a place in its
body. -/
def nodeAt? : Block → List Nat → Option Node
  | _, [] => none
  | block, [index] => block[index]?
  | block, index :: place =>
    match block[index]? with
    | some (.loop body) => nodeAt? body place
    | _ => none

/-- The block at a place: the whole block, or what is inside the loop at the place. -/
def blockAt? : Block → List Nat → Option Block
  | block, [] => some block
  | block, index :: place =>
    match block[index]? with
    | some (.loop body) => blockAt? body place
    | _ => none

/-- The block at the first place is finished before that at the second: it is inside the other
one, or inside an earlier loop of a block around both. -/
inductive FinishedBefore : List Nat → List Nat → Prop where
  | inside (index : Nat) (place : List Nat) : FinishedBefore (index :: place) []
  | earlier {index other : Nat} (less : index < other) (place later : List Nat) :
    FinishedBefore (index :: place) (other :: later)
  | within (index : Nat) {place later : List Nat} (before : FinishedBefore place later) :
    FinishedBefore (index :: place) (index :: later)

/-- The entries of a list are what there is at places, in an order of the places. -/
structure Lists {α : Type} (at? : List Nat → Option α) (before : List Nat → List Nat → Prop)
    (entries : List (List Nat × α)) : Prop where
  ordered : entries.Pairwise fun entry later => before entry.1 later.1
  once : (entries.map Prod.fst).Nodup
  every : ∀ place value, (place, value) ∈ entries ↔ at? place = some value

/-- A place once there is another node in front of the block. -/
def behind : List Nat → List Nat
  | [] => []
  | index :: place => (index + 1) :: place

/-- The entries of a block that has those of its first node and those of the others. -/
def joined {α : Type} (first others : List (List Nat × α)) : List (List Nat × α) :=
  first.map (Prod.map (0 :: ·) id) ++ others.map (Prod.map behind id)

mutual

/-- A node and the nodes inside it, a loop before its body. The node itself is at the place
without an index. -/
def nodesWithin : Node → List (List Nat × Node)
  | .loop body => ([], .loop body) :: nodesAt body
  | node => [([], node)]

/-- The nodes of a block with their places. -/
def nodesAt : Block → List (List Nat × Node)
  | [] => []
  | node :: rest => joined (nodesWithin node) (nodesAt rest)

end

mutual

/-- The body of a node, if it is a loop, behind those inside it. -/
def bodiesWithin : Node → List (List Nat × Block)
  | .loop body => bodiesAt body ++ [([], body)]
  | _ => []

/-- The bodies of the loops in a block with their places. -/
def bodiesAt : Block → List (List Nat × Block)
  | [] => []
  | node :: rest => joined (bodiesWithin node) (bodiesAt rest)

end

/-- The blocks of a program with their places, the program itself last. -/
def blocksAt (program : Block) : List (List Nat × Block) :=
  bodiesAt program ++ [([], program)]

/-! ## Orders of places -/

/-- An order of places that first looks at the outermost index. -/
structure OutermostFirst (before : List Nat → List Nat → Prop) : Prop where
  irrefl : ∀ place, ¬ before place place
  inside : ∀ {place later : List Nat}, before place later → before (0 :: place) (0 :: later)
  shifted : ∀ {place later : List Nat}, before place later → before (behind place) (behind later)
  apart : ∀ (place : List Nat) {later : List Nat}, later ≠ [] → before (0 :: place) (behind later)

theorem outermostFirst_lex : OutermostFirst (List.Lex (· < ·)) where
  irrefl := List.lex_irrefl Nat.lt_irrefl
  inside before := .cons before
  shifted before := by
    cases before with
    | nil => exact .nil
    | rel less => exact .rel (Nat.succ_lt_succ less)
    | cons before => exact .cons before
  apart place later some := by
    obtain ⟨index, below, rfl⟩ := List.exists_cons_of_ne_nil some
    exact .rel (Nat.succ_pos index)

theorem outermostFirst_finishedBefore : OutermostFirst FinishedBefore where
  irrefl place := by
    intro before
    induction place with
    | nil => cases before
    | cons index place ih =>
      cases before with
      | earlier less => exact Nat.lt_irrefl index less
      | within _ before => exact ih before
  inside before := .within 0 before
  shifted before := by
    cases before with
    | inside index place => exact .inside _ _
    | earlier less place later => exact .earlier (Nat.succ_lt_succ less) _ _
    | within index before => exact .within _ before
  apart place later some := by
    obtain ⟨index, below, rfl⟩ := List.exists_cons_of_ne_nil some
    exact .earlier (Nat.succ_pos index) _ _

/-! ## Entries -/

section Entries

variable {α : Type} {entries first others : List (List Nat × α)} {place : List Nat} {value : α}

theorem mem_map_place {move : List Nat → List Nat} :
    (place, value) ∈ entries.map (Prod.map move id) ↔
      ∃ other, move other = place ∧ (other, value) ∈ entries := by
  simp only [List.mem_map, Prod.exists, Prod.map_apply, id_eq, Prod.mk.injEq]
  constructor
  · rintro ⟨other, _, among, same, rfl⟩
    exact ⟨other, same, among⟩
  · rintro ⟨other, same, among⟩
    exact ⟨other, value, among, same, rfl⟩

theorem mem_joined : (place, value) ∈ joined first others ↔
    (∃ below, 0 :: below = place ∧ (below, value) ∈ first) ∨
      ∃ later, behind later = place ∧ (later, value) ∈ others := by
  rw [joined, List.mem_append, mem_map_place, mem_map_place]

@[simp] theorem behind_eq_nil : behind place = [] ↔ place = [] := by
  cases place <;> simp [behind]

@[simp] theorem behind_ne_zero_cons {below : List Nat} : behind place ≠ 0 :: below := by
  cases place <;> simp [behind]

@[simp] theorem behind_eq_succ_cons {index : Nat} {below : List Nat} :
    behind place = (index + 1) :: below ↔ place = index :: below := by
  cases place <;> simp [behind]

theorem mem_joined_zero : (0 :: place, value) ∈ joined first others ↔ (place, value) ∈ first := by
  simp [mem_joined]

theorem mem_joined_succ {index : Nat} : ((index + 1) :: place, value) ∈ joined first others ↔
    (index :: place, value) ∈ others := by
  simp [mem_joined]

theorem nil_not_mem_joined (some : ([], value) ∉ others) : ([], value) ∉ joined first others := by
  simpa [mem_joined] using some

variable {before : List Nat → List Nat → Prop} {at? inner? others? : List Nat → Option α}

theorem Lists.of_ordered (order : OutermostFirst before)
    (ordered : entries.Pairwise fun entry later => before entry.1 later.1)
    (every : ∀ place value, (place, value) ∈ entries ↔ at? place = some value) :
    Lists at? before entries where
  ordered := ordered
  once := by
    refine List.pairwise_map.2 (ordered.imp ?_)
    intro entry later earlier same
    exact order.irrefl _ (same ▸ earlier)
  every := every

theorem Lists.ne_nil (lists : Lists at? before entries) (none : at? [] = none)
    {entry : List Nat × α} (among : entry ∈ entries) : entry.1 ≠ [] := by
  intro nil
  have found := (lists.every entry.1 entry.2).1 among
  rw [nil, none] at found
  cases found

theorem Lists.nil (order : OutermostFirst before) (none : ∀ place, at? place = none) :
    Lists at? before ([] : List (List Nat × α)) :=
  .of_ordered order .nil fun place value => by simp [none]

/-- The entries of a block are those inside its first node and those of the others. -/
theorem Lists.joined (order : OutermostFirst before)
    (listsFirst : Lists (fun place => at? (0 :: place)) before first)
    (listsOthers : Lists others? before others)
    (none : at? [] = none) (noneOthers : others? [] = .none)
    (shifted : ∀ index place, at? ((index + 1) :: place) = others? (index :: place)) :
    Lists at? before (joined first others) := by
  refine .of_ordered order ?_ ?_
  · rw [Program.joined, List.pairwise_append, List.pairwise_map, List.pairwise_map]
    refine ⟨listsFirst.ordered.imp order.inside, listsOthers.ordered.imp order.shifted, ?_⟩
    rw [List.forall_mem_map]
    intro entry _
    rw [List.forall_mem_map]
    intro later among
    -- A place without an index would not change behind the first node.
    exact order.apart entry.1 (listsOthers.ne_nil noneOthers among)
  · intro place value
    match place with
    | [] =>
      have absent : ([], value) ∉ others := fun among => listsOthers.ne_nil noneOthers among rfl
      exact iff_of_false (nil_not_mem_joined absent) (by simp [none])
    | 0 :: place => rw [mem_joined_zero, listsFirst.every]
    | (index + 1) :: place => rw [mem_joined_succ, shifted, listsOthers.every]

/-- At the places of a node there is the node itself and what is inside it. -/
theorem at_or_inside (none : inner? [] = none) (root : at? [] = some value)
    (inside : ∀ index place, at? (index :: place) = inner? (index :: place)) (place : List Nat)
    (other : α) : (place, other) = ([], value) ∨ inner? place = some other ↔
      at? place = some other := by
  rw [Prod.mk.injEq]
  cases place with
  | nil => simp [root, none, eq_comm]
  | cons index place => simp [inside]

/-- The entries inside a node behind that of the node itself. -/
theorem Lists.cons (order : OutermostFirst before) (lists : Lists inner? before entries)
    (none : inner? [] = none) (first : ∀ index place, before [] (index :: place))
    (root : at? [] = some value)
    (inside : ∀ index place, at? (index :: place) = inner? (index :: place)) :
    Lists at? before (([], value) :: entries) := by
  refine .of_ordered order ?_ ?_
  · refine List.pairwise_cons.2 ⟨fun entry among => ?_, lists.ordered⟩
    obtain ⟨index, place, shape⟩ := List.exists_cons_of_ne_nil (lists.ne_nil none among)
    rw [shape]
    exact first index place
  · intro place other
    rw [List.mem_cons, lists.every, at_or_inside none root inside]

/-- The entries inside a node in front of that of the node itself. -/
theorem Lists.concat (order : OutermostFirst before) (lists : Lists inner? before entries)
    (none : inner? [] = none) (last : ∀ index place, before (index :: place) [])
    (root : at? [] = some value)
    (inside : ∀ index place, at? (index :: place) = inner? (index :: place)) :
    Lists at? before (entries ++ [([], value)]) := by
  refine .of_ordered order ?_ ?_
  · refine List.pairwise_append.2 ⟨lists.ordered, List.pairwise_singleton _ _, ?_⟩
    intro entry among whole isWhole
    obtain ⟨index, place, shape⟩ := List.exists_cons_of_ne_nil (lists.ne_nil none among)
    rw [List.mem_singleton.1 isWhole, shape]
    exact last index place
  · intro place other
    rw [List.mem_append, List.mem_singleton, lists.every, or_comm,
      at_or_inside none root inside]

end Entries

/-! ## The order of a walk -/

theorem nodesWithin_of_not_loop {node : Node} (notLoop : ∀ body, node ≠ .loop body) :
    nodesWithin node = [([], node)] := by
  cases node with
  | loop body => exact absurd rfl (notLoop body)
  | _ => rfl

theorem nodeAt?_behind (node : Node) (rest : Block) (index : Nat) (place : List Nat) :
    nodeAt? (node :: rest) ((index + 1) :: place) = nodeAt? rest (index :: place) := by
  cases place <;> rfl

/-- Every node has one place, and the lexicographic order of the places is that of the nodes. -/
theorem lists_nodesAt (block : Block) :
    Lists (nodeAt? block) (List.Lex (· < ·)) (nodesAt block) := by
  have order : OutermostFirst (List.Lex (· < ·)) := outermostFirst_lex
  have outer (index : Nat) (place : List Nat) : List.Lex (· < ·) [] (index :: place) := .nil
  induction block using Node.block_induction with
  | nil =>
    refine .nil order fun place => ?_
    match place with
    | [] => rfl
    | [_] => rfl
    | _ :: _ :: _ => rfl
  | loop body rest ihBody ihRest =>
    have inside : Lists (fun place => nodeAt? (.loop body :: rest) (0 :: place))
        (List.Lex (· < ·)) (nodesWithin (.loop body)) :=
      ihBody.cons order rfl outer rfl fun _ _ => rfl
    exact inside.joined order ihRest rfl rfl (nodeAt?_behind _ rest)
  | single node rest notLoop ihRest =>
    have nowhere : Lists (fun _ => (none : Option Node)) (List.Lex (· < ·)) [] :=
      .nil order fun _ => rfl
    have inside : Lists (fun place => nodeAt? (node :: rest) (0 :: place))
        (List.Lex (· < ·)) (nodesWithin node) := by
      rw [nodesWithin_of_not_loop notLoop]
      refine nowhere.cons order rfl outer rfl fun index place => ?_
      cases node with
      | loop body => exact absurd rfl (notLoop body)
      | _ => rfl
    exact inside.joined order ihRest rfl rfl (nodeAt?_behind _ rest)

example : nodesAt [.loop [.move 1], .outputAt 0] =
    [([0], .loop [.move 1]), ([0, 0], .move 1), ([1], .outputAt 0)] :=
  rfl

@[simp] theorem length_behind (place : List Nat) : (behind place).length = place.length := by
  cases place <;> rfl

/-- The depth of a node is the number of loops that its place leads through. -/
theorem preorder_eq_map_nodesAt (depth : Nat) (block : Block) :
    preorder depth block =
      (nodesAt block).map fun entry => (depth + (entry.1.length - 1), entry.2) := by
  induction block using Node.block_induction generalizing depth with
  | nil => rfl
  | loop body rest ihBody ihRest =>
    have deeper : preorder (depth + 1) body =
        (nodesAt body).map fun entry => (depth + entry.1.length, entry.2) := by
      rw [ihBody]
      refine List.map_congr_left fun entry among => ?_
      have inside := List.length_pos_iff.2 ((lists_nodesAt body).ne_nil rfl among)
      rw [show depth + 1 + (entry.1.length - 1) = depth + entry.1.length by omega]
    rw [preorder_loop, deeper, ihRest]
    simp [nodesAt, nodesWithin, joined, Function.comp_def]
  | single node rest notLoop ihRest =>
    rw [preorder_of_not_loop notLoop, ihRest]
    simp [nodesAt, nodesWithin_of_not_loop notLoop, joined, Function.comp_def]

theorem walk_eq_map_nodesAt (program : Block) :
    walk program = (nodesAt program).map fun entry => (entry.1.length - 1, entry.2) := by
  rw [walk_eq_preorder, preorder_eq_map_nodesAt]
  simp only [Nat.zero_add]

/-! ## The order in which blocks are replaced -/

theorem bodiesWithin_of_not_loop {node : Node} (notLoop : ∀ body, node ≠ .loop body) :
    bodiesWithin node = [] := by
  cases node with
  | loop body => exact absurd rfl (notLoop body)
  | _ => rfl

/-- The body at a place: what is inside the loop there. -/
def bodyAt? (block : Block) : List Nat → Option Block
  | [] => none
  | index :: place => blockAt? block (index :: place)

theorem lists_bodiesAt (block : Block) :
    Lists (bodyAt? block) FinishedBefore (bodiesAt block) := by
  have order : OutermostFirst FinishedBefore := outermostFirst_finishedBefore
  induction block using Node.block_induction with
  | nil =>
    refine .nil order fun place => ?_
    cases place <;> rfl
  | loop body rest ihBody ihRest =>
    have inside : Lists (fun place => bodyAt? (.loop body :: rest) (0 :: place)) FinishedBefore
        (bodiesWithin (.loop body)) :=
      ihBody.concat order rfl .inside rfl fun _ _ => rfl
    exact inside.joined order ihRest rfl rfl fun _ _ => rfl
  | single node rest notLoop ihRest =>
    have inside : Lists (fun place => bodyAt? (node :: rest) (0 :: place)) FinishedBefore
        (bodiesWithin node) := by
      rw [bodiesWithin_of_not_loop notLoop]
      refine .nil order fun place => ?_
      cases node with
      | loop body => exact absurd rfl (notLoop body)
      | _ => rfl
    exact inside.joined order ihRest rfl rfl fun _ _ => rfl

/-- Every block has one place, and the blocks inside it and in earlier loops are finished before
it. -/
theorem lists_blocksAt (program : Block) :
    Lists (blockAt? program) FinishedBefore (blocksAt program) :=
  (lists_bodiesAt program).concat outermostFirst_finishedBefore rfl .inside rfl fun _ _ => rfl

example : blocksAt [.loop [.loop [], .move 1], .loop []] =
    [([0, 0], []), ([0], [.loop [], .move 1]), ([1], []),
      ([], [.loop [.loop [], .move 1], .loop []])] :=
  rfl

end TapeMachine.Program
