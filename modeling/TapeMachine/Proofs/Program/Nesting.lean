import TapeMachine.Proofs.Program.EveryBlock
import TapeMachine.Proofs.Program.Places
import TapeMachine.Proofs.Program.Turns

/-!
# Walks by the nesting of a program

Replacing the blocks of a program is a recursion on its nesting, whatever effects a replacement
has (`mapBlocksM_eq_mapM`), and there is no other that does the same with the blocks inside a block
(`eq_mapBlocksM`). A replacement that also notes down what it is handed over shows that it is called
once for every block (`Foreseen.run_mapBlocksM`). With the turns that the loops take and the places
that they come to, both walks are determined (`followsNesting`).
-/

namespace TapeMachine

namespace Node

/-- A node whose body is changed if it is a loop. -/
def mapBody (change : Block → Block) : Node → Node
  | .loop body => .loop (change body)
  | node => node

/-- A node whose body is changed with effects if it is a loop. -/
def mapBodyM {m : Type → Type} [Monad m] (change : Block → m Block) : Node → m Node
  | .loop body => return .loop (← change body)
  | node => return node

theorem mapBodyM_of_not_loop {m : Type → Type} [Monad m] (change : Block → m Block) {node : Node}
    (notLoop : ∀ body, node ≠ .loop body) : node.mapBodyM change = pure node := by
  cases node with
  | loop body => exact absurd rfl (notLoop body)
  | _ => rfl

end Node

namespace Program

/-! ## The recursions -/

section Recursions

variable {m : Type → Type} [Monad m] [LawfulMonad m] (replace : Block → m Block)

theorem replaceInNodeM_eq_mapBodyM (node : Node) :
    replaceInNodeM replace node = node.mapBodyM (replaceNestedM replace) := by
  cases node with
  | loop body => simp [replaceInNodeM, Node.mapBodyM, replaceNestedM]
  | _ => rfl

theorem replaceInEachM_eq_mapM (block : Block) :
    replaceInEachM replace block = block.mapM (Node.mapBodyM (replaceNestedM replace)) := by
  induction block with
  | nil => rw [replaceInEachM, List.mapM_nil]
  | cons node rest ih =>
    rw [replaceInEachM, List.mapM_cons, ih, replaceInNodeM_eq_mapBodyM]

/-- Replacing the blocks of a program is replacing those in its loops, from left to right, and
then the program. -/
theorem mapBlocksM_eq_mapM (program : Block) :
    mapBlocksM replace program =
      program.mapM (Node.mapBodyM (mapBlocksM replace)) >>= replace := by
  have same : mapBlocksM replace = replaceNestedM replace :=
    funext fun inner => mapBlocksM_eq_replaceNestedM replace inner
  rw [same, replaceNestedM, replaceInEachM_eq_mapM]

/-- There is but one recursion that does so. -/
theorem eq_mapBlocksM {recursion : Block → m Block}
    (nested : ∀ block, recursion block = block.mapM (Node.mapBodyM recursion) >>= replace) :
    recursion = mapBlocksM replace := by
  -- The recursion is only asked about the bodies in a block, so an induction on the block will do.
  have inside (block : Block) :
      block.mapM (Node.mapBodyM recursion) = replaceInEachM replace block := by
    induction block using Node.block_induction with
    | nil => rw [replaceInEachM, List.mapM_nil]
    | loop body rest ihBody ihRest =>
      rw [List.mapM_cons, replaceInEachM, ihRest, Node.mapBodyM, nested, ihBody]
      simp [replaceInNodeM]
    | single node rest notLoop ihRest =>
      rw [List.mapM_cons, replaceInEachM, ihRest, Node.mapBodyM_of_not_loop _ notLoop,
        replaceInNodeM_of_not_loop _ notLoop]
  funext block
  rw [nested, inside, mapBlocksM_eq_replaceNestedM, replaceNestedM]

end Recursions

section Plain

variable {m : Type → Type} [Monad m] [LawfulMonad m]

/-- Without effects the bodies are changed by a plain function. -/
theorem mapM_mapBodyM_pure (change : Block → Block) (block : Block) :
    block.mapM (m := m) (Node.mapBodyM fun inner => pure (change inner)) =
      pure (block.map (Node.mapBody change)) := by
  have alike : (Node.mapBodyM fun inner => pure (change inner)) =
      fun node => (pure (node.mapBody change) : m Node) := by
    funext node
    cases node with
    | loop body => simp [Node.mapBodyM, Node.mapBody]
    | _ => rfl
  rw [alike, List.mapM_pure]

theorem mapBlocks_eq_map (replace : Block → Block) (program : Block) :
    mapBlocks replace program = replace (program.map (Node.mapBody (mapBlocks replace))) := by
  have effects : mapBlocksM (m := Id) (fun block => pure (replace block)) =
      fun block => pure (mapBlocks replace block) :=
    rfl
  have nested := mapBlocksM_eq_mapM (m := Id) (fun block => pure (replace block)) program
  rw [effects, mapM_mapBodyM_pure] at nested
  exact nested

theorem eq_mapBlocks {replace recursion : Block → Block}
    (nested : ∀ block, recursion block = replace (block.map (Node.mapBody recursion))) :
    recursion = mapBlocks replace := by
  have effects : (fun block => pure (recursion block)) =
      mapBlocksM (m := Id) fun block => pure (replace block) := by
    apply eq_mapBlocksM
    intro block
    rw [mapM_mapBodyM_pure, nested, pure_bind]
  exact effects

/-- What a block is handed over as: the block with the blocks inside it replaced. -/
theorem replaceInEach_eq_mapBody (replace : Block → Block) (block : Block) :
    replaceInEach replace block = block.map (Node.mapBody (mapBlocks replace)) := by
  rw [replaceInEach_eq_map]
  refine List.map_congr_left fun node _ => ?_
  cases node with
  | loop body => rw [replaceInNode, Node.mapBody, mapBlocks_eq_replaceNested, replaceNested]
  | _ => rfl

end Plain

/-! ## The blocks that are handed over -/

/-- A block without what is inside its loops. -/
def outline (block : Block) : Block :=
  block.map (Node.mapBody fun _ => [])

section Noting

variable {m : Type → Type} [Monad m] {α β γ : Type}

/-- Replaces a block and notes down how it looks when it is handed over. -/
def noting (view : Block → β) (replace : Block → m Block) (block : Block) :
    StateT (List β) m Block := do
  modify (· ++ [view block])
  replace block

/-- How a block looks once the blocks inside it are replaced is known beforehand. -/
def Foreseen (replace : Block → m Block) (view shown : Block → β) : Prop :=
  ∀ block, (fun inner => (inner, view inner)) <$> replaceInEachM replace block =
    (fun inner => (inner, shown block)) <$> replaceInEachM replace block

variable [LawfulMonad m]

theorem run_noting (view : Block → β) (replace : Block → m Block) (block : Block)
    (noted : List β) : (noting view replace block).run noted =
      (fun new => (new, noted ++ [view block])) <$> replace block := by
  simp [noting]

/-- Where two functions see the same in a value, one may go on with what the other sees. -/
theorem bind_of_map_eq {first : m α} {view shown : α → β}
    (same : (fun value => (value, view value)) <$> first =
      (fun value => (value, shown value)) <$> first) (next : α → β → m γ) :
    (first >>= fun value => next value (view value)) =
      first >>= fun value => next value (shown value) := by
  have after := congrArg (· >>= fun seen => next seen.1 seen.2) same
  simpa only [bind_map_left] using after

/-- The blocks inside a block are noted down in the order of their places. -/
theorem Foreseen.run_replaceInEachM {replace : Block → m Block} {view shown : Block → β}
    (foreseen : Foreseen replace view shown) (block : Block) (noted : List β) :
    (replaceInEachM (noting view replace) block).run noted =
      (fun inner => (inner, noted ++ (bodiesAt block).map fun entry => shown entry.2)) <$>
        replaceInEachM replace block := by
  induction block using Node.block_induction generalizing noted with
  | nil => simp [replaceInEachM, bodiesAt]
  | loop body rest ihBody ihRest =>
    -- What the body is handed over as differs from run to run, but not what the view shows of it.
    have handed := bind_of_map_eq (foreseen body) fun inner seen => replace inner >>= fun new =>
      (fun others => (.loop new :: others,
        noted ++ ((bodiesAt body).map fun entry => shown entry.2) ++
          seen :: (bodiesAt rest).map fun entry => shown entry.2)) <$> replaceInEachM replace rest
    simpa [replaceInEachM, replaceInNodeM, run_noting, ihBody, ihRest, bodiesAt, bodiesWithin,
      joined, Function.comp_def] using handed
  | single node rest notLoop ihRest =>
    simp [replaceInEachM, replaceInNodeM_of_not_loop _ notLoop, ihRest, bodiesAt,
      bodiesWithin_of_not_loop notLoop, joined, Function.comp_def]

/-- Every block is noted down once, behind those inside it and those in earlier loops. -/
theorem Foreseen.run_mapBlocksM {replace : Block → m Block} {view shown : Block → β}
    (foreseen : Foreseen replace view shown) (program : Block) :
    (mapBlocksM (noting view replace) program).run [] =
      (fun new => (new, (blocksAt program).map fun entry => shown entry.2)) <$>
        mapBlocksM replace program := by
  have handed := bind_of_map_eq (foreseen program) fun inner seen =>
    (fun new => (new, ((bodiesAt program).map fun entry => shown entry.2) ++ [seen])) <$>
      replace inner
  rw [mapBlocksM_eq_replaceNestedM, mapBlocksM_eq_replaceNestedM]
  simpa [replaceNestedM, run_noting, foreseen.run_replaceInEachM, blocksAt] using handed

/-- Replacing the blocks inside a block changes no more than the bodies of its loops. -/
theorem foreseen_outline (replace : Block → m Block) : Foreseen replace outline outline := by
  intro block
  induction block using Node.block_induction with
  | nil => simp [replaceInEachM]
  | loop body rest ihBody ihRest =>
    -- Whatever becomes of the body, the outline of its loop is empty.
    have others (new : Block) := bind_of_map_eq ihRest fun inner seen =>
      (pure (.loop new :: inner, .loop [] :: seen) : m (Block × Block))
    simpa [replaceInEachM, replaceInNodeM, outline, Node.mapBody] using
      congrArg (fun next => (replaceInEachM replace body >>= replace) >>= next) (funext others)
  | single node rest notLoop ihRest =>
    have others := bind_of_map_eq ihRest fun inner seen =>
      (pure (node :: inner, node.mapBody (fun _ => []) :: seen) : m (Block × Block))
    simpa [replaceInEachM, replaceInNodeM_of_not_loop _ notLoop, outline] using others

/-- Without effects a block is handed over with the blocks inside it replaced. -/
theorem foreseen_pure (replace : Block → Block) :
    Foreseen (m := m) (fun block => pure (replace block)) id
      fun block => block.map (Node.mapBody (mapBlocks replace)) := by
  intro block
  simp [replaceInEachM_pure, replaceInEach_eq_mapBody]

end Noting

/-- What a plain function is handed over. -/
theorem run_mapBlocksM_pure (replace : Block → Block) (program : Block) :
    (mapBlocksM (m := StateM (List Block)) (noting id fun block => pure (replace block))
        program).run [] =
      (mapBlocks replace program,
        (blocksAt program).map fun entry => entry.2.map (Node.mapBody (mapBlocks replace))) :=
  (foreseen_pure (m := Id) replace).run_mapBlocksM program

/-! ## Both walks -/

/-- Replacing the blocks of programs is a recursion on their nesting. -/
structure ReplacesNested (m : Type → Type) [Monad m] : Prop where
  /-- However a program is nested, the loop is done with it one turn after those of its nodes. -/
  ends : ∀ (replace : Block → m Block) (program : Block) (count : Nat), turns program < count →
    replaceWithin replace count [.start program] = some <$> mapBlocksM replace program
  /-- The bodies of the loops in a program are replaced from left to right, and then the program
  is. -/
  nested : ∀ (replace : Block → m Block) (program : Block),
    mapBlocksM replace program = program.mapM (Node.mapBodyM (mapBlocksM replace)) >>= replace
  only : ∀ replace recursion : Block → m Block,
    (∀ block, recursion block = block.mapM (Node.mapBodyM recursion) >>= replace) →
      recursion = mapBlocksM replace
  plain : ∀ (replace : Block → Block) (program : Block),
    mapBlocks replace program = replace (program.map (Node.mapBody (mapBlocks replace)))
  plainOnly : ∀ replace recursion : Block → Block,
    (∀ block, recursion block = replace (block.map (Node.mapBody recursion))) →
      recursion = mapBlocks replace
  /-- Every block is handed over once, behind those inside it and those in earlier loops, and up to
  then only the bodies of its loops have changed. -/
  handed : ∀ program, ∃ blocks, Lists (blockAt? program) FinishedBefore blocks ∧
    (∀ replace : Block → m Block,
      (mapBlocksM (noting outline replace) program).run [] =
        (fun new => (new, blocks.map fun entry => outline entry.2)) <$>
          mapBlocksM replace program) ∧
    ∀ replace : Block → Block,
      (mapBlocksM (m := StateM (List Block)) (noting id fun block => pure (replace block))
          program).run [] =
        (mapBlocks replace program,
          blocks.map fun entry => entry.2.map (Node.mapBody (mapBlocks replace)))

/-- A walk through a program visits its nodes in the order in which they are written. -/
structure WalksInOrder (program : Block) : Prop where
  /-- The loop is done one turn after those of the nodes, and not before. -/
  ends : ∀ count, walkWithin count [⟨program, 0⟩] =
    if turns program < count then some (walk program) else none
  nested : walk program = preorder 0 program
  /-- Every node is visited once, with the number of loops around it. -/
  visited : ∃ nodes, Lists (nodeAt? program) (List.Lex (· < ·)) nodes ∧
    walk program = nodes.map fun entry => (entry.1.length - 1, entry.2)

/-- Both walks with a stack of unfinished blocks do what recursions on the nesting of a program
do. -/
theorem followsNesting (m : Type → Type) [Monad m] [LawfulMonad m] :
    ReplacesNested m ∧ ∀ program, WalksInOrder program := by
  refine ⟨?_, fun program => ?_⟩
  · constructor
    case ends =>
      intro replace program count enough
      have left : openTurns [.start program] ≤ count := by
        rw [openTurns, OpenBlock.rest_start, List.map_nil, turnsLeft, turnsLeft]
        omega
      rw [replaceWithin_eq replace left, close, OpenBlock.rest_start]
      rfl
    case nested => exact mapBlocksM_eq_mapM
    case only => exact fun replace recursion nested => eq_mapBlocksM replace nested
    case plain => exact mapBlocks_eq_map
    case plainOnly => exact fun replace recursion nested => eq_mapBlocks nested
    case handed =>
      intro program
      refine ⟨blocksAt program, lists_blocksAt program, fun replace => ?_, fun replace => ?_⟩
      · exact (foreseen_outline replace).run_mapBlocksM program
      · exact run_mapBlocksM_pure replace program
  · constructor
    case ends =>
      intro count
      rw [walkWithin_eq, List.map_singleton, Cursor.rest_start]
      rfl
    case nested => exact walk_eq_preorder program
    case visited => exact ⟨nodesAt program, lists_nodesAt program, walk_eq_map_nodesAt program⟩

theorem followsNesting_reversing :
    LawfulMonad (StateM (List Block)) ∧
      (replaceWithin (m := StateM (List Block)) (noting id fun block => pure block.reverse) 8
          [.start [.addAt 0 1, .loop [.move 1, .loop []], .outputAt 0]]).run [] =
        (some [.outputAt 0, .loop [.loop [], .move 1], .addAt 0 1],
          [[], [.move 1, .loop []], [.addAt 0 1, .loop [.loop [], .move 1], .outputAt 0]]) := by
  refine ⟨inferInstance, ?_⟩
  have enough : turns [.addAt 0 1, .loop [.move 1, .loop []], .outputAt 0] < 8 := by
    simp [turns_single]
  obtain ⟨replaces, -⟩ := followsNesting (StateM (List Block))
  rw [replaces.ends _ _ _ enough, mapBlocksM_eq_replaceNestedM]
  rfl

end Program

end TapeMachine
