import TapeMachine.Program.Nested

/-!
# Replacing the blocks of a program

The walk with an explicit list of unfinished blocks replaces them like the
recursion on the nesting of the program.
-/

namespace TapeMachine

theorem Node.loop_or_not (node : Node) :
    (∃ body, node = .loop body) ∨ ∀ body, node ≠ .loop body := by
  cases node with
  | loop body => exact .inl ⟨body, rfl⟩
  | _ => exact .inr fun _ same => nomatch same

namespace Program

variable {m : Type → Type} [Monad m]

/-! ## Nodes that hold no block -/

theorem replaceInNodeM_of_not_loop (replace : Block → m Block) {node : Node}
    (notLoop : ∀ body, node ≠ .loop body) : replaceInNodeM replace node = pure node := by
  cases node with
  | loop body => exact absurd rfl (notLoop body)
  | _ => simp only [replaceInNodeM]

theorem replaceInNode_of_not_loop (replace : Block → Block) {node : Node}
    (notLoop : ∀ body, node ≠ .loop body) : replaceInNode replace node = node := by
  cases node with
  | loop body => exact absurd rfl (notLoop body)
  | _ => simp only [replaceInNode]

theorem mapBlocksFrom_of_not_loop (replace : Block → m Block) {node : Node}
    (notLoop : ∀ body, node ≠ .loop body) (rest finished : Block) (outer : List SetAside) :
    mapBlocksFrom replace (node :: rest) finished outer =
      mapBlocksFrom replace rest (node :: finished) outer := by
  cases node with
  | loop body => exact absurd rfl (notLoop body)
  | _ =>
    rw [mapBlocksFrom]
    intro body same
    cases same

/-! ## The walk and the recursion -/

variable [LawfulMonad m]

/-- The walk first does what the recursion does to the nodes still to come. -/
theorem mapBlocksFrom_eq (replace : Block → m Block) (pending finished : Block)
    (outer : List SetAside) :
    mapBlocksFrom replace pending finished outer =
      replaceInEachM replace pending >>= fun inner =>
        mapBlocksFrom replace [] (inner.reverse ++ finished) outer := by
  induction pending using Node.block_induction generalizing finished outer with
  | nil => simp [replaceInEachM]
  | loop body rest ihBody ihRest =>
    -- The walk of the body ends by putting the loop in front of the finished nodes.
    have closes : ∀ inner : Block,
        mapBlocksFrom replace [] (inner.reverse ++ []) (⟨rest, finished⟩ :: outer) =
          replace inner >>= fun block =>
            mapBlocksFrom replace rest (.loop block :: finished) outer := by
      intro inner
      rw [mapBlocksFrom]
      simp
    rw [mapBlocksFrom, ihBody]
    simp only [closes, ihRest]
    simp [replaceInEachM, replaceInNodeM]
  | single node rest notLoop ihRest =>
    rw [mapBlocksFrom_of_not_loop replace notLoop, ihRest]
    simp [replaceInEachM, replaceInNodeM_of_not_loop replace notLoop]

/-- The walk replaces blocks like the recursion, with the same effects in the same
order. -/
theorem mapBlocksM_eq_replaceNestedM (replace : Block → m Block) (program : Block) :
    mapBlocksM replace program = replaceNestedM replace program := by
  have ends : ∀ inner : Block,
      mapBlocksFrom replace [] (inner.reverse ++ []) [] = replace inner := by
    intro inner
    rw [mapBlocksFrom]
    simp
  rw [mapBlocksM, mapBlocksFrom_eq, replaceNestedM]
  simp only [ends]

/-- Without effects the recursion is the plain one. -/
theorem replaceInEachM_pure (replace : Block → Block) (block : Block) :
    replaceInEachM (m := m) (fun inner => pure (replace inner)) block =
      pure (replaceInEach replace block) := by
  induction block using Node.block_induction with
  | nil => simp [replaceInEachM, replaceInEach]
  | loop body rest ihBody ihRest =>
    simp [replaceInEachM, replaceInNodeM, replaceInEach, replaceInNode, ihBody, ihRest]
  | single node rest notLoop ihRest =>
    simp [replaceInEachM, replaceInNodeM_of_not_loop _ notLoop, replaceInEach,
      replaceInNode_of_not_loop replace notLoop, ihRest]

/-- The walk with a plain function is the plain recursion. -/
theorem mapBlocks_eq_replaceNested (replace : Block → Block) (program : Block) :
    mapBlocks replace program = replaceNested replace program := by
  rw [mapBlocks, mapBlocksM_eq_replaceNestedM, replaceNestedM, replaceInEachM_pure]
  rfl

end Program

end TapeMachine
