import TapeMachine.Optimize.Pipeline
import TapeMachine.Proofs.Program.Blocks

/-!
# Relations that are kept by everything programs are built with

A `Congruence` relates blocks whose parts it relates. If it relates a few neighbouring nodes and
what takes their place, it relates a block that is swept from left to right and what comes of
the sweep (`Congruence.sweep`), and then a program and what a pass makes of all its blocks
(`Congruence.apply`).
-/

namespace TapeMachine.Optimize

/-- A preorder on blocks that is kept by blocks in a row and by loops. -/
structure Congruence (R : Block → Block → Prop) : Prop where
  refl : ∀ p, R p p
  trans : ∀ {p q r}, R p q → R q r → R p r
  append : ∀ {p p' q q'}, R p p' → R q q' → R (p ++ q) (p' ++ q')
  loop : ∀ {p q}, R p q → R [.loop p] [.loop q]

namespace Congruence

variable {R : Block → Block → Prop} (congruence : Congruence R)
include congruence

theorem append_left (p : Block) {q q' : Block} (related : R q q') : R (p ++ q) (p ++ q') :=
  congruence.append (congruence.refl p) related

theorem append_right {p p' : Block} (related : R p p') (q : Block) : R (p ++ q) (p' ++ q) :=
  congruence.append related (congruence.refl q)

/-! ## Pushing a node -/

/-- Pushing a node without a change onto the finished ones, which are kept last first. -/
theorem push (finished : List Node) (node : Node) :
    R (finished.reverse ++ [node]) (node :: finished).reverse := by
  rw [List.reverse_cons]
  exact congruence.refl _

/-- Pushing a node in whose place others stand. -/
theorem push_alone {finished : List Node} {node : Node} {block : Block} (related : R [node] block) :
    R (finished.reverse ++ [node]) (block.reverse ++ finished).reverse := by
  rw [List.reverse_append, List.reverse_reverse]
  exact congruence.append_left finished.reverse related

/-- Pushing a node onto a last finished one, where others stand in the place of the two. -/
theorem push_pair {rest : List Node} {before node : Node} {block : Block}
    (related : R [before, node] block) :
    R ((before :: rest).reverse ++ [node]) (block.reverse ++ rest).reverse := by
  have split : (before :: rest).reverse ++ [node] = rest.reverse ++ [before, node] := by simp
  rw [split, List.reverse_append, List.reverse_reverse]
  exact congruence.append_left rest.reverse related

/-! ## Sweeps -/

/-- A sweep over a block whose finished part is some view of its state. -/
theorem foldl {σ : Type} (view : σ → Block) (push : σ → Node → σ)
    (pushed : ∀ state node, R (view state ++ [node]) (view (push state node)))
    (block : Block) (state : σ) : R (view state ++ block) (view (block.foldl push state)) := by
  induction block generalizing state with
  | nil =>
    rw [List.append_nil]
    exact congruence.refl _
  | cons node rest ih =>
    rw [List.foldl_cons, List.append_cons]
    exact congruence.trans (congruence.append_right (pushed state node) rest) (ih (push state node))

/-- A sweep that keeps its finished part as a list, last node first. -/
theorem sweep (push : List Node → Node → List Node)
    (pushed : ∀ finished node, R (finished.reverse ++ [node]) (push finished node).reverse)
    (block : Block) : R block (block.foldl push []).reverse :=
  congruence.foldl List.reverse push pushed block []

/-- Replacing each node of a block by some nodes. -/
theorem flatMap {replace : Node → Block} (each : ∀ node, R [node] (replace node))
    (block : Block) : R block (block.flatMap replace) := by
  induction block with
  | nil => exact congruence.refl []
  | cons node rest ih => exact congruence.append (each node) ih

end Congruence

/-! ## Loops without a loop -/

/-- A body that counts as clearing is a single odd addition. -/
theorem eq_of_clears {oddDeltas : Bool} {body : Block} (cleared : clears oddDeltas body = true) :
    ∃ delta : Int8, body = [.addAt 0 delta] ∧ delta.toInt % 2 ≠ 0 := by
  unfold clears at cleared
  split at cleared
  · rename_i delta
    refine ⟨delta, rfl, ?_⟩
    simp only [Bool.or_eq_true, Bool.and_eq_true, beq_iff_eq, bne_iff_ne] at cleared
    rcases cleared with (rfl | rfl) | ⟨_, odd⟩
    · decide
    · decide
    · exact odd
  · cases cleared

namespace Congruence

variable {R : Block → Block → Prop} (congruence : Congruence R)
include congruence

theorem clearing
    (clear : ∀ {delta : Int8}, delta.toInt % 2 ≠ 0 → R [.loop [.addAt 0 delta]] [.setAt 0 0])
    (oddDeltas : Bool) (node : Node) : R [node] [Optimize.clearing oddDeltas node] := by
  cases node with
  | loop body =>
    rw [Optimize.clearing]
    split
    · rename_i cleared
      obtain ⟨delta, rfl, odd⟩ := eq_of_clears cleared
      exact clear odd
    · exact congruence.refl _
  | _ => exact congruence.refl _

theorem pushAssigned
    (setAdd : ∀ (offset : Int) (value : UInt8) (delta : Int8),
      R [.setAt offset value, .addAt offset delta] [.setAt offset (value + delta.toUInt8)])
    (finished : List Node) (node : Node) :
    R (finished.reverse ++ [node]) (Optimize.pushAssigned finished node).reverse := by
  fun_cases Optimize.pushAssigned finished node with
  | case1 delta offset value rest => exact congruence.push_pair (setAdd offset value delta)
  | case2 offset delta lastOffset value rest elsewhere => exact congruence.push _ _
  | case3 notBoth => exact congruence.push finished node

/-- Assignments take the place of the loops that clear a cell, and swallow the additions that
follow them. -/
theorem assign
    (clear : ∀ {delta : Int8}, delta.toInt % 2 ≠ 0 → R [.loop [.addAt 0 delta]] [.setAt 0 0])
    (setAdd : ∀ (offset : Int) (value : UInt8) (delta : Int8),
      R [.setAt offset value, .addAt offset delta] [.setAt offset (value + delta.toUInt8)])
    (oddDeltas : Bool) (block : Block) : R block (Optimize.assign oddDeltas block) := by
  refine congruence.sweep
    (fun finished node => Optimize.pushAssigned finished (Optimize.clearing oddDeltas node))
    ?_ block
  intro finished node
  exact congruence.trans (congruence.append_left _ (congruence.clearing clear oddDeltas node))
    (congruence.pushAssigned setAdd finished _)

/-- Scans take the place of the loops that only move. -/
theorem scan (moves : ∀ delta, R [.loop [.move delta]] [.scanLoop delta]) (block : Block) :
    R block (Optimize.scan block) := by
  have mapped : Optimize.scan block = block.flatMap fun node => [scanning node] := by
    rw [Optimize.scan, List.map_eq_flatMap]
  rw [mapped]
  refine congruence.flatMap ?_ block
  intro node
  fun_cases scanning node with
  | case2 delta nonzero => exact moves delta
  | _ => exact congruence.refl _

/-! ## Passes -/

/-- What is related to every block of a program may take its place inside the program. -/
theorem replaceInEach {replace : Block → Block} (each : ∀ block, R block (replace block))
    (block : Block) : R block (Program.replaceInEach replace block) := by
  induction block using Node.block_induction with
  | nil => exact congruence.refl []
  | loop body rest ihBody ihRest =>
    -- Inside a loop first the blocks of its body are replaced, then the body.
    rw [Program.replaceInEach, Program.replaceInNode]
    exact congruence.append (congruence.loop (congruence.trans ihBody (each _))) ihRest
  | single node rest notLoop ihRest =>
    rw [Program.replaceInEach, Program.replaceInNode_of_not_loop replace notLoop]
    exact congruence.append_left [node] ihRest

/-- A pass relates programs if it relates blocks. -/
theorem apply {precision : Precision} {pass : Pass}
    (each : ∀ block, R block (pass.onBlock precision block)) (program : Block) :
    R program (pass.apply precision program) := by
  rw [Pass.apply, Program.mapBlocks_eq_replaceNested, Program.replaceNested]
  exact congruence.trans (congruence.replaceInEach each program) (each _)

end Congruence

end TapeMachine.Optimize
