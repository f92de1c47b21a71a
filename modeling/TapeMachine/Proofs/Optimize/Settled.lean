import Mathlib.Data.List.Chain
import TapeMachine.Proofs.Optimize.Rewriting
import TapeMachine.Proofs.Program.EveryBlock

/-!
# Blocks in which a pass has nothing left to do

For each pass there are nodes that it does not leave standing, and pairs of nodes that it does
not leave next to each other; a block without any of them is `Settled`. A pass settles every
block, and does not change a settled one. Sweeps keep what they have finished settled, node by
node (`settled_sweep`), and only push what they are handed onto settled nodes that it may
adjoin (`sweep_of_settled`).
-/

namespace TapeMachine

/-- Whether the pointer must be in place before a node. -/
def Node.isBarrier : Node → Bool
  | .loop _ | .scanLoop _ => true
  | _ => false

/-- Whether the number that movement changes in a node can be kept at a precision: its offset,
or the distance of a move. -/
def Node.Kept (precision : Precision) : Node → Prop
  | .addAt offset _ | .setAt offset _ | .mulAt offset _ _ | .outputAt offset | .inputAt offset =>
    precision.round offset = offset
  | .move delta => precision.round delta = delta
  | .loop _ | .scanLoop _ => True

namespace Optimize

/-! ## Neighbours -/

/-- Not both nodes are moves. -/
def MovesApart : Node → Node → Prop
  | .move _, .move _ => False
  | _, _ => True

/-- Not both nodes add to one cell. -/
def AddsApart : Node → Node → Prop
  | .addAt offset _, .addAt other _ => offset ≠ other
  | _, _ => True

/-- The second node does not add to a cell that the first assigns. -/
def SetsApart : Node → Node → Prop
  | .setAt offset _, .addAt other _ => offset ≠ other
  | _, _ => True

/-- If the first node is a move, the second needs the pointer in place. -/
def MovesToBarrier : Node → Node → Prop
  | .move _, next => next.isBarrier = true
  | _, _ => True

namespace Pass

/-- The nodes that a pass leaves standing. -/
def Accepts (precision : Precision) : Pass → Node → Prop
  | .mergeOperators, node => node ≠ .move 0 ∧ ∀ offset, node ≠ .addAt offset 0
  | .collapseAssignments oddDeltas, node =>
    ∀ body, node = .loop body → clears oddDeltas body = false
  | .collapseOffsets, _ => True
  | .deferMovements, node => node ≠ .move 0 ∧ node.Kept precision
  | .collapseMultiplications, node => ∀ body, node = .loop body → multiplication? body = none
  | .collapseMoves, node => node ≠ .move 0
  | .collapseScanLoops, node => ∀ delta, node = .loop [.move delta] → delta = 0

/-- The nodes that a pass leaves next to each other. -/
def Adjoins : Pass → Node → Node → Prop
  | .mergeOperators, before, next => AddsApart before next ∧ MovesApart before next
  | .collapseAssignments _, before, next => SetsApart before next
  | .collapseOffsets, before, next | .deferMovements, before, next => MovesToBarrier before next
  | .collapseMoves, before, next => MovesApart before next
  | .collapseMultiplications, _, _ | .collapseScanLoops, _, _ => True

/-- A block in which a pass has nothing to do, apart from what is inside its loops. -/
structure Settled (precision : Precision) (pass : Pass) (block : Block) : Prop where
  accepts : ∀ node ∈ block, pass.Accepts precision node
  adjoins : block.IsChain pass.Adjoins

/-! ## Sweeps -/

/-- Finished nodes, last first, that make a settled block. -/
structure Stacks (precision : Precision) (pass : Pass) (finished : List Node) : Prop where
  accepts : ∀ node ∈ finished, pass.Accepts precision node
  adjoins : finished.IsChain fun next before => pass.Adjoins before next

variable {precision : Precision} {pass : Pass} {finished : List Node} {node : Node}

theorem Stacks.settled (stack : pass.Stacks precision finished) :
    pass.Settled precision finished.reverse :=
  ⟨fun node among => stack.accepts node (List.mem_reverse.1 among),
    List.isChain_reverse.2 stack.adjoins⟩

/-- A node may be pushed if it is accepted and may adjoin the last finished one. -/
theorem stacks_cons : pass.Stacks precision (node :: finished) ↔
    pass.Accepts precision node ∧ (∀ last ∈ finished.head?, pass.Adjoins last node) ∧
      pass.Stacks precision finished := by
  constructor
  · rintro ⟨accepts, adjoins⟩
    rw [List.forall_mem_cons] at accepts
    rw [List.isChain_cons] at adjoins
    exact ⟨accepts.1, adjoins.1, accepts.2, adjoins.2⟩
  · rintro ⟨accepted, beside, accepts, adjoins⟩
    exact ⟨List.forall_mem_cons.2 ⟨accepted, accepts⟩, List.isChain_cons.2 ⟨beside, adjoins⟩⟩

/-- A sweep settles a block if each node that is pushed leaves the finished ones settled. -/
theorem settled_sweep {push : List Node → Node → List Node}
    (keeps : ∀ finished node, pass.Stacks precision finished →
      pass.Stacks precision (push finished node))
    (block : Block) : pass.Settled precision (block.foldl push []).reverse := by
  have stacked : ∀ finished, pass.Stacks precision finished →
      pass.Stacks precision (block.foldl push finished) := by
    induction block with
    | nil => exact fun _ stack => stack
    | cons node rest ih => exact fun finished stack => ih _ (keeps finished node stack)
  exact (stacked [] ⟨by simp, List.isChain_nil⟩).settled

/-- A sweep leaves a settled block as it is if it pushes every node that may adjoin the last
finished one. -/
theorem sweep_of_settled {push : List Node → Node → List Node}
    (pushes : ∀ finished node, pass.Accepts precision node →
      (∀ last ∈ finished.head?, pass.Adjoins last node) → push finished node = node :: finished)
    {block : Block} (settled : pass.Settled precision block) :
    (block.foldl push []).reverse = block := by
  have pushed : ∀ (block : Block) (finished : List Node),
      (∀ node ∈ block, pass.Accepts precision node) → block.IsChain pass.Adjoins →
        (∀ last ∈ finished.head?, ∀ first ∈ block.head?, pass.Adjoins last first) →
          block.foldl push finished = block.reverse ++ finished := by
    intro block
    induction block with
    | nil => intros; rfl
    | cons node rest ih =>
      intro finished accepts adjoins beside
      rw [List.isChain_cons] at adjoins
      have first := pushes finished node (accepts node List.mem_cons_self)
        (fun last among => beside last among node rfl)
      rw [List.foldl_cons, first, ih (node :: finished) (List.forall_mem_cons.1 accepts).2
        adjoins.2 ?_]
      · simp
      · intro last same
        cases same
        exact adjoins.1
  rw [pushed block [] settled.accepts settled.adjoins (by simp), List.append_nil,
    List.reverse_reverse]

/-- A pass replaces what is inside a program's loops by its own rule, then the program itself. -/
theorem apply_eq_replaceNested (pass : Pass) (program : Block) :
    pass.apply precision program = Program.replaceNested (pass.onBlock precision) program := by
  rw [Pass.apply, Program.mapBlocks_eq_replaceNested]

/-- A pass that joins moves. -/
def JoinsMoves (pass : Pass) : Prop :=
  pass = .mergeOperators ∨ pass = .collapseMoves

end Pass

open Pass

variable {precision : Precision} {pass : Pass} {finished : List Node} {node : Node}

/-! ## Moves and runs -/

theorem accepts_move (joins : pass.JoinsMoves) {delta : Int} (nonzero : delta ≠ 0) :
    pass.Accepts precision (.move delta) := by
  rcases joins with rfl | rfl <;> simp [Accepts, nonzero]

theorem adjoins_move (joins : pass.JoinsMoves) {last : Node} (notMove : ∀ delta, last ≠ .move delta)
    (delta : Int) : pass.Adjoins last (.move delta) := by
  rcases joins with rfl | rfl <;> cases last <;> simp_all [Adjoins, AddsApart, MovesApart]

theorem not_move_of_adjoins (joins : pass.JoinsMoves) {last : Node} {delta : Int}
    (adjoins : pass.Adjoins last (.move delta)) : ∀ before, last ≠ .move before := by
  rintro before rfl
  rcases joins with rfl | rfl
  · exact adjoins.2
  · exact adjoins

theorem stacks_pushMove (joins : pass.JoinsMoves) (stack : pass.Stacks precision finished)
    (delta : Int) : pass.Stacks precision (pushMove precision finished delta) := by
  fun_cases pushMove precision finished delta with
  | case1 before rest sum zero => exact (stacks_cons.1 stack).2.2
  | case2 before rest sum nonzero =>
    obtain ⟨_, beside, below⟩ := stacks_cons.1 stack
    refine stacks_cons.2 ⟨accepts_move joins nonzero, fun last among => ?_, below⟩
    exact adjoins_move joins (not_move_of_adjoins joins (beside last among)) sum
  | case3 notMove zero => exact stack
  | case4 _ nonzero =>
    rename_i notMove
    refine stacks_cons.2 ⟨accepts_move joins nonzero, fun last among => ?_, stack⟩
    refine adjoins_move joins ?_ delta
    rintro before rfl
    exact notMove before finished.tail (List.eq_cons_of_mem_head? among)

/-- A node that is no move may stand after every node where moves are joined. -/
theorem settled_sumMoves (block : Block) :
    Pass.collapseMoves.Settled precision (sumMoves precision block) := by
  refine settled_sweep (fun finished node stack => ?_) block
  cases node with
  | move delta => exact stacks_pushMove (.inr rfl) stack delta
  | _ =>
    refine stacks_cons.2 ⟨by simp [Accepts], fun last _ => ?_, stack⟩
    cases last <;> simp [Adjoins, MovesApart]

theorem pushMove_of_settled {delta : Int} (nonzero : delta ≠ 0)
    (apart : ∀ last ∈ finished.head?, MovesApart last (.move delta)) :
    pushMove precision finished delta = .move delta :: finished := by
  fun_cases pushMove precision finished delta with
  | case1 before rest | case2 before rest => exact (apart (.move before) rfl).elim
  | case3 _ zero => exact absurd zero nonzero
  | case4 => rfl

theorem sumMoves_of_settled {block : Block} (settled : Pass.collapseMoves.Settled precision block) :
    sumMoves precision block = block := by
  refine sweep_of_settled (fun finished node accepted beside => ?_) settled
  cases node with
  | move delta =>
    have nonzero : delta ≠ 0 := fun zero => accepted (by rw [zero])
    exact pushMove_of_settled nonzero beside
  | _ => rfl

theorem stacks_pushAdd (stack : Pass.mergeOperators.Stacks precision finished) (offset : Int)
    (delta : Int8) : Pass.mergeOperators.Stacks precision (pushAdd finished offset delta) := by
  have accepted : ∀ delta : Int8, delta ≠ 0 →
      Pass.mergeOperators.Accepts precision (.addAt offset delta) := by
    intro delta nonzero
    simp [Accepts, nonzero]
  -- Alone an addition is pushed if it adds something.
  have single : (∀ last ∈ finished.head?, ∀ before, last ≠ .addAt offset before) →
      Pass.mergeOperators.Stacks precision
        (if delta = 0 then finished else .addAt offset delta :: finished) := by
    intro elsewhere
    split
    · exact stack
    · rename_i nonzero
      refine stacks_cons.2 ⟨accepted delta nonzero, fun last among => ?_, stack⟩
      have other := elsewhere last among
      cases last <;> simp_all [Adjoins, AddsApart, MovesApart]
  fun_cases pushAdd finished offset delta with
  | case1 before rest zero => exact (stacks_cons.1 stack).2.2
  | case2 before rest nonzero =>
    obtain ⟨_, beside, below⟩ := stacks_cons.1 stack
    refine stacks_cons.2 ⟨accepted _ nonzero, fun last among => ?_, below⟩
    have apart := beside last among
    cases last <;> simp_all [Adjoins, AddsApart, MovesApart]
  | case3 lastOffset before rest elsewhere =>
    refine single fun last among other same => ?_
    cases among
    exact elsewhere (Node.addAt.inj same).1
  | case4 =>
    rename_i notAdd
    refine single fun last among before same => ?_
    rw [same] at among
    exact notAdd offset before finished.tail (List.eq_cons_of_mem_head? among)

theorem settled_mergeRuns (block : Block) :
    Pass.mergeOperators.Settled precision (mergeRuns precision block) := by
  refine settled_sweep (fun finished node stack => ?_) block
  cases node with
  | addAt offset delta => exact stacks_pushAdd stack offset delta
  | move delta => exact stacks_pushMove (.inl rfl) stack delta
  | _ =>
    refine stacks_cons.2 ⟨by simp [Accepts], fun last _ => ?_, stack⟩
    cases last <;> simp [Adjoins, MovesApart, AddsApart]

theorem mergeRuns_of_settled {block : Block}
    (settled : Pass.mergeOperators.Settled precision block) :
    mergeRuns precision block = block := by
  refine sweep_of_settled (fun finished node accepted beside => ?_) settled
  cases node with
  | addAt offset delta =>
    have nonzero : delta ≠ 0 := fun zero => accepted.2 offset (by rw [zero])
    rw [mergeRun]
    fun_cases pushAdd finished offset delta with
    | case1 before rest | case2 before rest => exact ((beside _ rfl).1 rfl).elim
    | case3 lastOffset before rest elsewhere => exact if_neg nonzero
    | case4 => exact if_neg nonzero
  | move delta =>
    have nonzero : delta ≠ 0 := fun zero => accepted.1 (by rw [zero])
    exact pushMove_of_settled nonzero fun last among => (beside last among).2
  | _ => rfl

/-! ## Assignments -/

theorem accepts_clearing (oddDeltas : Bool) (node : Node) :
    (Pass.collapseAssignments oddDeltas).Accepts precision (clearing oddDeltas node) := by
  cases node with
  | loop body =>
    rw [clearing]
    split
    · simp [Accepts]
    · simp_all [Accepts]
  | _ => simp [Accepts, clearing]

theorem settled_assign (oddDeltas : Bool) (block : Block) :
    (Pass.collapseAssignments oddDeltas).Settled precision (assign oddDeltas block) := by
  refine settled_sweep (fun finished node stack => ?_) block
  have accepted :
      (Pass.collapseAssignments oddDeltas).Accepts precision (clearing oddDeltas node) :=
    accepts_clearing oddDeltas node
  generalize clearing oddDeltas node = cleared at accepted ⊢
  fun_cases pushAssigned finished cleared with
  | case1 delta offset value rest =>
    obtain ⟨_, _, below⟩ := stacks_cons.1 stack
    refine stacks_cons.2 ⟨by simp [Accepts], fun last _ => ?_, below⟩
    cases last <;> simp [Adjoins, SetsApart]
  | case2 offset delta lastOffset value rest elsewhere =>
    refine stacks_cons.2 ⟨accepted, fun last among => ?_, stack⟩
    cases among
    exact elsewhere
  | case3 =>
    rename_i notBoth
    refine stacks_cons.2 ⟨accepted, fun last among => ?_, stack⟩
    show SetsApart last cleared
    fun_cases SetsApart last cleared with
    | case1 offset value other delta =>
      exact (notBoth other delta offset value finished.tail rfl
        (List.eq_cons_of_mem_head? among)).elim
    | case2 => trivial

theorem assign_of_settled {oddDeltas : Bool} {block : Block}
    (settled : (Pass.collapseAssignments oddDeltas).Settled precision block) :
    assign oddDeltas block = block := by
  refine sweep_of_settled (fun finished node accepted beside => ?_) settled
  have kept : clearing oddDeltas node = node := by
    cases node with
    | loop body => rw [clearing, accepted body rfl, if_neg (by decide)]
    | _ => rfl
  rw [kept]
  fun_cases pushAssigned finished node with
  | case1 delta offset value rest => exact (beside _ rfl rfl).elim
  | case2 | case3 => rfl

/-! ## Offsets -/

theorem shift?_eq_none_iff {precision : Precision} {distance : Int} {node : Node} :
    node.shift? precision distance = none ↔
      node.isBarrier = true ∨ ∃ delta, node = .move delta := by
  cases node <;> simp [Node.shift?, Node.isBarrier]

theorem movesToBarrier_of_not_move {before : Node} (notMove : ∀ delta, before ≠ .move delta)
    (next : Node) : MovesToBarrier before next := by
  cases before with
  | move delta => exact absurd rfl (notMove delta)
  | _ => trivial

/-- A move is no barrier, so that no move stands in front of one. -/
theorem not_move_of_movesToBarrier {before : Node} {delta : Int}
    (adjoins : MovesToBarrier before (.move delta)) : ∀ other, before ≠ .move other := by
  rintro other rfl
  cases adjoins

/-- A shifted node is no move. -/
theorem not_move_of_shift? {distance : Int} {node shifted : Node}
    (shifts : node.shift? precision distance = some shifted) : ∀ delta, shifted ≠ .move delta := by
  rintro delta rfl
  cases node <;> simp [Node.shift?] at shifts

theorem settled_absorbMoves (block : Block) :
    Pass.collapseOffsets.Settled precision (absorbMoves precision block) := by
  refine settled_sweep (fun finished node stack => ?_) block
  fun_cases absorbMove precision finished node with
  | case1 delta before rest sum zero => exact (stacks_cons.1 stack).2.2
  | case2 delta before rest sum nonzero =>
    obtain ⟨_, beside, below⟩ := stacks_cons.1 stack
    refine stacks_cons.2 ⟨trivial, fun last among => ?_, below⟩
    exact movesToBarrier_of_not_move (not_move_of_movesToBarrier (beside last among)) _
  | case3 node before rest shifted shifts =>
    obtain ⟨_, beside, below⟩ := stacks_cons.1 stack
    simp only [shifts]
    refine stacks_cons.2 ⟨trivial, ?_, stacks_cons.2 ⟨trivial, fun last among => ?_, below⟩⟩
    · rintro last same
      cases same
      exact movesToBarrier_of_not_move (not_move_of_shift? shifts) _
    · exact movesToBarrier_of_not_move (not_move_of_movesToBarrier (beside last among)) _
  | case4 node before rest stays =>
    rename_i notMove
    simp only [stays]
    refine stacks_cons.2 ⟨trivial, fun last among => ?_, stack⟩
    cases among
    rcases shift?_eq_none_iff.1 stays with barrier | ⟨delta, same⟩
    · exact barrier
    · exact (notMove delta same).elim
  | case5 =>
    rename_i notMove _
    refine stacks_cons.2 ⟨trivial, fun last among => movesToBarrier_of_not_move ?_ node, stack⟩
    rintro before rfl
    exact notMove before finished.tail (List.eq_cons_of_mem_head? among)

theorem absorbMoves_of_settled {block : Block}
    (settled : Pass.collapseOffsets.Settled precision block) :
    absorbMoves precision block = block := by
  refine sweep_of_settled (fun finished node _ beside => ?_) settled
  fun_cases absorbMove precision finished node with
  | case1 delta before rest | case2 delta before rest => cases beside _ rfl
  | case3 node before rest shifted shifts =>
    have barrier : node.isBarrier = true := beside _ rfl
    rw [shift?_eq_none_iff.2 (.inl barrier)] at shifts
    cases shifts
  | case4 node before rest stays => simp only [stays]
  | case5 => rfl

/-! ## Loops without a loop -/

theorem multiplied_of_accepts (accepted : Pass.collapseMultiplications.Accepts precision node) :
    multiplied node = [node] := by
  cases node with
  | loop body =>
    rw [multiplied, accepted body rfl]
    rfl
  | _ => rfl

/-- What stands for a counting loop: the products of its net additions, and an assignment. -/
theorem exists_products {body replaced : Block} (found : multiplication? body = some replaced) :
    ∃ deltas negate, netDeltas body = some deltas ∧
      (deltas.get 0 = -1 ∨ deltas.get 0 = 1) ∧
        replaced = products negate deltas ++ [.setAt 0 0] := by
  obtain ⟨deltas, net, found⟩ := Option.bind_eq_some_iff.1 found
  split at found
  · rename_i down
    exact ⟨deltas, false, net, .inl down, (Option.some.inj found).symm⟩
  · split at found
    · rename_i up
      exact ⟨deltas, true, net, .inr up, (Option.some.inj found).symm⟩
    · cases found

theorem kind_of_mem_products {negate : Bool} {deltas : NetDeltas}
    (among : node ∈ products negate deltas) : node.kind = .mulAt := by
  obtain ⟨entry, _, becomes⟩ := List.mem_filterMap.1 among
  simp only [Option.ite_none_left_eq_some] at becomes
  rw [← Option.some.inj becomes.2]
  rfl

/-- No loop stands for a counting loop. -/
theorem not_loop_of_multiplication? {body replaced : Block}
    (found : multiplication? body = some replaced) (inner : Block) : .loop inner ∉ replaced := by
  obtain ⟨deltas, negate, _, _, rfl⟩ := exists_products found
  intro among
  rcases List.mem_append.1 among with product | assignment
  · cases kind_of_mem_products product
  · simp at assignment

/-- The loops that are left are those that no products stand for. -/
theorem loop_mem_multiplied {body : Block} (among : .loop body ∈ multiplied node) :
    node = .loop body ∧ multiplication? body = none := by
  cases node with
  | loop inner =>
    rw [multiplied] at among
    cases found : multiplication? inner with
    | none =>
      rw [found, Option.getD_none, List.mem_singleton] at among
      cases among
      exact ⟨rfl, found⟩
    | some replaced =>
      rw [found, Option.getD_some] at among
      exact absurd among (not_loop_of_multiplication? found body)
  | _ => simp [multiplied] at among

theorem settled_multiply_iff {block : Block} :
    Pass.collapseMultiplications.Settled precision block ↔
      ∀ body, .loop body ∈ block → multiplication? body = none := by
  constructor
  · intro settled body among
    exact settled.accepts _ among body rfl
  · intro each
    refine ⟨?_, (List.pairwise_of_forall fun _ _ => trivial).isChain⟩
    rintro node among body rfl
    exact each body among

theorem settled_multiply (block : Block) :
    Pass.collapseMultiplications.Settled precision (multiply block) := by
  refine settled_multiply_iff.2 fun body among => ?_
  obtain ⟨original, _, becomes⟩ := List.mem_flatMap.1 among
  exact (loop_mem_multiplied becomes).2

theorem multiply_of_settled {block : Block}
    (settled : Pass.collapseMultiplications.Settled precision block) : multiply block = block := by
  rw [multiply, List.flatMap_congr fun node among =>
    multiplied_of_accepts (settled.accepts node among)]
  exact List.flatMap_singleton' block

theorem accepts_scanning (node : Node) :
    Pass.collapseScanLoops.Accepts precision (scanning node) := by
  intro delta same
  unfold scanning at same
  split at same
  · rename_i distance
    split at same
    · rename_i zero
      cases same
      exact zero
    · cases same
  · rename_i notScan
    exact absurd same (notScan delta)

theorem settled_scan (block : Block) : Pass.collapseScanLoops.Settled precision (scan block) := by
  refine ⟨fun node among => ?_, (List.pairwise_of_forall fun _ _ => trivial).isChain⟩
  obtain ⟨original, _, rfl⟩ := List.mem_map.1 among
  exact accepts_scanning original

theorem scan_of_settled {block : Block}
    (settled : Pass.collapseScanLoops.Settled precision block) : scan block = block := by
  rw [scan, List.map_congr_left (g := id) fun node among => ?_, List.map_id]
  have accepted := settled.accepts node among
  fun_cases scanning node with
  | case1 => rfl
  | case2 delta nonzero => exact absurd (accepted delta rfl) nonzero
  | case3 => rfl

end Optimize

end TapeMachine
