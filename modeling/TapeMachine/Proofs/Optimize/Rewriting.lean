import TapeMachine.Proofs.Optimize.Congruence

/-!
# The optimizer as rewriting

Every pass is made of small steps that replace a few neighbouring nodes, here
called rewrites; movement is summed at some precision. A block that is swept from
left to right is rewritten because each node that is pushed onto the finished part
is (`Congruence.foldl`). So a whole program is rewritten into its optimized form
(`rewrites_optimize`), and what every rewrite keeps, the optimizer keeps.
-/

namespace TapeMachine.Optimize

/-- One block can be rewritten into another: by single rewrites, one after the
other and anywhere in the block. -/
inductive Rewrites (precision : Precision) : Block → Block → Prop
  | refl (p : Block) : Rewrites precision p p
  | trans {p q r : Block} : Rewrites precision p q → Rewrites precision q r →
      Rewrites precision p r
  | append {p p' q q' : Block} : Rewrites precision p p' → Rewrites precision q q' →
      Rewrites precision (p ++ q) (p' ++ q')
  | loop {p q : Block} : Rewrites precision p q → Rewrites precision [.loop p] [.loop q]
  /-- Two additions to one cell are one. -/
  | addAdd (offset : Int) (a b : Int8) :
      Rewrites precision [.addAt offset a, .addAt offset b] [.addAt offset (a + b)]
  | addZero (offset : Int) : Rewrites precision [.addAt offset 0] []
  /-- Two moves are one. -/
  | moveMove (a b : Int) :
      Rewrites precision [.move a, .move b] [.move (precision.add a b)]
  | moveZero : Rewrites precision [.move 0] []
  /-- A move that follows no movement is rounded. -/
  | roundMove (delta : Int) : Rewrites precision [.move delta] [.move (precision.add 0 delta)]
  /-- A node that addresses a cell steps in front of a move. -/
  | absorb {distance : Int} {node shifted : Node} :
      node.shift? precision distance = some shifted →
        Rewrites precision [.move distance, node] [shifted, .move distance]
  /-- An offset that is shifted by nothing is rounded. -/
  | roundOffset {node shifted : Node} :
      node.shift? precision 0 = some shifted → Rewrites precision [node] [shifted]
  /-- An addition to a cell just assigned changes what is assigned. -/
  | setAdd (offset : Int) (value : UInt8) (delta : Int8) :
      Rewrites precision [.setAt offset value, .addAt offset delta]
        [.setAt offset (value + delta.toUInt8)]
  /-- A loop that counts its cell to zero in odd steps assigns zero. -/
  | clear {delta : Int8} :
      delta.toInt % 2 ≠ 0 → Rewrites precision [.loop [.addAt 0 delta]] [.setAt 0 0]
  /-- A loop that counts its cell to zero in steps of one adds products. -/
  | multiply {body replaced : Block} :
      multiplication? body = some replaced → Rewrites precision [.loop body] replaced
  /-- A loop that only moves is a scan. -/
  | scan (delta : Int) : Rewrites precision [.loop [.move delta]] [.scanLoop delta]

variable {precision : Precision}

theorem Rewrites.congruence : Congruence (Rewrites precision) :=
  ⟨.refl, .trans, .append, .loop⟩

/-! ## Movement -/

/-- Moves that cancel vanish. -/
private theorem rewrites_cancel {a b : Int} (zero : precision.add a b = 0) :
    Rewrites precision [.move a, .move b] [] := by
  have joined : Rewrites precision [.move a, .move b] [.move (precision.add a b)] := .moveMove a b
  rw [zero] at joined
  exact .trans joined .moveZero

theorem rewrites_pushMove (finished : List Node) (delta : Int) :
    Rewrites precision (finished.reverse ++ [.move delta])
      (pushMove precision finished delta).reverse := by
  fun_cases pushMove precision finished delta with
  | case1 before rest sum zero => exact Rewrites.congruence.push_pair (rewrites_cancel zero)
  | case2 before rest sum nonzero => exact Rewrites.congruence.push_pair (.moveMove before delta)
  | case3 notMove zero =>
    rw [zero]
    exact Rewrites.congruence.push_alone .moveZero
  | case4 nonzero => exact Rewrites.congruence.push finished _

theorem rewrites_sumMoves (block : Block) :
    Rewrites precision block (sumMoves precision block) := by
  refine Rewrites.congruence.sweep (sumMove precision) (fun finished node => ?_) block
  cases node with
  | move delta => exact rewrites_pushMove finished delta
  | _ => exact Rewrites.congruence.push finished _

theorem rewrites_absorbMove (finished : List Node) (node : Node) :
    Rewrites precision (finished.reverse ++ [node])
      (absorbMove precision finished node).reverse := by
  fun_cases absorbMove precision finished node with
  | case1 delta before rest sum zero => exact Rewrites.congruence.push_pair (rewrites_cancel zero)
  | case2 delta before rest sum nonzero =>
    exact Rewrites.congruence.push_pair (.moveMove before delta)
  | case3 node before rest shifted steps =>
    simp only [steps]
    exact Rewrites.congruence.push_pair (.absorb steps)
  | case4 node before rest stays =>
    simp only [stays]
    exact Rewrites.congruence.push _ node
  | case5 => exact Rewrites.congruence.push finished node

theorem rewrites_absorbMoves (block : Block) :
    Rewrites precision block (absorbMoves precision block) :=
  Rewrites.congruence.sweep (absorbMove precision) rewrites_absorbMove block

/-- The moves that carry out a movement. -/
def moves (delta : Int) : Block :=
  if delta = 0 then [] else [.move delta]

theorem reverse_flush (deferred : Deferred) :
    deferred.flush.reverse = deferred.finished.reverse ++ moves deferred.pending := by
  rw [Deferred.flush, moves]
  split <;> simp

theorem rewrites_moves (a b : Int) :
    Rewrites precision (moves a ++ [.move b]) (moves (precision.add a b)) := by
  have carried : ∀ delta, Rewrites precision [.move delta] (moves delta) := by
    intro delta
    rw [moves]
    split
    · rename_i zero
      subst zero
      exact .moveZero
    · exact .refl _
  by_cases zero : a = 0
  · -- With nothing pending the sum is still rounded.
    subst zero
    exact .trans (.roundMove b) (carried (precision.add 0 b))
  · have before : moves a = [.move a] := if_neg zero
    rw [before]
    exact .trans (.moveMove a b) (carried (precision.add a b))

/-- A node that addresses a cell steps in front of held back movement. -/
theorem rewrites_moves_absorb {distance : Int} {node shifted : Node}
    (steps : node.shift? precision distance = some shifted) :
    Rewrites precision (moves distance ++ [node]) (shifted :: moves distance) := by
  by_cases zero : distance = 0
  · -- A shift by nothing still rounds the offset.
    subst zero
    exact .roundOffset steps
  · have before : moves distance = [.move distance] := if_neg zero
    rw [before]
    exact .absorb steps

/-- Holding movement back for one more node. -/
theorem rewrites_take (deferred : Deferred) (node : Node) :
    Rewrites precision (deferred.flush.reverse ++ [node])
      (deferred.take precision node).flush.reverse := by
  fun_cases Deferred.take precision deferred node with
  | case1 delta =>
    rw [reverse_flush, reverse_flush, List.append_assoc]
    exact Rewrites.congruence.append_left _ (rewrites_moves deferred.pending delta)
  | case2 node notMove shifted steps =>
    simp only [steps]
    rw [reverse_flush, reverse_flush, List.append_assoc, List.reverse_cons, List.append_assoc]
    exact Rewrites.congruence.append_left _ (rewrites_moves_absorb steps)
  | case3 node notMove stays =>
    simp only [stays]
    exact Rewrites.congruence.push deferred.flush node

theorem rewrites_deferMoves (block : Block) :
    Rewrites precision block (deferMoves precision block) :=
  Rewrites.congruence.foldl (fun deferred : Deferred => deferred.flush.reverse)
    (Deferred.take precision) rewrites_take block {}

/-! ## Runs of equal operations -/

theorem rewrites_pushAdd (finished : List Node) (offset : Int) (delta : Int8) :
    Rewrites precision (finished.reverse ++ [.addAt offset delta])
      (pushAdd finished offset delta).reverse := by
  have single : Rewrites precision (finished.reverse ++ [.addAt offset delta])
      (if delta = 0 then finished else .addAt offset delta :: finished).reverse := by
    split
    · rename_i zero
      subst zero
      exact Rewrites.congruence.push_alone (.addZero offset)
    · exact Rewrites.congruence.push finished _
  fun_cases pushAdd finished offset delta with
  | case1 before rest zero =>
    have joined : Rewrites precision [.addAt offset before, .addAt offset delta]
        [.addAt offset (before + delta)] := .addAdd offset before delta
    rw [zero] at joined
    exact Rewrites.congruence.push_pair (.trans joined (.addZero offset))
  | case2 before rest nonzero => exact Rewrites.congruence.push_pair (.addAdd offset before delta)
  | case3 lastOffset before rest elsewhere => exact single
  | case4 notAdd => exact single

theorem rewrites_mergeRuns (block : Block) :
    Rewrites precision block (mergeRuns precision block) := by
  refine Rewrites.congruence.sweep (mergeRun precision) (fun finished node => ?_) block
  cases node with
  | addAt offset delta => exact rewrites_pushAdd finished offset delta
  | move delta => exact rewrites_pushMove finished delta
  | _ => exact Rewrites.congruence.push finished _

/-! ## Loops -/

theorem rewrites_multiplied (node : Node) : Rewrites precision [node] (multiplied node) := by
  cases node with
  | loop body =>
    rw [multiplied]
    cases found : multiplication? body with
    | none => exact .refl _
    | some replaced => exact .multiply found
  | _ => exact .refl _

/-! ## Passes -/

/-- Every pass rewrites every block. -/
theorem rewrites_onBlock (pass : Pass) (block : Block) :
    Rewrites precision block (pass.onBlock precision block) := by
  cases pass with
  | mergeOperators => exact rewrites_mergeRuns block
  | collapseAssignments oddDeltas => exact Rewrites.congruence.assign .clear .setAdd oddDeltas block
  | collapseOffsets => exact rewrites_absorbMoves block
  | deferMovements => exact rewrites_deferMoves block
  | collapseMultiplications => exact Rewrites.congruence.flatMap rewrites_multiplied block
  | collapseMoves => exact rewrites_sumMoves block
  | collapseScanLoops => exact Rewrites.congruence.scan .scan block

theorem rewrites_runPasses (passes : List Pass) (program : Block) :
    Rewrites precision program (runPasses precision passes program) := by
  induction passes generalizing program with
  | nil => exact .refl program
  | cons pass rest ih =>
    have first : Rewrites precision program (pass.apply precision program) :=
      Rewrites.congruence.apply (rewrites_onBlock pass) program
    exact .trans first (ih _)

/-- The optimizer only rewrites. -/
theorem rewrites_optimize (options : Options) (program : Block) :
    Rewrites options.precision program (optimize options program) :=
  rewrites_runPasses options.passes program

end TapeMachine.Optimize
