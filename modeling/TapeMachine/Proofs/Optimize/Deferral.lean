import TapeMachine.Proofs.Machine.Addressing
import TapeMachine.Proofs.Optimize.Settled

/-!
# Two ways to defer movement

Offsets absorb the move before them, one node at a time, with the movement so far kept as the
last finished node; or a block is swept with the movement so far kept as a number. The two
sweeps go in step (`Mirrors`): what differs is moves by nothing, which only the first leaves
standing (`deferMoves_eq_withoutIdle`). So the passes make of a program the same in every block,
once moves are summed or deferred after the first.
-/

namespace TapeMachine

/-- A precision at which what has been rounded is kept. -/
def Precision.Stable (precision : Precision) : Prop :=
  ∀ n, precision.round (precision.round n) = precision.round n

theorem Precision.stable_double : Precision.double.Stable :=
  Precision.round_round (by decide)

@[simp] theorem Precision.round_zero (precision : Precision) : precision.round 0 = 0 := by
  cases precision <;> simp [Precision.round]

variable {precision : Precision}

/-! ## Numbers that are kept -/

/-- A shift leaves a number that is kept. -/
theorem Node.kept_of_shift? (stable : precision.Stable) {distance : Int} {node shifted : Node}
    (shifts : node.shift? precision distance = some shifted) : shifted.Kept precision := by
  cases node <;> simp only [Node.shift?, Option.some.injEq, reduceCtorEq] at shifts <;>
    subst shifts <;> exact stable _

/-- A shift by nothing changes no node whose number is kept. -/
theorem Node.eq_of_shift?_zero {node shifted : Node} (kept : node.Kept precision)
    (shifts : node.shift? precision 0 = some shifted) : shifted = node := by
  cases node <;> simp only [Node.shift?, Option.some.injEq, reduceCtorEq] at shifts <;>
    subst shifts <;> simp only [Precision.add, Int.add_zero] <;>
    rw [show precision.round _ = _ from kept]

namespace Optimize

variable {finished : List Node} {block : Block}

/-- A block without its moves by nothing. -/
def withoutIdle (block : Block) : Block :=
  block.filter fun node => node ≠ .move 0

theorem withoutIdle_cons_of_ne {node : Node} (active : node ≠ .move 0) (rest : Block) :
    withoutIdle (node :: rest) = node :: withoutIdle rest := by
  simp [withoutIdle, active]

theorem withoutIdle_move (delta : Int) (rest : Block) : withoutIdle (.move delta :: rest) =
    if delta = 0 then withoutIdle rest else .move delta :: withoutIdle rest := by
  split
  · rename_i zero
    simp [withoutIdle, zero]
  · rename_i nonzero
    exact withoutIdle_cons_of_ne (by simpa using nonzero) rest

theorem withoutIdle_eq_self (active : ∀ node ∈ block, node ≠ .move 0) :
    withoutIdle block = block := by
  simpa [withoutIdle] using active

/-! ## Absorbing and deferring -/

/-- No move is the last of the finished nodes. -/
def EndsStill (finished : List Node) : Prop :=
  ∀ last ∈ finished.head?, ∀ delta, last ≠ .move delta

theorem endsStill_cons {node : Node} :
    EndsStill (node :: finished) ↔ ∀ delta, node ≠ .move delta := by
  simp [EndsStill]

theorem endsStill_or_move (finished : List Node) :
    EndsStill finished ∨ ∃ delta rest, finished = .move delta :: rest := by
  cases finished with
  | nil => simp [EndsStill]
  | cons last rest => cases last <;> simp [endsStill_cons]

/-- The finished nodes of the two sweeps: the one ends with the movement that the other holds
back, or with no move if that is none. -/
inductive Mirrors : List Node → Deferred → Prop
  | level {finished : List Node} : EndsStill finished →
      Mirrors finished ⟨withoutIdle finished, 0⟩
  | ahead {finished : List Node} (delta : Int) : EndsStill finished →
      Mirrors (.move delta :: finished) ⟨withoutIdle finished, delta⟩

theorem Mirrors.flush {deferred : Deferred} (mirrors : Mirrors finished deferred) :
    deferred.flush = withoutIdle finished := by
  cases mirrors with
  | level => simp [Deferred.flush]
  | ahead delta => simp [Deferred.flush, withoutIdle_move]

/-- A node moves the pointer, steps in front of movement or needs the pointer in place. -/
theorem movement_cases (precision : Precision) (distance : Int) (node : Node) :
    (∃ delta, node = .move delta) ∨ (∃ shifted, node.shift? precision distance = some shifted) ∨
      node.isBarrier = true := by
  cases node <;> simp [Node.shift?, Node.isBarrier]

theorem not_move_of_isBarrier {node : Node} (barrier : node.isBarrier = true) :
    ∀ delta, node ≠ .move delta := by
  rintro delta rfl
  cases barrier

theorem take_of_shift? {deferred : Deferred} {node shifted : Node}
    (shifts : node.shift? precision deferred.pending = some shifted) :
    deferred.take precision node = { deferred with finished := shifted :: deferred.finished } := by
  cases node <;> simp_all [Deferred.take, Node.shift?]

theorem take_of_isBarrier {node : Node} (barrier : node.isBarrier = true) (deferred : Deferred) :
    deferred.take precision node = { finished := node :: deferred.flush } := by
  cases node <;> simp_all [Deferred.take, Node.shift?, Node.isBarrier]

theorem absorbMove_of_endsStill (still : EndsStill finished) (node : Node) :
    absorbMove precision finished node = node :: finished := by
  fun_cases absorbMove precision finished node with
  | case1 delta before rest | case2 delta before rest => exact absurd rfl (still _ rfl before)
  | case3 node before rest | case4 node before rest => exact absurd rfl (still _ rfl before)
  | case5 => rfl

theorem absorbMove_of_shift? {delta : Int} {node shifted : Node}
    (shifts : node.shift? precision delta = some shifted) :
    absorbMove precision (.move delta :: finished) node = .move delta :: shifted :: finished := by
  cases node <;> simp_all [absorbMove, Node.shift?]

theorem absorbMove_of_isBarrier {node : Node} (barrier : node.isBarrier = true) :
    absorbMove precision finished node = node :: finished := by
  fun_cases absorbMove precision finished node with
  | case1 | case2 => cases barrier
  | case3 node before rest shifted shifts =>
    rw [shift?_eq_none_iff.2 (.inl barrier)] at shifts
    cases shifts
  | case4 node before rest stays => simp only [stays]
  | case5 => rfl

/-- The sweeps stay in step. -/
theorem Mirrors.step {deferred : Deferred} (mirrors : Mirrors finished deferred) {node : Node}
    (kept : node.Kept precision) :
    Mirrors (absorbMove precision finished node) (deferred.take precision node) := by
  have flushed := mirrors.flush
  rcases movement_cases precision deferred.pending node with
    ⟨delta, rfl⟩ | ⟨shifted, shifts⟩ | barrier
  · cases mirrors with
    | level still =>
      -- The first move is not rounded by the one sweep, and by the other in vain.
      have same : precision.add 0 delta = delta := by
        rw [Precision.add, Int.zero_add]
        exact kept
      rw [absorbMove_of_endsStill still, Deferred.take, same]
      exact .ahead delta still
    | ahead before still =>
      simp only [absorbMove, Deferred.take]
      split
      · rename_i zero
        rw [zero]
        exact .level still
      · exact .ahead _ still
  · have active : EndsStill (shifted :: finished) :=
      endsStill_cons.2 (not_move_of_shift? shifts)
    rw [take_of_shift? shifts]
    cases mirrors with
    | level still =>
      obtain rfl := Node.eq_of_shift?_zero kept shifts
      rw [absorbMove_of_endsStill still, ← withoutIdle_cons_of_ne (active _ rfl 0)]
      exact .level active
    | ahead delta still =>
      rw [absorbMove_of_shift? shifts, ← withoutIdle_cons_of_ne (active _ rfl 0)]
      exact .ahead delta active
  · have notMove := not_move_of_isBarrier barrier
    rw [take_of_isBarrier barrier, absorbMove_of_isBarrier barrier, flushed,
      ← withoutIdle_cons_of_ne (notMove 0)]
    exact .level (endsStill_cons.2 notMove)

/-- Deferring the movement of a block gives what absorbing it gives, without the moves by
nothing. -/
theorem deferMoves_eq_withoutIdle (kept : ∀ node ∈ block, node.Kept precision) :
    deferMoves precision block = withoutIdle (absorbMoves precision block) := by
  have swept : ∀ (finished : List Node) (deferred : Deferred), Mirrors finished deferred →
      Mirrors (block.foldl (absorbMove precision) finished)
        (block.foldl (Deferred.take precision) deferred) := by
    induction block with
    | nil => exact fun _ _ mirrors => mirrors
    | cons node rest ih =>
      intro finished deferred mirrors
      rw [List.forall_mem_cons] at kept
      exact ih kept.2 _ _ (mirrors.step kept.1)
  have start : Mirrors [] {} := .level (by simp [EndsStill])
  rw [deferMoves, (swept [] {} start).flush, absorbMoves, withoutIdle, withoutIdle,
    List.filter_reverse]

/-! ## What deferring leaves -/

open Pass

/-- A block in the middle of being deferred: no move is finished last, because movement is held
back, and what is held back can be kept. -/
structure Steady (precision : Precision) (deferred : Deferred) : Prop where
  stack : Pass.deferMovements.Stacks precision deferred.finished
  still : EndsStill deferred.finished
  kept : precision.round deferred.pending = deferred.pending

variable {deferred : Deferred}

/-- Every node may be pushed where no move is last. -/
theorem Steady.push (steady : Steady precision deferred) {node : Node}
    (accepted : Pass.deferMovements.Accepts precision node) :
    Pass.deferMovements.Stacks precision (node :: deferred.finished) := by
  refine stacks_cons.2 ⟨accepted, fun last among => ?_, steady.stack⟩
  exact movesToBarrier_of_not_move (steady.still last among) node

theorem Steady.flush (steady : Steady precision deferred) :
    Pass.deferMovements.Stacks precision deferred.flush := by
  rw [Deferred.flush]
  split
  · exact steady.stack
  · rename_i nonzero
    exact steady.push ⟨by simpa using nonzero, steady.kept⟩

theorem Steady.take (stable : precision.Stable) (steady : Steady precision deferred)
    (node : Node) : Steady precision (deferred.take precision node) := by
  rcases movement_cases precision deferred.pending node with
    ⟨delta, rfl⟩ | ⟨shifted, shifts⟩ | barrier
  · exact ⟨steady.stack, steady.still, stable _⟩
  · have notMove := not_move_of_shift? shifts
    rw [take_of_shift? shifts]
    exact ⟨steady.push ⟨notMove 0, Node.kept_of_shift? stable shifts⟩, endsStill_cons.2 notMove,
      steady.kept⟩
  · have notMove := not_move_of_isBarrier barrier
    have accepted : Pass.deferMovements.Accepts precision node := by
      refine ⟨notMove 0, ?_⟩
      cases node with
      | loop | scanLoop => trivial
      | _ => cases barrier
    rw [take_of_isBarrier barrier]
    refine ⟨stacks_cons.2 ⟨accepted, fun last _ => ?_, steady.flush⟩, endsStill_cons.2 notMove,
      precision.round_zero⟩
    -- Whatever was flushed may stand before a barrier.
    show MovesToBarrier last node
    cases last with
    | move => exact barrier
    | _ => trivial

theorem settled_deferMoves (stable : precision.Stable) (block : Block) :
    Pass.deferMovements.Settled precision (deferMoves precision block) := by
  have swept : ∀ deferred, Steady precision deferred →
      Steady precision (block.foldl (Deferred.take precision) deferred) := by
    induction block with
    | nil => exact fun _ steady => steady
    | cons node rest ih => exact fun deferred steady => ih _ (steady.take stable node)
  have start : Steady precision {} :=
    ⟨⟨by simp, List.isChain_nil⟩, by simp [EndsStill], precision.round_zero⟩
  exact (swept {} start).flush.settled

theorem deferMoves_of_settled (settled : Pass.deferMovements.Settled precision block) :
    deferMoves precision block = block := by
  have offsets : Pass.collapseOffsets.Settled precision block :=
    ⟨fun _ _ => trivial, settled.adjoins⟩
  rw [deferMoves_eq_withoutIdle fun node among => (settled.accepts node among).2,
    absorbMoves_of_settled offsets,
    withoutIdle_eq_self fun node among => (settled.accepts node among).1]

/-! ## What absorbing leaves -/

/-- Absorbing keeps every number such that it can be kept. -/
theorem kept_absorbMoves (stable : precision.Stable) (kept : ∀ node ∈ block, node.Kept precision) :
    ∀ node ∈ absorbMoves precision block, node.Kept precision := by
  have swept : ∀ finished : List Node, (∀ node ∈ finished, node.Kept precision) →
      ∀ node ∈ block.foldl (absorbMove precision) finished, node.Kept precision := by
    induction block with
    | nil => exact fun _ done => done
    | cons node rest ih =>
      intro finished done
      rw [List.forall_mem_cons] at kept
      refine ih kept.2 _ ?_
      fun_cases absorbMove precision finished node with
      | case1 delta before rest sum zero => exact (List.forall_mem_cons.1 done).2
      | case2 delta before rest sum nonzero =>
        exact List.forall_mem_cons.2 ⟨stable _, (List.forall_mem_cons.1 done).2⟩
      | case3 node before rest shifted shifts =>
        simp only [shifts]
        obtain ⟨first, others⟩ := List.forall_mem_cons.1 done
        exact List.forall_mem_cons.2
          ⟨first, List.forall_mem_cons.2 ⟨Node.kept_of_shift? stable shifts, others⟩⟩
      | case4 node before rest stays =>
        simp only [stays]
        exact List.forall_mem_cons.2 ⟨kept.1, done⟩
      | case5 => exact List.forall_mem_cons.2 ⟨kept.1, done⟩
  intro node among
  exact swept [] (by simp) node (List.mem_reverse.1 among)

theorem pushMove_of_endsStill (still : EndsStill finished) (delta : Int) :
    pushMove precision finished delta =
      if delta = 0 then finished else .move delta :: finished := by
  fun_cases pushMove precision finished delta with
  | case1 before rest | case2 before rest => exact absurd rfl (still _ rfl before)
  | case3 _ zero => exact (if_pos zero).symm
  | case4 _ nonzero => exact (if_neg nonzero).symm

theorem movesApart_of_movesToBarrier {before next : Node}
    (adjoins : MovesToBarrier before next) : MovesApart before next := by
  fun_cases MovesApart before next with
  | case1 => cases adjoins
  | case2 => trivial

/-- Summing moves that already stand apart only drops those by nothing. -/
theorem sumMoves_eq_withoutIdle (apart : block.IsChain MovesApart) :
    sumMoves precision block = withoutIdle block := by
  induction block using List.reverseRecOn with
  | nil => rfl
  | append_singleton before node ih =>
    rw [List.isChain_append] at apart
    obtain ⟨apart, _, beside⟩ := apart
    have swept : before.foldl (sumMove precision) [] = (withoutIdle before).reverse := by
      rw [← ih apart, sumMoves, List.reverse_reverse]
    have split : withoutIdle (before ++ [node]) = withoutIdle before ++ withoutIdle [node] :=
      List.filter_append ..
    rw [sumMoves, List.foldl_concat, swept, split]
    cases node with
    | move delta =>
      have still : EndsStill (withoutIdle before).reverse := by
        rcases List.eq_nil_or_concat before with rfl | ⟨init, last, rfl⟩
        · simp [withoutIdle, EndsStill]
        · have notMove : ∀ other, last ≠ .move other := by
            rintro other rfl
            exact beside (.move other) (by simp) (.move delta) rfl
          simp [withoutIdle, EndsStill, notMove]
      rw [sumMove, pushMove_of_endsStill still, withoutIdle_move]
      split <;> simp [withoutIdle]
    | _ => simp [sumMove, withoutIdle]

/-! ## Whole programs -/

theorem isBarrier_replaceInNode (replace : Block → Block) (node : Node) :
    (Program.replaceInNode replace node).isBarrier = node.isBarrier := by
  cases node <;> simp only [Program.replaceInNode, Node.isBarrier]

theorem replaceInNode_of_shift? (replace : Block → Block) {distance : Int} {node shifted : Node}
    (shifts : node.shift? precision distance = some shifted) :
    Program.replaceInNode replace node = node ∧
      Program.replaceInNode replace shifted = shifted := by
  cases node <;> simp only [Node.shift?, Option.some.injEq, reduceCtorEq] at shifts <;>
    subst shifts <;> simp only [Program.replaceInNode, and_self]

theorem endsStill_map (replace : Block → Block) (still : EndsStill finished) :
    EndsStill (finished.map (Program.replaceInNode replace)) := by
  cases finished with
  | nil => simp [EndsStill]
  | cons last rest =>
    rw [List.map_cons, endsStill_cons]
    rw [endsStill_cons] at still
    cases last <;> simp_all [Program.replaceInNode]

theorem absorbMove_map (replace : Block → Block) (finished : List Node) (node : Node) :
    (absorbMove precision finished node).map (Program.replaceInNode replace) =
      absorbMove precision (finished.map (Program.replaceInNode replace))
        (Program.replaceInNode replace node) := by
  have moves : ∀ delta, Program.replaceInNode replace (.move delta) = .move delta := by
    intro delta
    simp only [Program.replaceInNode]
  rcases endsStill_or_move finished with still | ⟨before, rest, rfl⟩
  · rw [absorbMove_of_endsStill still, absorbMove_of_endsStill (endsStill_map replace still),
      List.map_cons]
  rw [List.map_cons, moves]
  rcases movement_cases precision before node with ⟨delta, rfl⟩ | ⟨shifted, shifts⟩ | barrier
  · simp only [absorbMove, moves]
    split
    · rfl
    · rw [List.map_cons, moves]
  · obtain ⟨same, same'⟩ := replaceInNode_of_shift? replace shifts
    rw [absorbMove_of_shift? shifts, same, absorbMove_of_shift? shifts, List.map_cons,
      List.map_cons, moves, same']
  · have barrier' := (isBarrier_replaceInNode replace node).trans barrier
    rw [absorbMove_of_isBarrier barrier, absorbMove_of_isBarrier barrier', List.map_cons,
      List.map_cons, moves]

/-- Absorbing does not look into loops. -/
theorem replaceInEach_absorbMoves (replace : Block → Block) (block : Block) :
    Program.replaceInEach replace (absorbMoves precision block) =
      absorbMoves precision (Program.replaceInEach replace block) := by
  have swept : ∀ finished : List Node,
      (block.foldl (absorbMove precision) finished).map (Program.replaceInNode replace) =
        (block.map (Program.replaceInNode replace)).foldl (absorbMove precision)
          (finished.map (Program.replaceInNode replace)) := by
    induction block with
    | nil => exact fun _ => rfl
    | cons node rest ih =>
      intro finished
      rw [List.map_cons, List.foldl_cons, List.foldl_cons, ih, absorbMove_map]
  rw [Program.replaceInEach_eq_map, Program.replaceInEach_eq_map, absorbMoves, absorbMoves,
    List.map_reverse, swept, List.map_nil]

/-- What is inside a loop has no part in which numbers of the block are kept. -/
theorem kept_replaceInEach (replace : Block → Block) (kept : ∀ node ∈ block, node.Kept precision) :
    ∀ node ∈ Program.replaceInEach replace block, node.Kept precision := by
  intro node among
  rw [Program.replaceInEach_eq_map] at among
  obtain ⟨original, found, rfl⟩ := List.mem_map.1 among
  cases original with
  | loop body => exact trivial
  | _ => simpa only [Program.replaceInNode] using kept _ found

/-- A change of every block after offsets have absorbed moves gives what deferring gives, if it
does so block by block. -/
theorem mapBlocks_after_offsets {program : Block}
    (kept : ∀ node ∈ Program.nodes program, node.Kept precision) {change : Block → Block}
    (same : ∀ block : Block, (∀ node ∈ block, node.Kept precision) →
      change (absorbMoves precision block) = deferMoves precision block) :
    Program.mapBlocks change (Pass.collapseOffsets.apply precision program) =
      Pass.deferMovements.apply precision program := by
  rw [apply_eq_replaceNested, apply_eq_replaceNested, Program.mapBlocks_eq_replaceNested]
  show Program.replaceNested change (Program.replaceNested (absorbMoves precision) program) =
    Program.replaceNested (deferMoves precision) program
  rw [Program.replaceNested_replaceNested fun block => replaceInEach_absorbMoves change block]
  refine (Program.forall_mem_nodes_iff.1 kept).replaceNested_congr fun block kept => ?_
  exact same _ (kept_replaceInEach _ kept)

/-- Absorbing moves into offsets and deferring them give the same nodes in every block, at every
depth. What they differ in is moves by nothing: summing the moves that are left, deferring them
or dropping those by nothing makes the one result the other. Numbers in a program are such that
they can be kept. -/
theorem movement_passes_agree {program : Block}
    (kept : ∀ node ∈ Program.nodes program, node.Kept .double) :
    let offsets := Pass.collapseOffsets.apply .double program
    let deferred := Pass.deferMovements.apply .double program
    Pass.collapseMoves.apply .double offsets = deferred ∧
      Pass.deferMovements.apply .double offsets = deferred ∧
        Program.mapBlocks withoutIdle offsets = deferred := by
  refine ⟨mapBlocks_after_offsets kept fun block kept => ?_,
    mapBlocks_after_offsets kept fun block kept => ?_,
    mapBlocks_after_offsets kept fun block kept => ?_⟩
  · -- Where movement has been absorbed, no move stands next to another.
    have apart : (absorbMoves .double block).IsChain MovesApart :=
      (settled_absorbMoves block).adjoins.imp fun before next => movesApart_of_movesToBarrier
    rw [deferMoves_eq_withoutIdle kept]
    exact sumMoves_eq_withoutIdle apart
  · have kept' := kept_absorbMoves Precision.stable_double kept
    show deferMoves .double (absorbMoves .double block) = _
    rw [deferMoves_eq_withoutIdle kept', absorbMoves_of_settled (settled_absorbMoves block),
      deferMoves_eq_withoutIdle kept]
  · exact (deferMoves_eq_withoutIdle kept).symm

/-- A program with moves that cancel, moves by nothing and a loop at the last number that can be
kept. -/
theorem movement_passes_agree_cancelling :
    let program : Block :=
      [.addAt 0 1, .move 2, .move (-2), .move 0, .loop [.move 9007199254740991, .outputAt 0],
        .move 3, .setAt 1 7]
    (∀ node ∈ Program.nodes program, node.Kept .double) ∧
      Pass.collapseOffsets.apply .double program ≠ Pass.deferMovements.apply .double program ∧
        Pass.collapseMoves.apply .double (Pass.collapseOffsets.apply .double program) =
          Pass.deferMovements.apply .double program := by
  intro program
  have kept : ∀ node ∈ Program.nodes program, node.Kept .double := by
    simp +decide [program, Program.nodes_single, Node.Kept]
  have differ : Pass.collapseOffsets.apply .double program ≠
      Pass.deferMovements.apply .double program := by
    rw [apply_eq_replaceNested, apply_eq_replaceNested]
    decide
  exact ⟨kept, differ, (movement_passes_agree kept).1⟩

end Optimize

end TapeMachine
