import TapeMachine.Proofs.Optimize.NormalForm

/-!
# What the optimizer leaves

With every pass on, the optimizer leaves no loop behind that counts or only moves, and no move
that could be carried further. Each of this is the work of one pass, and those that run later
undo none of it. Products are sought before movement is deferred for the last time, which changes
no body that is found to be nothing but additions (`idle_deferMovements`); moves are summed by
then (`exists_optimize_eq`), and scans stand where loops stood (`scanned_cases`).
-/

namespace TapeMachine.Optimize

open Pass Program

variable {precision : Precision} {body block program : Block}

/-! ## Counting bodies -/

/-- The sum of what the additions of a block add to the cell under the pointer. -/
def gainHere : Block → Int
  | [] => 0
  | .addAt 0 delta :: rest => delta.toInt + gainHere rest
  | _ :: rest => gainHere rest

/-- A body that consists of additions, which add one to the cell under the pointer or take one
from it, modulo 256. -/
def CountsByOne (body : Block) : Prop :=
  (∀ node ∈ body, node.kind = .addAt) ∧
    (gainHere body % 256 = 1 ∨ gainHere body % 256 = 255)

theorem get_add (deltas : NetDeltas) (offset : Int) (delta : Int8) (other : Int) :
    (deltas.add offset delta).get other =
      deltas.get other + if offset = other then delta else 0 := by
  induction deltas with
  | nil => grind [NetDeltas.add, NetDeltas.get]
  | cons entry rest ih => grind [NetDeltas.add, NetDeltas.get]

theorem ofInt_gainHere_cons (offset : Int) (delta : Int8) (rest : Block) :
    Int8.ofInt (gainHere (.addAt offset delta :: rest)) =
      (if offset = 0 then delta else 0) + Int8.ofInt (gainHere rest) := by
  split
  · rename_i here
    rw [here, gainHere, Int8.ofInt_add, Int8.ofInt_toInt]
  · rename_i away
    rw [Int8.zero_add, gainHere]
    simp [away]

/-- Additions alone have net additions. -/
theorem exists_netDeltasFrom (additions : ∀ node ∈ body, node.kind = .addAt)
    (start : NetDeltas) : ∃ deltas, netDeltasFrom start body = some deltas := by
  induction body generalizing start with
  | nil => exact ⟨start, rfl⟩
  | cons node rest ih =>
    rw [List.forall_mem_cons] at additions
    cases node with
    | addAt offset delta => exact ih additions.2 _
    | _ => cases additions.1

/-- Net additions are those of additions alone. -/
theorem of_netDeltasFrom {start deltas : NetDeltas}
    (net : netDeltasFrom start body = some deltas) :
    (∀ node ∈ body, node.kind = .addAt) ∧
      deltas.get 0 = start.get 0 + Int8.ofInt (gainHere body) := by
  induction body generalizing start with
  | nil =>
    cases net
    simp [gainHere]
  | cons node rest ih =>
    cases node with
    | addAt offset delta =>
      obtain ⟨additions, sum⟩ := ih net
      refine ⟨List.forall_mem_cons.2 ⟨rfl, additions⟩, ?_⟩
      rw [sum, get_add, ofInt_gainHere_cons, Int8.add_assoc]
    | _ => cases net

theorem of_netDeltas {deltas : NetDeltas} (net : netDeltas body = some deltas) :
    (∀ node ∈ body, node.kind = .addAt) ∧
      deltas.get 0 = Int8.ofInt (gainHere body) := by
  obtain ⟨additions, sum⟩ := of_netDeltasFrom net
  exact ⟨additions, sum.trans (Int8.zero_add _)⟩

theorem ofInt_eq_one_iff (n : Int) : Int8.ofInt n = 1 ↔ n % 256 = 1 := by
  have one : (1 : Int8).toInt = 1 := rfl
  rw [Int8.ofInt_eq_iff_bmod_eq_toInt, Int.bmod_def]
  omega

theorem ofInt_eq_neg_one_iff (n : Int) : Int8.ofInt n = -1 ↔ n % 256 = 255 := by
  have minusOne : (-1 : Int8).toInt = -1 := rfl
  rw [Int8.ofInt_eq_iff_bmod_eq_toInt, Int.bmod_def]
  omega

/-- The loops that products take the place of are those whose bodies count by one. -/
theorem multiplication?_eq_none_iff : multiplication? body = none ↔ ¬ CountsByOne body := by
  constructor
  · rintro unfound ⟨additions, counts⟩
    obtain ⟨deltas, net⟩ := exists_netDeltasFrom additions []
    have found : deltas.get 0 = -1 ∨ deltas.get 0 = 1 := by
      rw [(of_netDeltas net).2, ofInt_eq_one_iff, ofInt_eq_neg_one_iff]
      exact counts.symm
    rw [multiplication?, netDeltas, net, Option.bind_eq_bind, Option.bind_some] at unfound
    split at unfound
    · cases unfound
    · rename_i notDown
      rw [if_pos (found.resolve_left notDown)] at unfound
      cases unfound
  · intro idle
    rw [Option.eq_none_iff_forall_ne_some]
    intro replaced found
    obtain ⟨deltas, _, net, counts, _⟩ := exists_products found
    obtain ⟨additions, sum⟩ := of_netDeltas net
    rw [sum, ofInt_eq_one_iff, ofInt_eq_neg_one_iff] at counts
    exact idle ⟨additions, counts.symm⟩

/-- A body that clears its cell in steps of one counts by one. -/
theorem countsByOne_of_clears (cleared : clears false body = true) : CountsByOne body := by
  unfold clears at cleared
  split at cleared
  · rename_i delta
    refine ⟨by simp [Node.kind], ?_⟩
    simp only [Bool.false_and, Bool.or_false, Bool.or_eq_true, beq_iff_eq] at cleared
    rcases cleared with rfl | rfl
    · exact .inl rfl
    · exact .inr rfl
  · cases cleared

/-! ## Blocks that only add and move -/

/-- A block of additions and moves. -/
def OnlyAddsAndMoves (block : List Node) : Prop :=
  ∀ node ∈ block, node.kind = .addAt ∨ node.kind = .move

/-- Products leave an assignment behind, so that none were made if only additions and moves are
left. -/
theorem multiply_of_onlyAddsAndMoves (only : OnlyAddsAndMoves (multiply block)) :
    multiply block = block := by
  have settled : Pass.collapseMultiplications.Settled .double block := by
    refine settled_multiply_iff.2 fun body among => ?_
    cases found : multiplication? body with
    | none => rfl
    | some replaced =>
      obtain ⟨deltas, negate, _, _, rfl⟩ := exists_products found
      have assignment : .setAt 0 0 ∈ multiply block := by
        refine List.mem_flatMap.2 ⟨.loop body, among, ?_⟩
        rw [multiplied, found, Option.getD_some]
        simp
      rcases only _ assignment with add | move
      · cases add
      · cases move
  exact multiply_of_settled settled

/-- Where only additions and moves are left, no loop was there to be changed inside. -/
theorem replaceInEach_of_onlyAddsAndMoves {replace : Block → Block}
    (only : OnlyAddsAndMoves (replaceInEach replace block)) :
    replaceInEach replace block = block := by
  rw [replaceInEach_eq_map] at only
  rw [replaceInEach_eq_map, List.map_congr_left (g := id) fun node among => ?_, List.map_id]
  cases node with
  | loop body =>
    rcases only _ (List.mem_map_of_mem among) with add | move
    · cases add
    · cases move
  | _ => rfl

theorem onlyAddsAndMoves_flush {deferred : Deferred} :
    OnlyAddsAndMoves deferred.flush ↔ OnlyAddsAndMoves deferred.finished := by
  rw [Deferred.flush]
  split
  · exact Iff.rfl
  · simp [OnlyAddsAndMoves, Node.kind]

theorem kind_of_shift? {distance : Int} {node shifted : Node}
    (shifts : node.shift? precision distance = some shifted) : shifted.kind = node.kind := by
  cases node <;> simp only [Node.shift?, Option.some.injEq, reduceCtorEq] at shifts <;>
    subst shifts <;> rfl

/-- Deferring takes every node up as one of its kind, or holds back the move that it is. -/
theorem OnlyAddsAndMoves.of_take {deferred : Deferred} {node : Node}
    (only : OnlyAddsAndMoves (deferred.take precision node).flush) :
    (node.kind = .addAt ∨ node.kind = .move) ∧ OnlyAddsAndMoves deferred.flush := by
  rw [onlyAddsAndMoves_flush] at only ⊢
  rcases movement_cases precision deferred.pending node with
    ⟨delta, rfl⟩ | ⟨shifted, shifts⟩ | barrier
  · exact ⟨.inr rfl, only⟩
  · rw [take_of_shift? shifts] at only
    obtain ⟨first, others⟩ := List.forall_mem_cons.1 only
    exact ⟨kind_of_shift? shifts ▸ first, others⟩
  · rw [take_of_isBarrier barrier] at only
    obtain ⟨first, others⟩ := List.forall_mem_cons.1 only
    exact ⟨first, onlyAddsAndMoves_flush.1 others⟩

theorem OnlyAddsAndMoves.of_deferMoves (only : OnlyAddsAndMoves (deferMoves precision block)) :
    OnlyAddsAndMoves block := by
  have swept : ∀ deferred : Deferred,
      OnlyAddsAndMoves (block.foldl (Deferred.take precision) deferred).flush →
        OnlyAddsAndMoves block ∧ OnlyAddsAndMoves deferred.flush := by
    clear only
    induction block with
    | nil => exact fun deferred only => ⟨by simp [OnlyAddsAndMoves], only⟩
    | cons node rest ih =>
      intro deferred only
      obtain ⟨others, taken⟩ := ih _ only
      obtain ⟨first, before⟩ := taken.of_take
      exact ⟨List.forall_mem_cons.2 ⟨first, others⟩, before⟩
  refine (swept {} fun node among => only node ?_).1
  exact List.mem_reverse.2 among

/-! ## Moves in their place -/

/-- Every move goes somewhere, and is the last node or stands before one that needs the pointer
in place: a loop or a scan. -/
def MovesInPlace (block : Block) : Prop :=
  ∀ before delta after, block = before ++ .move delta :: after →
    delta ≠ 0 ∧ ∀ next ∈ after.head?, next.isBarrier = true

theorem movesInPlace_of_settled (settled : Pass.deferMovements.Settled precision block) :
    MovesInPlace block := by
  rintro before delta after rfl
  obtain ⟨nonzero, _⟩ := settled.accepts (.move delta) (by simp)
  obtain ⟨_, apart, _⟩ := List.isChain_append.1 settled.adjoins
  refine ⟨?_, (List.isChain_cons.1 apart).1⟩
  rintro rfl
  exact nonzero rfl

/-- Summing moves has nothing to do where they have been deferred. -/
theorem settled_collapseMoves (settled : Pass.deferMovements.Settled precision block) :
    Pass.collapseMoves.Settled precision block :=
  ⟨fun node among => (settled.accepts node among).1,
    settled.adjoins.imp fun _ _ => movesApart_of_movesToBarrier⟩

/-! ## Scans -/

/-- A node as it stands once the loops in it have been replaced by scans, and it itself. -/
def scanned (node : Node) : Node :=
  scanning (replaceInNode scan node)

theorem apply_collapseScanLoops (block : Block) :
    Pass.collapseScanLoops.apply precision block = block.map scanned := by
  rw [apply_eq_replaceNested, replaceNested]
  show scan (replaceInEach scan block) = _
  rw [scan, replaceInEach_eq_map, List.map_map]
  rfl

theorem isBarrier_scanning {node : Node} (barrier : node.isBarrier = true) :
    (scanning node).isBarrier = true := by
  fun_cases scanning node with
  | case1 | case2 => rfl
  | case3 => exact barrier

/-- Only loops are changed, and into nodes that need the pointer in place as well. -/
theorem scanned_cases (node : Node) :
    scanned node = node ∨ node.isBarrier = true ∧ (scanned node).isBarrier = true := by
  cases node with
  | loop body => exact .inr ⟨rfl, isBarrier_scanning rfl⟩
  | _ => exact .inl rfl

theorem isBarrier_scanned (node : Node) : (scanned node).isBarrier = node.isBarrier := by
  rcases scanned_cases node with same | ⟨barrier, barrier'⟩
  · rw [same]
  · rw [barrier, barrier']

theorem MovesInPlace.scanned (inPlace : MovesInPlace block) :
    MovesInPlace (block.map scanned) := by
  intro before delta after split
  obtain ⟨front, back, rfl, _, split⟩ := List.map_eq_append_iff.1 split
  obtain ⟨node, others, rfl, becomes, rfl⟩ := List.map_eq_cons_iff.1 split
  have same : node = .move delta := by
    rcases scanned_cases node with same | ⟨_, barrier⟩
    · exact same.symm.trans becomes
    · rw [becomes] at barrier
      cases barrier
  obtain ⟨nonzero, beside⟩ := inPlace front delta others (by rw [same])
  refine ⟨nonzero, fun next among => ?_⟩
  rw [List.head?_map, Option.mem_def, Option.map_eq_some_iff] at among
  obtain ⟨original, first, rfl⟩ := among
  rw [isBarrier_scanned]
  exact beside original first

/-- Additions are not made by putting in scans. -/
theorem scanned_of_additions (additions : ∀ node ∈ block.map scanned, node.kind = .addAt) :
    block.map scanned = block := by
  rw [List.map_congr_left (g := id) fun node among => ?_, List.map_id]
  rcases scanned_cases node with same | ⟨_, barrier⟩
  · exact same
  · have add := additions _ (List.mem_map_of_mem among)
    cases becomes : scanned node with
    | addAt => simp [becomes, Node.isBarrier] at barrier
    | _ => simp [becomes, Node.kind] at add

theorem movesInPlace_collapseScanLoops
    (settled : EveryBlock (Pass.deferMovements.Settled precision) program) :
    EveryBlock MovesInPlace (Pass.collapseScanLoops.apply precision program) := by
  refine everyBlock_apply settled fun inner settled => ?_
  rw [apply_collapseScanLoops]
  exact (movesInPlace_of_settled settled.1).scanned

/-- No loop comes to count by one when loops in it are replaced by scans. -/
theorem idle_collapseScanLoops (idle : EveryBody (fun body => ¬ CountsByOne body) program) :
    EveryBody (fun body => ¬ CountsByOne body)
      (Pass.collapseScanLoops.apply precision program) := by
  refine everyBody_apply idle fun inner idle counts => ?_
  rw [apply_collapseScanLoops] at counts
  rw [scanned_of_additions counts.1] at counts
  exact idle.1 counts

/-! ## The optimizer -/

/-- A body in which products have been sought: it does not count by one, and additions and moves
in it are left as the deferral before left them. -/
structure Sought (precision : Precision) (body : Block) : Prop where
  idle : ¬ CountsByOne body
  deferred : OnlyAddsAndMoves body → Pass.deferMovements.Settled precision body

theorem sought_multiplications (stable : precision.Stable)
    (settled : EveryBlock (Pass.deferMovements.Settled precision) program) :
    EveryBody (Sought precision) (Pass.collapseMultiplications.apply precision program) := by
  have accepted := forall_mem_nodes_iff.2
    ((settled_apply stable .collapseMultiplications program).imp fun _ => Settled.accepts)
  have deferred : EveryBody
      (fun body => OnlyAddsAndMoves body → Pass.deferMovements.Settled precision body)
      (Pass.collapseMultiplications.apply precision program) := by
    refine everyBody_apply settled.2 fun inner settled only => ?_
    rw [apply_eq_replaceNested, replaceNested] at only ⊢
    change OnlyAddsAndMoves (multiply (replaceInEach multiply inner)) at only
    show Pass.deferMovements.Settled precision (multiply (replaceInEach multiply inner))
    have same := multiply_of_onlyAddsAndMoves only
    rw [same] at only
    rw [same, replaceInEach_of_onlyAddsAndMoves only]
    exact settled.1
  intro body among
  have unfound := accepted (.loop body) among body rfl
  exact ⟨multiplication?_eq_none_iff.1 unfound, deferred body among⟩

/-- No loop comes to count by one when movement is deferred again. -/
theorem idle_deferMovements (sought : EveryBody (Sought precision) program) :
    EveryBody (fun body => ¬ CountsByOne body)
      (Pass.deferMovements.apply precision program) := by
  refine everyBody_apply sought fun inner sought counts => ?_
  rw [apply_eq_replaceNested, replaceNested] at counts
  change CountsByOne (deferMoves precision (replaceInEach (deferMoves precision) inner)) at counts
  have only := OnlyAddsAndMoves.of_deferMoves fun node among => .inl (counts.1 node among)
  have same := replaceInEach_of_onlyAddsAndMoves only
  rw [same] at only counts
  rw [deferMoves_of_settled (sought.1.deferred only)] at counts
  exact sought.1.idle counts

/-- With every pass on, the last ones are a deferral, products, a deferral and scans; between
the last two moves are summed, which does nothing where they have been deferred. -/
theorem exists_optimize_eq (program : Block) :
    ∃ start, optimize {} program = Pass.collapseScanLoops.apply .double
      (Pass.deferMovements.apply .double (Pass.collapseMultiplications.apply .double
        (Pass.deferMovements.apply .double start))) := by
  refine ⟨runPasses .double [.mergeOperators, .collapseAssignments false, .collapseOffsets]
    program, ?_⟩
  have settled := settled_apply Precision.stable_double .deferMovements
    (Pass.collapseMultiplications.apply .double (Pass.deferMovements.apply .double
      (runPasses .double [.mergeOperators, .collapseAssignments false, .collapseOffsets] program)))
  have summed := apply_of_settled (settled.imp fun _ => settled_collapseMoves)
  exact congrArg (Pass.collapseScanLoops.apply .double) summed

/-- What the optimizer makes of a program, every pass being on, leaves nothing undone in any of
its blocks. Every move goes somewhere, and is the last node or stands before a loop or a scan.
No body of a loop counts by one, so that no loop is left that a pass would take for one that
clears its cell or adds products; and none is a single move. -/
theorem leaves_nothing_undone (program : Block) :
    EveryBlock MovesInPlace (optimize {} program) ∧
      EveryBody (fun body => ¬ CountsByOne body ∧ clears false body = false ∧
          multiplication? body = none ∧ ∀ delta, body ≠ [.move delta])
        (optimize {} program) := by
  obtain ⟨start, optimized⟩ := exists_optimize_eq program
  rw [optimized]
  have stable := Precision.stable_double
  have deferred := settled_apply stable .deferMovements start
  have idle := idle_deferMovements (sought_multiplications stable deferred)
  have settled := settled_apply stable .deferMovements
    (Pass.collapseMultiplications.apply .double (Pass.deferMovements.apply .double start))
  generalize Pass.deferMovements.apply .double _ = done at idle settled ⊢
  have inPlace := movesInPlace_collapseScanLoops settled
  have idle : EveryBody (fun body => ¬ CountsByOne body)
      (Pass.collapseScanLoops.apply .double done) := idle_collapseScanLoops idle
  have scans := forall_mem_nodes_iff.2
    ((settled_apply stable .collapseScanLoops done).imp fun _ => Settled.accepts)
  refine ⟨inPlace, fun body among => ⟨idle body among, ?_,
    multiplication?_eq_none_iff.2 (idle body among), ?_⟩⟩
  · rw [← Bool.not_eq_true]
    exact fun cleared => idle body among (countsByOne_of_clears cleared)
  · -- A loop of a single move would have become a scan, or the move goes nowhere.
    rintro delta rfl
    obtain ⟨nonzero, _⟩ := inPlace.2 _ among [] delta [] rfl
    exact nonzero (scans _ among delta rfl)

end TapeMachine.Optimize
