import TapeMachine.Proofs.Compile.Acceptance
import TapeMachine.Proofs.Optimize.Residue

/-!
# Accounts of the optimizer

No pass makes a program larger, and none brings in or takes out an input or an output. Every
rewrite puts no more nodes in the place of others: products are at most as many as the additions
that they are made of, and the addition to the cell that counts pays for the assignment
(`size_multiplication_le`). A loop that a pass replaces is a node less (`size_atNode_add_le`).
-/

namespace TapeMachine.Optimize

open Pass Program

variable {precision : Precision} {pass : Pass} {p q r body block program : Block}

/-- What it costs to put one program in the place of another: nothing, and some nodes are saved.
There are as many inputs and outputs as before. -/
structure Accounts (saved : Nat) (p q : Block) : Prop where
  size : size q + saved ≤ size p
  inputs : countKind q .inputAt = countKind p .inputAt
  outputs : countKind q .outputAt = countKind p .outputAt

theorem Accounts.refl (p : Block) : Accounts 0 p p :=
  ⟨Nat.le_refl _, rfl, rfl⟩

theorem Accounts.trans {saved more : Nat} (first : Accounts saved p q)
    (second : Accounts more q r) : Accounts (saved + more) p r := by
  refine ⟨?_, second.inputs.trans first.inputs, second.outputs.trans first.outputs⟩
  have := first.size
  have := second.size
  omega

theorem Accounts.of_le {saved less : Nat} (accounts : Accounts saved p q) (fewer : less ≤ saved) :
    Accounts less p q :=
  ⟨Nat.le_trans (Nat.add_le_add_left fewer _) accounts.size, accounts.inputs, accounts.outputs⟩

/-! ## Products -/

theorem nodes_eq_self (straight : ∀ body, .loop body ∉ block) : nodes block = block := by
  induction block with
  | nil => exact nodes_nil
  | cons node rest ih =>
    have notLoop : ∀ body, node ≠ .loop body := by
      rintro body rfl
      exact straight body List.mem_cons_self
    rw [nodes_single notLoop, ih fun body among => straight body (.tail _ among)]

theorem length_add_le (deltas : NetDeltas) (offset : Int) (delta : Int8) :
    (deltas.add offset delta).length ≤ deltas.length + 1 := by
  induction deltas with
  | nil => exact Nat.le_refl _
  | cons entry rest ih =>
    rw [NetDeltas.add]
    split
    · simp
    · simpa using ih

/-- There are at most as many net additions as additions. -/
theorem length_netDeltasFrom_le {start deltas : NetDeltas}
    (net : netDeltasFrom start body = some deltas) :
    deltas.length ≤ start.length + body.length := by
  induction body generalizing start with
  | nil =>
    cases net
    exact Nat.le_refl _
  | cons node rest ih =>
    cases node with
    | addAt offset delta =>
      have counted := length_add_le start offset delta
      have later := ih net
      rw [List.length_cons]
      omega
    | _ => cases net

/-- The cell that counts has no product. -/
theorem length_products_lt (negate : Bool) {deltas : NetDeltas} (counts : deltas.get 0 ≠ 0) :
    (products negate deltas).length < deltas.length := by
  rw [products, List.length_filterMap_lt_length_iff_exists]
  cases found : deltas.lookup 0 with
  | none => simp [NetDeltas.get, found] at counts
  | some delta =>
    obtain ⟨front, back, rfl, _⟩ := List.lookup_eq_some_iff.1 found
    exact ⟨(0, delta), by simp, by simp⟩

theorem not_loop_of_additions (additions : ∀ node ∈ block, node.kind = .addAt) (inner : Block) :
    .loop inner ∉ block := by
  intro among
  cases additions _ among

/-- What takes the place of a counting loop is no more than the loop's body. -/
theorem size_multiplication_le {replaced : Block} (found : multiplication? body = some replaced) :
    size replaced ≤ size body := by
  have straight := not_loop_of_multiplication? found
  obtain ⟨deltas, negate, net, counts, rfl⟩ := exists_products found
  obtain ⟨additions, _⟩ := of_netDeltas net
  have fewer : (products negate deltas).length < deltas.length := by
    refine length_products_lt negate fun zero => ?_
    rcases counts with down | up
    · exact absurd (down.symm.trans zero) (by decide)
    · exact absurd (up.symm.trans zero) (by decide)
  have counted := length_netDeltasFrom_le net
  rw [size_eq_length, size_eq_length, nodes_eq_self straight,
    nodes_eq_self (not_loop_of_additions additions), List.length_append]
  simp only [List.length_nil, List.length_singleton] at counted ⊢
  omega

/-- A program without input and output. -/
def Silent (block : Block) : Prop :=
  ∀ node ∈ nodes block, node.kind ≠ .inputAt ∧ node.kind ≠ .outputAt

theorem Silent.counts (silent : Silent block) :
    countKind block .inputAt = 0 ∧ countKind block .outputAt = 0 := by
  simp only [countKind_eq_countP, List.countP_eq_zero, beq_iff_eq]
  exact ⟨fun node inside => (silent node inside).1, fun node inside => (silent node inside).2⟩

/-- The addition to the cell that counts pays for the assignment, and the loop is saved. -/
theorem accounts_multiplication {replaced : Block}
    (found : multiplication? body = some replaced) : Accounts 1 [.loop body] replaced := by
  have smaller := size_multiplication_le found
  have straight := not_loop_of_multiplication? found
  obtain ⟨deltas, negate, net, _, rfl⟩ := exists_products found
  have before : Silent [.loop body] := by
    obtain ⟨additions, _⟩ := of_netDeltas net
    rw [Silent, nodes_loop, nodes_nil, nodes_eq_self (not_loop_of_additions additions),
      List.append_nil, List.forall_mem_cons]
    refine ⟨by simp [Node.kind], fun node among => ?_⟩
    simp [additions node among]
  have after : Silent (products negate deltas ++ [.setAt 0 0]) := by
    rw [Silent, nodes_eq_self straight, List.forall_mem_append]
    refine ⟨fun node among => ?_, by simp [Node.kind]⟩
    simp [kind_of_mem_products among]
  exact ⟨by rw [size_loop, size_nil]; omega, after.counts.1.trans before.counts.1.symm,
    after.counts.2.trans before.counts.2.symm⟩

/-! ## Rewrites -/

theorem not_loop_of_shiftable {distance : Int} {node shifted : Node}
    (shifts : node.shift? precision distance = some shifted) (body : Block) :
    node ≠ .loop body := by
  rintro rfl
  cases shifts

/-- Every rewrite puts as many nodes in the place of others, or fewer. -/
theorem accounts_of_rewrites (rewrites : Rewrites precision p q) : Accounts 0 p q := by
  induction rewrites with
  | refl p => exact .refl p
  | trans _ _ ih ih' => exact ih.trans ih'
  | append _ _ ih ih' =>
    obtain ⟨size, inputs, outputs⟩ := ih
    obtain ⟨size', inputs', outputs'⟩ := ih'
    refine ⟨?_, ?_, ?_⟩
    · rw [size_append, size_append]
      omega
    · rw [countKind_append, countKind_append, inputs, inputs']
    · rw [countKind_append, countKind_append, outputs, outputs']
  | loop _ ih =>
    obtain ⟨size, inputs, outputs⟩ := ih
    refine ⟨?_, ?_, ?_⟩
    · rw [size_loop, size_loop]
      omega
    · rw [countKind_loop, countKind_loop, inputs]
    · rw [countKind_loop, countKind_loop, outputs]
  | absorb shifts =>
    have notLoop := not_loop_of_shiftable shifts
    have notLoop' := not_loop_of_shift? shifts
    have move : ∀ distance, (Node.move distance).kind = .move := fun _ => rfl
    constructor <;>
      simp [size_single, countKind_single, notLoop, notLoop', move, kind_of_shift? shifts]
  | roundOffset shifts =>
    have notLoop := not_loop_of_shiftable shifts
    have notLoop' := not_loop_of_shift? shifts
    constructor <;> simp [size_single, countKind_single, notLoop, notLoop', kind_of_shift? shifts]
  | multiply found => exact (accounts_multiplication found).of_le (Nat.zero_le 1)
  | _ => constructor <;> simp [size_single, countKind_single, Node.kind]

theorem accounts_onBlock (pass : Pass) (block : Block) :
    Accounts 0 block (pass.onBlock precision block) :=
  accounts_of_rewrites (rewrites_onBlock pass block)

/-! ## Replaced loops -/

namespace Pass

/-- Whether a pass puts something else in the place of a loop whose inner blocks it is done
with. -/
def replaces (precision : Precision) (pass : Pass) : Node → Bool
  | .loop body =>
    pass.onBlock precision [.loop (pass.apply precision body)] !=
      [.loop (pass.apply precision body)]
  | _ => false

/-- The number of loops of a program, at every depth, in whose place a pass puts something
else. -/
def replacedLoops (precision : Precision) (pass : Pass) (program : Block) : Nat :=
  (nodes program).countP (pass.replaces precision)

/-- What a pass puts in the place of a node before it looks at the nodes around. -/
def atNode : Pass → Node → Block
  | .collapseAssignments oddDeltas, node => [clearing oddDeltas node]
  | .collapseMultiplications, node => multiplied node
  | .collapseScanLoops, node => [scanning node]
  | _, node => [node]

theorem atNode_of_not_loop (pass : Pass) {node : Node} (notLoop : ∀ body, node ≠ .loop body) :
    pass.atNode node = [node] := by
  cases pass <;> cases node <;> simp_all [atNode, clearing, multiplied, scanning]

theorem pushAssigned_nil (node : Node) : pushAssigned [] node = [node] := by
  cases node <;> rfl

/-- What is put in the place of a loop is what the pass makes of the loop alone. -/
theorem atNode_loop (pass : Pass) (body : Block) :
    pass.atNode (.loop body) = pass.onBlock precision [.loop body] := by
  cases pass with
  | collapseAssignments oddDeltas =>
    show _ = (pushAssigned [] (clearing oddDeltas (.loop body))).reverse
    rw [pushAssigned_nil]
    rfl
  | collapseMultiplications => exact (List.flatMap_singleton multiplied (.loop body)).symm
  | _ => rfl

/-- A pass makes no more of a block than of its nodes one by one. -/
theorem size_onBlock_le (pass : Pass) (block : Block) :
    size (pass.onBlock precision block) ≤ size (block.flatMap pass.atNode) := by
  have alone : ∀ pass : Pass, pass.atNode = (fun node => [node]) →
      size (pass.onBlock precision block) ≤ size (block.flatMap pass.atNode) := by
    intro pass same
    rw [same, List.flatMap_singleton']
    exact (accounts_onBlock pass block).size
  cases pass with
  | collapseAssignments oddDeltas =>
    have swept : Rewrites precision (block.map (clearing oddDeltas)) _ :=
      Rewrites.congruence.sweep pushAssigned (Rewrites.congruence.pushAssigned .setAdd) _
    rw [List.foldl_map] at swept
    have mapped : block.flatMap (atNode (.collapseAssignments oddDeltas)) =
        block.map (clearing oddDeltas) := List.map_eq_flatMap.symm
    rw [mapped]
    exact (accounts_of_rewrites swept).size
  | collapseMultiplications => exact Nat.le_refl _
  | collapseScanLoops =>
    have mapped : block.flatMap (atNode .collapseScanLoops) = scan block :=
      List.map_eq_flatMap.symm
    rw [mapped]
    exact Nat.le_refl _
  | _ => exact alone _ rfl

/-- What takes the place of a loop is no more than its body. -/
theorem atNode_loop_cases (pass : Pass) (body : Block) :
    pass.atNode (.loop body) = [.loop body] ∨ size (pass.atNode (.loop body)) ≤ size body := by
  cases pass with
  | collapseAssignments oddDeltas =>
    rw [atNode, clearing]
    split
    · rename_i cleared
      obtain ⟨delta, rfl, _⟩ := eq_of_clears cleared
      exact .inr (by simp [size_single])
    · exact .inl rfl
  | collapseMultiplications =>
    rw [atNode, multiplied]
    cases found : multiplication? body with
    | none => exact .inl rfl
    | some replaced => exact .inr (size_multiplication_le found)
  | collapseScanLoops =>
    rw [atNode]
    generalize same : Node.loop body = node
    fun_cases scanning node with
    | case1 | case3 => exact .inl rfl
    | case2 delta =>
      cases same
      exact .inr (by simp [size_single])
  | _ => exact .inl rfl

theorem replaceInNode_onBlock (body : Block) :
    replaceInNode (pass.onBlock precision) (.loop body) = .loop (pass.apply precision body) := by
  rw [apply_eq_replaceNested]
  rfl

theorem replacedLoops_nil : pass.replacedLoops precision [] = 0 := by
  rw [replacedLoops, nodes_nil, List.countP_nil]

theorem replacedLoops_loop (body rest : Block) :
    pass.replacedLoops precision (.loop body :: rest) =
      (if pass.replaces precision (.loop body) then 1 else 0) +
        pass.replacedLoops precision body + pass.replacedLoops precision rest := by
  rw [replacedLoops, nodes_loop, List.countP_cons, List.countP_append, replacedLoops,
    replacedLoops]
  omega

theorem replacedLoops_single {node : Node} (notLoop : ∀ body, node ≠ .loop body)
    (rest : Block) :
    pass.replacedLoops precision (node :: rest) = pass.replacedLoops precision rest := by
  have stays : pass.replaces precision node = false := by
    cases node with
    | loop body => exact absurd rfl (notLoop body)
    | _ => rfl
  rw [replacedLoops, nodes_single notLoop, List.countP_cons, stays, replacedLoops]
  rfl

/-- A loop that is replaced is a node less. -/
theorem size_atNode_add_le (precision : Precision) (pass : Pass) (body : Block) :
    size (pass.atNode (.loop (pass.apply precision body))) +
        (if pass.replaces precision (.loop body) then 1 else 0) ≤
      size (pass.apply precision body) + 1 := by
  rw [replaces, ← atNode_loop]
  rcases pass.atNode_loop_cases (pass.apply precision body) with same | smaller
  · simp [same]
  · split <;> omega

/-- By the nesting of the program: what a pass makes of a body is no more than of the nodes in
it one by one. -/
theorem size_apply_add_replacedLoops_le (precision : Precision) (pass : Pass) (program : Block) :
    size (pass.apply precision program) + pass.replacedLoops precision program ≤ size program := by
  have apply_le : ∀ block, size (pass.apply precision block) ≤
      size ((replaceInEach (pass.onBlock precision) block).flatMap pass.atNode) := by
    intro block
    rw [apply_eq_replaceNested]
    exact size_onBlock_le pass _
  refine Nat.le_trans (Nat.add_le_add_right (apply_le program) _) ?_
  induction program using Node.block_induction with
  | nil => simp [replaceInEach, replacedLoops_nil]
  | loop body rest ihBody ihRest =>
    have inner := apply_le body
    have alone := size_atNode_add_le precision pass body
    rw [replaceInEach, replaceInNode_onBlock, List.flatMap_cons, size_append, replacedLoops_loop,
      size_loop]
    omega
  | single node rest notLoop ih =>
    rw [replaceInEach, replaceInNode_of_not_loop _ notLoop, List.flatMap_cons,
      atNode_of_not_loop pass notLoop, size_append, replacedLoops_single notLoop,
      size_single notLoop, size_single notLoop, size_nil]
    omega

/-- The passes that only replace loops, node by node. -/
def OnlyReplacesLoops (pass : Pass) : Prop :=
  pass = .collapseMultiplications ∨ pass = .collapseScanLoops

theorem onBlock_eq_flatMap (only : pass.OnlyReplacesLoops) (block : Block) :
    pass.onBlock precision block = block.flatMap pass.atNode := by
  rcases only with rfl | rfl
  · rfl
  · exact List.map_eq_flatMap

/-- Such a pass changes a program only if it replaces a loop in it. -/
theorem apply_of_replacedLoops_eq_zero (only : pass.OnlyReplacesLoops)
    (none : pass.replacedLoops precision program = 0) :
    pass.apply precision program = program := by
  have applied : ∀ block, pass.apply precision block =
      (replaceInEach (pass.onBlock precision) block).flatMap pass.atNode := by
    intro block
    rw [apply_eq_replaceNested]
    exact onBlock_eq_flatMap only _
  induction program using Node.block_induction with
  | nil => simp [applied, replaceInEach]
  | loop body rest ihBody ihRest =>
    rw [replacedLoops_loop] at none
    have inner := ihBody (by omega)
    have others := ihRest (by omega)
    have stays : pass.atNode (.loop body) = [.loop body] := by
      by_contra changes
      have replaced : pass.replaces precision (.loop body) = true := by
        rw [replaces, inner, ← atNode_loop]
        exact bne_iff_ne.2 changes
      simp [replaced] at none
    rw [applied] at others
    rw [applied, replaceInEach, replaceInNode_onBlock, inner, List.flatMap_cons, stays, others,
      List.singleton_append]
  | single node rest notLoop ih =>
    rw [replacedLoops_single notLoop] at none
    have others := ih none
    rw [applied] at others
    rw [applied, replaceInEach, replaceInNode_of_not_loop _ notLoop, List.flatMap_cons,
      atNode_of_not_loop pass notLoop, others, List.singleton_append]

/-- Whatever such a pass does to a program makes it smaller. -/
theorem size_apply_lt (only : pass.OnlyReplacesLoops)
    (changed : pass.apply precision program ≠ program) :
    size (pass.apply precision program) < size program := by
  have saved := size_apply_add_replacedLoops_le precision pass program
  have replaced : pass.replacedLoops precision program ≠ 0 :=
    fun none => changed (apply_of_replacedLoops_eq_zero only none)
  omega

end Pass

/-! ## Passes in a row -/

/-- The number of loops that passes put something else in the place of, one after the other. -/
def replacedInTurn (precision : Precision) : List Pass → Block → Nat
  | [], _ => 0
  | pass :: rest, program =>
    pass.replacedLoops precision program +
      replacedInTurn precision rest (pass.apply precision program)

theorem accounts_apply (pass : Pass) (program : Block) :
    Accounts (pass.replacedLoops precision program) program (pass.apply precision program) := by
  have rewritten : Rewrites precision program (pass.apply precision program) :=
    Rewrites.congruence.apply (rewrites_onBlock pass) program
  have accounts := accounts_of_rewrites rewritten
  exact ⟨size_apply_add_replacedLoops_le precision pass program, accounts.inputs, accounts.outputs⟩

theorem accounts_runPasses (passes : List Pass) (program : Block) :
    Accounts (replacedInTurn precision passes program) program
      (runPasses precision passes program) := by
  induction passes generalizing program with
  | nil => exact .refl program
  | cons pass rest ih => exact (accounts_apply pass program).trans (ih _)

/-! ## Compiling -/

/-- The sizes that compiling reports are those of the program before and after the passes. -/
theorem stats_of_compile {file : SourceFile} {options : Options} {compiled : Compiled}
    (success : compile file options = .ok compiled) :
    compiled.stats.programNodes = size compiled.unoptimized ∧
      compiled.stats.optimizedNodes = size (optimize options compiled.unoptimized) := by
  rw [compile] at success
  cases parsed : ParseTree.parse (.ofSource file.text) with
  | error rejection => simp [parsed, Except.mapError, bind, Except.bind] at success
  | ok table =>
    rw [parsed] at success
    change Except.mapError _ (Compiled.ofTable _ table options) = _ at success
    rw [Compiled.ofTable] at success
    cases built : Program.ofTable table table.root with
    | error fault => simp [built, Except.mapError, bind, Except.bind] at success
    | ok unoptimized =>
      cases rendered : table.render table.root with
      | error fault => simp [built, rendered, Except.mapError, bind, Except.bind] at success
      | ok canonical =>
        rw [built, rendered] at success
        cases success
        exact ⟨rfl, rfl⟩

/-- No pass makes a program larger, nor does the optimizer under any options: each loop that is
replaced, by whichever pass, is at least a node less. The passes that only replace loops leave a
program as it is or make it smaller. The program has as many inputs and outputs as before. So
the optimized form of every source that compiles is no larger than the program first made of
it. -/
theorem never_grows :
    (∀ (precision : Precision) (pass : Pass) (program : Block),
      Accounts (pass.replacedLoops precision program) program (pass.apply precision program)) ∧
    (∀ (precision : Precision) (pass : Pass) (program : Block), pass.OnlyReplacesLoops →
      pass.apply precision program ≠ program →
        size (pass.apply precision program) < size program) ∧
    (∀ (options : Options) (program : Block),
      Accounts (replacedInTurn options.precision options.passes program) program
        (optimize options program)) ∧
    ∀ (file : SourceFile) (options : Options) (compiled : Compiled),
      compile file options = .ok compiled →
        compiled.stats.optimizedNodes ≤ compiled.stats.programNodes := by
  refine ⟨fun precision pass program => accounts_apply pass program,
    fun precision pass program only changed => size_apply_lt only changed,
    fun options program => accounts_runPasses options.passes program, ?_⟩
  intro file options compiled success
  obtain ⟨before, after⟩ := stats_of_compile success
  have accounts : Accounts _ _ (optimize options compiled.unoptimized) :=
    accounts_runPasses options.passes compiled.unoptimized
  rw [before, after]
  exact Nat.le_trans (Nat.le_add_right _ _) accounts.size

/-- A program in which a counting loop is replaced, and a source that compiles to no more nodes
than it was read as. -/
theorem never_grows_counting :
    let program : Block := [.addAt 0 5, .loop [.addAt 0 (-1), .addAt 1 2, .addAt 1 1]]
    let file : SourceFile := { text := "+[->++<]" }
    Accounts 1 program (Pass.collapseMultiplications.apply .double program) ∧
      size (Pass.collapseMultiplications.apply .double program) < size program ∧
        ∃ compiled, compile file = .ok compiled ∧
          compiled.stats.optimizedNodes ≤ compiled.stats.programNodes := by
  intro program file
  obtain ⟨passes, replacing, _, compiling⟩ := never_grows
  have one : Pass.collapseMultiplications.replacedLoops .double program = 1 := by
    have replaced : Pass.collapseMultiplications.replaces .double
        (.loop [.addAt 0 (-1), .addAt 1 2, .addAt 1 1]) = true := by
      rw [replaces, apply_eq_replaceNested]
      decide
    simp [program, replacedLoops_single, replacedLoops_loop, replacedLoops_nil, replaced]
  have changed : Pass.collapseMultiplications.apply .double program ≠ program := by
    rw [apply_eq_replaceNested]
    decide
  have balanced : Brackets.Balanced (Instruction.ofChars file.text.toList) :=
    (Brackets.balanced_eq_true_iff _).1 (by decide)
  obtain ⟨compiled, success⟩ := (exists_compile_iff_balanced file {}).2 balanced
  exact ⟨one ▸ passes .double .collapseMultiplications program,
    replacing .double .collapseMultiplications program (.inl rfl) changed,
    compiled, success, compiling file {} compiled success⟩

end TapeMachine.Optimize
