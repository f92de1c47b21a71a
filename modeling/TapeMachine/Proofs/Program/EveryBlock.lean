import TapeMachine.Proofs.Program.Blocks
import TapeMachine.Proofs.Program.Walk

/-!
# Every block of a program

A property of blocks may hold of the body of every loop in a program (`EveryBody`), and
of the program as well (`EveryBlock`). What a change of one block makes of it carries over to
a program whose blocks are all changed (`EveryBody.replaceNested`): inside a loop the body is
changed once its own loops are done, so a change that brings in no loops leaves nothing
unchanged.
-/

namespace TapeMachine.Program

/-- The body of every loop in a program has a property, at every depth. -/
def EveryBody (P : Block → Prop) (program : Block) : Prop :=
  ∀ body, .loop body ∈ nodes program → P body

/-- A program and the body of every loop in it have a property. -/
def EveryBlock (P : Block → Prop) (program : Block) : Prop :=
  P program ∧ EveryBody P program

variable {P Q : Block → Prop} {block : Block}

/-! ## By the nesting of a program -/

/-- A node of a program stands in the program itself or inside one of its loops. -/
theorem mem_nodes_iff {node : Node} : node ∈ nodes block ↔
    node ∈ block ∨ ∃ body, .loop body ∈ block ∧ node ∈ nodes body := by
  induction block using Node.block_induction with
  | nil => simp
  | loop body rest ihBody ihRest =>
    simp only [nodes_loop, List.mem_cons, List.mem_append, ihRest, Node.loop.injEq]
    constructor
    · rintro (here | inside | behind | ⟨inner, among, inside⟩)
      · exact .inl (.inl here)
      · exact .inr ⟨body, .inl rfl, inside⟩
      · exact .inl (.inr behind)
      · exact .inr ⟨inner, .inr among, inside⟩
    · rintro ((here | behind) | ⟨inner, rfl | among, inside⟩)
      · exact .inl here
      · exact .inr (.inr (.inl behind))
      · exact .inr (.inl inside)
      · exact .inr (.inr (.inr ⟨inner, among, inside⟩))
  | single node rest notLoop ih =>
    have apart : ∀ body, .loop body ∈ node :: rest ↔ .loop body ∈ rest := by
      intro body
      simp [(notLoop body).symm]
    simp only [nodes_single notLoop, apart, List.mem_cons, ih, or_assoc]

/-- What holds of every body holds of the loops of the block and inside them. -/
theorem everyBody_iff :
    EveryBody P block ↔ ∀ body, .loop body ∈ block → EveryBlock P body := by
  constructor
  · intro every body among
    refine ⟨every body (mem_nodes_iff.2 (.inl among)), ?_⟩
    intro inner inside
    exact every inner (mem_nodes_iff.2 (.inr ⟨body, among, inside⟩))
  · intro each body among
    rcases mem_nodes_iff.1 among with here | ⟨outer, here, inside⟩
    · exact (each body here).1
    · exact (each outer here).2 body inside

/-- Only the loops of a block matter to what is inside it. -/
theorem EveryBody.of_loops {other : Block} (every : EveryBody P block)
    (loops : ∀ body, .loop body ∈ other → .loop body ∈ block) : EveryBody P other := by
  rw [everyBody_iff] at every ⊢
  intro body among
  exact every body (loops body among)

theorem EveryBody.imp (every : EveryBody P block) (weaker : ∀ body, P body → Q body) :
    EveryBody Q block :=
  fun body among => weaker body (every body among)

theorem EveryBlock.imp (every : EveryBlock P block) (weaker : ∀ inner, P inner → Q inner) :
    EveryBlock Q block :=
  ⟨weaker block every.1, every.2.imp weaker⟩

theorem everyBody_loop (body rest : Block) :
    EveryBody P (.loop body :: rest) ↔ EveryBlock P body ∧ EveryBody P rest := by
  rw [everyBody_iff, everyBody_iff]
  constructor
  · intro each
    exact ⟨each body List.mem_cons_self, fun inner among => each inner (.tail _ among)⟩
  · rintro ⟨first, others⟩ inner among
    rcases List.mem_cons.1 among with same | later
    · exact Node.loop.inj same ▸ first
    · exact others inner later

theorem everyBody_single {node : Node} (notLoop : ∀ body, node ≠ .loop body) (rest : Block) :
    EveryBody P (node :: rest) ↔ EveryBody P rest := by
  simp only [EveryBody, nodes_single notLoop, List.mem_cons, (notLoop _).symm, false_or]

/-- What holds of all nodes holds of the nodes of every block. -/
theorem forall_mem_nodes_iff {R : Node → Prop} : (∀ node ∈ nodes block, R node) ↔
    EveryBlock (fun inner => ∀ node ∈ inner, R node) block := by
  induction block using Node.block_induction with
  | nil => simp [EveryBlock, EveryBody]
  | loop body rest ihBody ihRest =>
    simp only [nodes_loop, List.forall_mem_cons, List.forall_mem_append, ihBody, ihRest]
    rw [EveryBlock, EveryBlock, EveryBlock, everyBody_loop, List.forall_mem_cons]
    constructor
    · rintro ⟨first, inside, others, behind⟩
      exact ⟨⟨first, others⟩, inside, behind⟩
    · rintro ⟨⟨first, others⟩, inside, behind⟩
      exact ⟨first, inside, others, behind⟩
  | single node rest notLoop ih =>
    rw [EveryBlock] at ih ⊢
    rw [nodes_single notLoop, everyBody_single notLoop, List.forall_mem_cons,
      List.forall_mem_cons, ih, and_assoc]

/-! ## Replacing every block -/

variable {replace change : Block → Block}

theorem replaceInEach_eq_map (replace : Block → Block) (block : Block) :
    replaceInEach replace block = block.map (replaceInNode replace) := by
  induction block with
  | nil => rfl
  | cons node rest ih => rw [replaceInEach, ih, List.map_cons]

/-- A change that brings in no loops reaches the body of every loop. -/
theorem EveryBody.replaceNested (every : EveryBody P block)
    (loops : ∀ inner body, .loop body ∈ replace inner → .loop body ∈ inner)
    (changed : ∀ inner, EveryBlock P inner → Q (replaceNested replace inner)) :
    EveryBody Q (replaceNested replace block) := by
  refine EveryBody.of_loops ?_ (loops _)
  induction block using Node.block_induction with
  | nil => simp [replaceInEach, EveryBody]
  | loop body rest ihBody ihRest =>
    rw [everyBody_loop] at every
    rw [replaceInEach, replaceInNode, everyBody_loop]
    exact ⟨⟨changed body every.1, (ihBody every.1.2).of_loops (loops _)⟩, ihRest every.2⟩
  | single node rest notLoop ih =>
    rw [everyBody_single notLoop] at every
    rw [replaceInEach, replaceInNode_of_not_loop replace notLoop, everyBody_single notLoop]
    exact ih every

/-- Loops stay as they are if their bodies do. -/
theorem EveryBody.replaceInEach_eq_self
    (every : EveryBody (fun inner => replace inner = inner) block) :
    replaceInEach replace block = block := by
  induction block using Node.block_induction with
  | nil => rfl
  | loop body rest ihBody ihRest =>
    rw [everyBody_loop] at every
    rw [replaceInEach, replaceInNode, ihBody every.1.2, ihRest every.2, every.1.1]
  | single node rest notLoop ih =>
    rw [everyBody_single notLoop] at every
    rw [replaceInEach, replaceInNode_of_not_loop replace notLoop, ih every]

/-- A program stays as it is if all its blocks do. -/
theorem EveryBlock.replaceNested_eq_self
    (every : EveryBlock (fun inner => replace inner = inner) block) :
    Program.replaceNested replace block = block := by
  rw [Program.replaceNested, every.2.replaceInEach_eq_self, every.1]

theorem EveryBody.replaceInEach_congr (every : EveryBody P block)
    (same : ∀ inner, P inner →
      replace (replaceInEach change inner) = change (replaceInEach change inner)) :
    replaceInEach replace block = replaceInEach change block := by
  induction block using Node.block_induction with
  | nil => rfl
  | loop body rest ihBody ihRest =>
    rw [everyBody_loop] at every
    rw [replaceInEach, replaceInEach, replaceInNode, replaceInNode, ihBody every.1.2,
      ihRest every.2, same body every.1.1]
  | single node rest notLoop ih =>
    rw [everyBody_single notLoop] at every
    rw [replaceInEach, replaceInEach, replaceInNode_of_not_loop replace notLoop,
      replaceInNode_of_not_loop change notLoop, ih every]

/-- Two changes do the same to a program if they do the same to its blocks once the loops in
them are done. -/
theorem EveryBlock.replaceNested_congr (every : EveryBlock P block)
    (same : ∀ inner, P inner →
      replace (replaceInEach change inner) = change (replaceInEach change inner)) :
    Program.replaceNested replace block = Program.replaceNested change block := by
  rw [Program.replaceNested, every.2.replaceInEach_congr same, same block every.1,
    Program.replaceNested]

/-- Changing all blocks twice is changing them once in both ways, if the first change does not
look into loops. -/
theorem replaceNested_replaceNested
    (blind : ∀ inner, replaceInEach change (replace inner) = replace (replaceInEach change inner))
    (block : Block) :
    replaceNested change (replaceNested replace block) =
      replaceNested (fun inner => change (replace inner)) block := by
  have inside : replaceInEach change (replaceInEach replace block) =
      replaceInEach (fun inner => change (replace inner)) block := by
    induction block using Node.block_induction with
    | nil => rfl
    | loop body rest ihBody ihRest =>
      simp only [replaceInEach, replaceInNode, blind, ihBody, ihRest]
    | single node rest notLoop ih =>
      simp only [replaceInEach, replaceInNode_of_not_loop _ notLoop, ih]
  rw [replaceNested, replaceNested, blind, inside, replaceNested]

end TapeMachine.Program
