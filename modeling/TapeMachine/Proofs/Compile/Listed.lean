import TapeMachine.Proofs.Optimize.Accounting
import TapeMachine.Proofs.Optimize.Deferral
import TapeMachine.Proofs.Optimize.Products
import TapeMachine.Proofs.Program.Listing

/-!
# Listings of compiled programs

An instruction becomes a node whose numbers can be kept, and what the optimizer writes in the place
of other nodes has numbers that it has rounded, or bytes, or numbers of those nodes
(`Rewrites.representable`). So every number of a compiled program can be kept, and compiled
programs that are listed alike are the same (`eq_of_listing_eq_of_compile`).
-/

namespace TapeMachine

open Program

/-! ## Numbers of a node -/

namespace Node

variable {node shifted : Node} {distance : Int}

/-- The numbers of a node that are not bytes. -/
def positions : Node → List Int
  | .addAt offset _ | .setAt offset _ | .outputAt offset | .inputAt offset => [offset]
  | .mulAt offset into _ => [offset, into]
  | .move delta | .scanLoop delta => [delta]
  | .loop _ => []

/-- Bytes can be kept. -/
theorem representable_iff :
    node.Representable ↔ ∀ n ∈ node.positions, Precision.double.round n = n := by
  have signed (delta : Int8) : Precision.double.round delta.toInt = delta.toInt := by
    have low := delta.le_toInt
    have high := delta.toInt_lt
    exact Precision.round_of_lt (by omega)
  have unsigned (value : UInt8) : Precision.double.round value.toNat = value.toNat := by
    have high := value.toNat_lt
    exact Precision.round_of_lt (by omega)
  cases node <;> simp [Representable, numbers, positions, signed, unsigned]

/-- What a shift changes it rounds. -/
theorem Representable.of_shift? (kept : node.Representable)
    (shifts : node.shift? .double distance = some shifted) : shifted.Representable := by
  have rounded (offset : Int) : Precision.double.round (Precision.double.add offset distance) =
      Precision.double.add offset distance := Position.round_round _
  rw [representable_iff] at kept ⊢
  cases node with
  | mulAt offset into factor =>
    cases shifts
    rw [positions, List.forall_mem_cons] at kept ⊢
    exact ⟨rounded offset, kept.2⟩
  | addAt offset | setAt offset | outputAt offset | inputAt offset =>
    cases shifts
    exact List.forall_mem_singleton.2 (rounded offset)
  | _ => cases shifts

end Node

/-! ## Rewriting -/

namespace Optimize

variable {p q : Block}

/-- The products in the place of a loop are for cells that the loop adds to. -/
theorem representable_multiplication {body replaced : Block}
    (found : multiplication? body = some replaced)
    (kept : ∀ node ∈ nodes body, node.Representable) :
    ∀ node ∈ nodes replaced, node.Representable := by
  have straight := not_loop_of_multiplication? found
  obtain ⟨deltas, negate, net, -, rfl⟩ := exists_products found
  obtain ⟨entries, rfl, -, -, named⟩ := additions_of_netDeltasFrom List.Pairwise.nil net
  have places : ∀ entry ∈ entries, Precision.double.round entry.1 = entry.1 := by
    intro entry among
    have added : .addAt entry.1 entry.2 ∈ additions entries :=
      List.mem_map.2 ⟨entry, among, rfl⟩
    exact Node.representable_iff.1 (kept _ (mem_nodes_iff.2 (.inl added))) _ List.mem_cons_self
  rw [nodes_eq_self straight, List.forall_mem_append]
  constructor
  · intro node among
    obtain ⟨entry, listed, becomes⟩ := List.mem_filterMap.1 among
    simp only [Option.ite_none_left_eq_some] at becomes
    obtain ⟨old, counted, same⟩ := named entry listed
    rw [← Option.some.inj becomes.2, Node.representable_iff, Node.positions, List.forall_mem_cons,
      List.forall_mem_singleton]
    exact ⟨Precision.round_zero _, same ▸ places old counted⟩
  · rw [List.forall_mem_singleton, Node.representable_iff, Node.positions,
      List.forall_mem_singleton]
    exact Precision.round_zero _

/-- A rewrite leaves numbers that can be kept. -/
theorem Rewrites.representable (rewrites : Rewrites .double p q)
    (kept : ∀ node ∈ nodes p, node.Representable) : ∀ node ∈ nodes q, node.Representable := by
  have rounded (n m : Int) : Precision.double.round (Precision.double.add n m) =
      Precision.double.add n m := Position.round_round _
  induction rewrites with
  | refl => exact kept
  | trans _ _ first second => exact second (first kept)
  | append _ _ front back =>
    rw [nodes_append, List.forall_mem_append] at kept ⊢
    exact ⟨front kept.1, back kept.2⟩
  | loop _ ih =>
    rw [nodes_loop, List.forall_mem_cons, List.forall_mem_append] at kept ⊢
    exact ⟨fun _ none => (List.not_mem_nil none).elim, ih kept.2.1, kept.2.2⟩
  | @absorb distance node shifted shifts =>
    have move : ∀ body, Node.move distance ≠ .loop body := fun _ same => nomatch same
    rw [nodes_single move, List.forall_mem_cons, nodes_single (not_loop_of_shiftable shifts),
      List.forall_mem_cons] at kept
    rw [nodes_single (not_loop_of_shift? shifts), List.forall_mem_cons, nodes_single move,
      List.forall_mem_cons]
    exact ⟨kept.2.1.of_shift? shifts, kept.1, kept.2.2⟩
  | roundOffset shifts =>
    rw [nodes_single (not_loop_of_shiftable shifts), List.forall_mem_cons] at kept
    rw [nodes_single (not_loop_of_shift? shifts), List.forall_mem_cons]
    exact ⟨kept.1.of_shift? shifts, kept.2⟩
  | multiply found =>
    rw [nodes_loop, List.forall_mem_cons, List.forall_mem_append] at kept
    exact representable_multiplication found kept.2.1
  | addAdd | setAdd | scan =>
    simpa [nodes_single, Node.representable_iff, Node.positions] using kept
  | _ => simp [nodes_single, Node.representable_iff, Node.positions, rounded]

end Optimize

/-! ## Compilation -/

/-- The nodes of instructions are about the cell under the pointer, or move by one. -/
theorem Program.representable_of_spell? {block : Block} : ∀ {text : List Instruction},
    spell? block = some text → ∀ node ∈ nodes block, node.Representable := by
  induction block using Node.block_induction with
  | nil => simp
  | loop body rest ihBody ihRest =>
    intro text spelled
    rcases spell?_cons_cases spelled with
      ⟨instruction, _, becomes, _, _⟩ | ⟨_, inner, others, same, within, later, rfl⟩
    · cases instruction <;> cases becomes
    · cases same
      rw [nodes_loop, List.forall_mem_cons, List.forall_mem_append]
      exact ⟨fun _ none => (List.not_mem_nil none).elim, ihBody within, ihRest later⟩
  | single node rest notLoop ih =>
    intro text spelled
    rcases spell?_cons_cases spelled with
      ⟨instruction, others, becomes, later, rfl⟩ | ⟨body, _, _, same, _, _, _⟩
    · rw [nodes_single notLoop, List.forall_mem_cons]
      refine ⟨?_, ih later⟩
      rw [Node.representable_iff]
      cases instruction <;> cases becomes <;> decide
    · exact absurd same (notLoop body)

/-- Every number of a compiled program can be kept. -/
theorem representable_of_compile {file : SourceFile} {options : Optimize.Options}
    {compiled : Compiled} (precise : options.precision = .double)
    (compiles : compile file options = .ok compiled) :
    ∀ node ∈ nodes compiled.program, node.Representable := by
  obtain ⟨other, compiles', spelled, optimized, -⟩ :=
    exists_compiled file ((exists_compile_iff_balanced file options).1 ⟨_, compiles⟩) options
  rw [compiles] at compiles'
  cases compiles'
  rw [optimized]
  have rewrites := Optimize.rewrites_optimize options compiled.unoptimized
  rw [precise] at rewrites
  exact rewrites.representable (Program.representable_of_spell? spelled)

/-- Compiled programs that are listed alike are the same. -/
theorem eq_of_listing_eq_of_compile {file file' : SourceFile} {options options' : Optimize.Options}
    {compiled compiled' : Compiled} (precise : options.precision = .double)
    (precise' : options'.precision = .double) (compiles : compile file options = .ok compiled)
    (compiles' : compile file' options' = .ok compiled')
    {text : String} (listed : Program.listing compiled.program = .ok text)
    (listed' : Program.listing compiled'.program = .ok text) :
    compiled.program = compiled'.program :=
  Program.eq_of_listing_eq_ok (representable_of_compile precise compiles)
    (representable_of_compile precise' compiles') listed listed'

end TapeMachine
