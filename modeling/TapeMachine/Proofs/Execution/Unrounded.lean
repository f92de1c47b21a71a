import TapeMachine.Proofs.Execution.Steps
import TapeMachine.Proofs.Machine.Addressing

/-!
# The addresses that a run forms

Sums with too many digits are rounded, and a tape does not grow to every cell. Neither shows
in a run that forms no address beyond the last cell that a tape can have (`Unrounded`): every
address is the sum it stands for, and every byte finds its place, so that the run does not end
for want of one (`Unrounded.ne_overgrown`).
-/

namespace TapeMachine

variable {ι ο η : Type}

/-! ## Addresses -/

/-- The last cell that a tape can have. Its number, like those before it, is kept exactly. -/
def lastCell : Nat := Tape.limit - 1

/-- The offsets by which a node addresses cells, given the bytes there: a product goes
to its target, and a scan on to the next cell, only if the byte is not zero. -/
def Node.offsets (byte : Int → UInt8) : Node → List Int
  | .addAt offset _ | .setAt offset _ | .outputAt offset | .inputAt offset => [offset]
  | .mulAt offset into _ => offset :: if byte offset = 0 then [] else [offset + into]
  | .move delta => [delta]
  | .scanLoop delta => if byte 0 = 0 then [] else [delta]
  | .loop _ => []

/-- Where more bytes are not zero, no offset is lost. -/
theorem Node.mem_offsets_of_ne_zero {byte byte' : Int → UInt8}
    (more : ∀ offset, byte offset ≠ 0 → byte' offset ≠ 0) {node : Node} {offset : Int}
    (among : offset ∈ node.offsets byte) : offset ∈ node.offsets byte' := by
  cases node with
  | mulAt source into factor =>
    by_cases zero : byte source = 0
    · simp only [offsets, if_pos zero, List.mem_singleton] at among
      exact among ▸ List.mem_cons_self
    · simp only [offsets, if_neg zero] at among
      simpa only [offsets, if_neg (more source zero)] using among
  | scanLoop delta =>
    by_cases zero : byte 0 = 0
    · simp [offsets, zero] at among
    · simp only [offsets, if_neg zero] at among
      simpa only [offsets, if_neg (more 0 zero)] using among
  | _ => exact among

/-- The byte at an offset from the pointer. -/
def Machine.byte (machine : Machine) (offset : Int) : UInt8 :=
  machine.read (machine.pointer + offset)

/-- The addresses that the next step forms, as whole numbers: the pointer, and what the
node in front adds to it. -/
def Config.addresses (config : Config ι ο η) : List Int :=
  config.rig.machine.pointer ::
    match config.code with
    | [] => []
    | node :: _ => (node.offsets config.rig.machine.byte).map (config.rig.machine.pointer + ·)

/-- The machine keeps its numbers in 53 digits, and its pointer is on the tape. -/
structure Ready (rig : Rig ι ο η) : Prop where
  precision : rig.machine.precision = .double
  pointer : 0 ≤ rig.machine.pointer

/-- An offset within the longest tape leads to the cell with that number. -/
theorem Ready.sum_eq {rig : Rig ι ο η} (ready : Ready rig) {offset : Int} {cell : Nat}
    (found : rig.machine.address offset = .ok cell)
    (within : rig.machine.pointer + offset ≤ lastCell) : rig.machine.pointer + offset = cell := by
  simp only [lastCell, Tape.limit] at within
  rcases Int.lt_or_le (rig.machine.pointer + offset) 0 with negative | low
  · obtain ⟨lost, refused⟩ := Machine.address_of_neg ready.precision (by decide) negative
    rw [found] at refused
    cases refused
  · rw [Machine.address_of_lt ready.precision low (by omega)] at found
    rw [← Except.ok.inj found, Int.toNat_of_nonneg low]

/-- So does one that is itself a rounded sum. -/
theorem Ready.sum_eq_of_round {rig : Rig ι ο η} (ready : Ready rig)
    (near : rig.machine.pointer ≤ lastCell) {offset : Int} {cell : Nat}
    (found : rig.machine.address (rig.machine.precision.round offset) = .ok cell)
    (within : rig.machine.pointer + offset ≤ lastCell) : rig.machine.pointer + offset = cell := by
  have nonneg := ready.pointer
  simp only [lastCell, Tape.limit] at near within
  rcases Int.lt_or_le (rig.machine.pointer + offset) 0 with negative | low
  · obtain ⟨lost, refused⟩ := Machine.address_round_of_neg ready.precision (by decide)
      ⟨nonneg, by omega⟩ negative
    rw [found] at refused
    cases refused
  · rw [Machine.address_round_of_lt ready.precision ⟨nonneg, by omega⟩ low (by omega)] at found
    rw [← Except.ok.inj found, Int.toNat_of_nonneg low]

/-! ## Steps -/

namespace Rig

/-- A byte finds no place only beyond the last cell. -/
theorem lastCell_lt_of_store {rig after : Rig ι ο η} {cell : Nat} {value : UInt8}
    {ending : Ending} (failed : rig.store cell value = .ended ending after) :
    (lastCell : Int) < cell := by
  rw [store_eq] at failed
  split at failed
  · cases failed
  · next beyond =>
    simp only [lastCell, Tape.limit] at beyond ⊢
    omega

theorem access_overgrown {rig after : Rig ι ο η} {offset : Int} {use : Nat → Outcome ι ο η}
    {lost : Nat} (failed : rig.access offset use = .ended (.overgrown lost) after) :
    ∃ cell, rig.machine.address offset = .ok cell ∧ use cell = .ended (.overgrown lost) after := by
  unfold access at failed
  split at failed
  · cases failed
  · next cell found => exact ⟨cell, found, failed⟩

theorem update_ne_overgrown {rig after : Rig ι ο η} (ready : Ready rig) {offset : Int}
    {change : UInt8 → UInt8} {lost : Nat} (within : rig.machine.pointer + offset ≤ lastCell) :
    rig.update offset change ≠ .ended (.overgrown lost) after := by
  intro failed
  rw [update_eq] at failed
  obtain ⟨cell, found, stored⟩ := access_overgrown failed
  have beyond := lastCell_lt_of_store stored
  rw [← ready.sum_eq found within] at beyond
  omega

/-- A product needs a place only where there is something to add, and then its target is among the
addresses. -/
theorem multiply_ne_overgrown {rig after : Rig ι ο η} (ready : Ready rig)
    (near : rig.machine.pointer ≤ lastCell) {offset into : Int} {factor : Int8} {lost : Nat}
    (within : ∀ other ∈ (Node.mulAt offset into factor).offsets rig.machine.byte,
      rig.machine.pointer + other ≤ lastCell) :
    rig.multiply offset into factor.toUInt8 ≠ .ended (.overgrown lost) after := by
  intro failed
  rw [multiply_eq] at failed
  obtain ⟨source, found, used⟩ := access_overgrown failed
  split at used
  · cases used
  next nonzero =>
  have byte : rig.machine.byte offset ≠ 0 := by
    rw [Machine.byte, ready.sum_eq found (within offset List.mem_cons_self)]
    exact nonzero
  have there := within (offset + into) (by simp [Node.offsets, byte])
  obtain ⟨target, found', stored⟩ := access_overgrown used
  have beyond := lastCell_lt_of_store stored
  rw [← ready.sum_eq_of_round near found' there] at beyond
  omega

theorem receive_ne_overgrown [InputSource ι] {rig after : Rig ι ο η} (ready : Ready rig)
    {offset : Int} {lost : Nat} (within : rig.machine.pointer + offset ≤ lastCell) :
    rig.receive offset ≠ .ended (.overgrown lost) after := by
  intro failed
  rw [receive_eq] at failed
  obtain ⟨cell, found, used⟩ := access_overgrown failed
  split at used
  · have beyond := lastCell_lt_of_store used
    rw [← ready.sum_eq found within] at beyond
    omega
  · cases used

/-- A node whose addresses lie on the longest tape finds a place for its byte. -/
theorem act_ne_overgrown [InputSource ι] [OutputSink ο] {rig after : Rig ι ο η} (ready : Ready rig)
    (near : rig.machine.pointer ≤ lastCell) {node : Node}
    (within : ∀ offset ∈ node.offsets rig.machine.byte, rig.machine.pointer + offset ≤ lastCell)
    (lost : Nat) : rig.act node ≠ .ended (.overgrown lost) after := by
  intro failed
  cases node with
  | addAt offset | setAt offset =>
    rw [act] at failed
    exact update_ne_overgrown ready (within offset List.mem_cons_self) failed
  | mulAt offset into factor =>
    rw [act] at failed
    exact multiply_ne_overgrown ready near within failed
  | move delta =>
    obtain ⟨_, _, underflow, _⟩ := underflows_of_move failed
    cases underflow
  | outputAt offset =>
    rw [act, write_eq] at failed
    obtain ⟨cell, found, used⟩ := access_overgrown failed
    split at used
    · cases used
    · cases used
  | inputAt offset =>
    rw [act] at failed
    exact receive_ne_overgrown ready (within offset List.mem_cons_self) failed
  | loop body => cases failed
  | scanLoop step => cases failed

end Rig

theorem Ready.poll [AbortHook η] {rig next : Rig ι ο η} (ready : Ready rig)
    (polled : rig.poll = .went next) : Ready next := by
  have same := Rig.machine_of_poll polled
  exact ⟨same ▸ ready.precision, same ▸ ready.pointer⟩

variable [InputSource ι] [OutputSink ο]

theorem Ready.act {rig next : Rig ι ο η} (ready : Ready rig) {node : Node}
    (acted : rig.act node = .went next) : Ready next := by
  refine ⟨?_, Rig.pointer_of_act acted ready.pointer⟩
  rcases Rig.act_went acted with rfl | ⟨cell, value, rfl⟩ | ⟨_, cell, _, _, rfl⟩ |
    ⟨_, output, _, rfl⟩ | ⟨cell, value, input, _, rfl⟩
  · exact ready.precision
  · exact ready.precision
  · exact ready.precision
  · exact ready.precision
  · exact ready.precision

variable [AbortHook η]

theorem Config.Reaches.ready {config last : Config ι ο η} (reached : config.Reaches last)
    (start : Ready config.rig) : Ready last.rig :=
  reached.keeps (fun ready => ready.poll) (fun _ ready => ready.act) start

/-- A step whose addresses lie on the longest tape does not end the run for want of a cell. -/
theorem Config.step_ne_overgrown {config : Config ι ο η} (ready : Ready config.rig)
    (within : ∀ address ∈ config.addresses, address ≤ lastCell) (lost : Nat)
    (after : Rig ι ο η) : config.step ≠ .stop (.overgrown lost) after := by
  intro stopped
  rcases stop_cases stopped with ⟨finished, _⟩ | polled | ⟨tried, action, tries, acted⟩
  · cases finished
  · cases (Rig.poll_ended polled).1
  rcases tries with ⟨rest, code, _, rfl⟩ | ⟨step, rest, _, rfl, _⟩
  · refine Rig.act_ne_overgrown ready (within _ List.mem_cons_self) ?_ lost acted
    intro offset among
    refine within _ (List.mem_cons_of_mem _ ?_)
    rw [code]
    exact List.mem_map_of_mem among
  · obtain ⟨_, _, underflow, _⟩ := Rig.underflows_of_move acted
    cases underflow

/-! ## Runs -/

/-- The run of a program forms no address beyond the last cell that a tape can have. -/
def Unrounded (program : Block) (rig : Rig ι ο η) : Prop :=
  ∀ config : Config ι ο η,
    Config.Reaches ⟨program, [], rig⟩ config → ∀ address ∈ config.addresses, address ≤ lastCell

/-- Such a run does not end for want of a cell. -/
theorem Unrounded.ne_overgrown {program : Block} {rig after : Rig ι ο η} {fuel : Nat}
    {ending : Ending} (unrounded : Unrounded program rig) (ready : Ready rig)
    (executed : execute fuel program rig = some (ending, after)) (lost : Nat) :
    ending ≠ .overgrown lost := by
  obtain ⟨⟨ended, stopped⟩, ran, settled⟩ := Option.map_eq_some_iff.1 executed
  obtain ⟨last, reached, stops⟩ := Config.exists_last_of_run ran
  have same : (stopped.settle ended).1 = ending := congrArg Prod.fst settled
  rintro rfl
  unfold Rig.settle at same
  split at same
  · obtain rfl : ended = .overgrown lost := same
    exact Config.step_ne_overgrown (reached.ready ready) (unrounded last reached) lost stopped stops
  · cases same

/-- Whether a run comes to an end within so many steps and forms no address beyond the last
cell on the way. -/
def checkUnrounded : Nat → Config ι ο η → Bool
  | 0, _ => false
  | fuel + 1, config =>
    config.addresses.all (fun address => decide (address ≤ lastCell)) &&
      match config.step with
      | .stop _ _ => true
      | .next next => checkUnrounded fuel next

theorem unrounded_of_check {program : Block} {rig : Rig ι ο η} (fuel : Nat)
    (checked : checkUnrounded fuel ⟨program, [], rig⟩ = true) : Unrounded program rig := by
  intro config reached
  generalize Config.mk program [] rig = start at checked reached
  induction reached generalizing fuel with
  | refl =>
    obtain _ | fuel := fuel
    · cases checked
    · rw [checkUnrounded, Bool.and_eq_true, List.all_eq_true] at checked
      exact fun address among => of_decide_eq_true (checked.1 address among)
  | step stepped _ ih =>
    obtain _ | fuel := fuel
    · cases checked
    · rw [checkUnrounded, Bool.and_eq_true, stepped] at checked
      exact ih fuel checked.2

end TapeMachine
