import TapeMachine.Proofs.Execution.Fence
import TapeMachine.Proofs.Strip.Correspondence

/-!
# Leaving the strip

The end of a strip on the right is a fence: if a program's run on a strip ends at an address
beyond it, then the executor gets to a configuration that is about to form this address.
-/

namespace TapeMachine.Strip

variable {last count : Nat} {allowed : Option Nat}

/-- A rig uses the offsets that are used on the strip. -/
theorem Shows.mem_offsets {s : Strip last} {bench : Bench} (shown : Shows count allowed s bench)
    {node : Node} {offset : Int} (among : offset ∈ node.offsets s.byte) :
    offset ∈ node.offsets bench.machine.byte := by
  refine Node.mem_offsets_of_ne_zero (fun other nonzero => ?_) among
  rw [byte] at nonzero
  split at nonzero
  · rename_i holds
    rw [Machine.byte, shown.pointer, ← coe_cell holds]
    change bench.machine.tape.get (s.cell other) ≠ 0
    rw [shown.cells]
    exact nonzero
  · exact absurd rfl nonzero

/-- A node ends the run at an address beyond the strip only if it forms that address. -/
theorem Shows.exists_offset {s t : Strip last} {bench : Bench}
    (shown : Shows count allowed s bench) {node : Node} {ending : Ending}
    (acted : (interpretation last allowed).act node s = .ended ending t)
    (escapes : ending.Escapes last) :
    ∃ offset ∈ node.offsets bench.machine.byte, (last : Int) < bench.machine.pointer + offset := by
  rw [interpretation_act] at acted
  rcases act_went_or_underflow node s with ⟨_, went⟩ | ⟨offset, among, off⟩
  · rw [went] at acted
    cases acted
  · rw [off] at acted
    cases acted
    refine ⟨offset, shown.mem_offsets among, ?_⟩
    rw [shown.pointer]
    exact escapes

theorem fence (positive : 0 < count) (fits : last < 2 ^ count) (room : last < Tape.limit) :
    Fence (correspondence last count allowed) (Ending.Escapes last) last where
  refines := refines_self positive fits room
  poll := by
    intro s t ending polled
    rw [interpretation_poll, poll] at polled
    split at polled
    · cases polled
      exact id
    · cases polled
  act shown acted escapes := Shows.exists_offset shown acted escapes

end TapeMachine.Strip
