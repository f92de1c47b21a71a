import TapeMachine.Device.Memory
import TapeMachine.Proofs.Execution.Footprint

/-!
# Failing runs

However a run ends, it has touched no cell left of the tape, its pointer is at a cell and
its output is flushed once. A run that is stopped by an address or by the hook leaves
everything as the last completed step left it.
-/

namespace TapeMachine

variable {ι η : Type}

/-! ## What steps keep -/

/-- No action flushes the output. -/
theorem Rig.flushes_of_act [InputSource ι] {rig next : Rig ι Collected η} {node : Node}
    (acted : rig.act node = .went next) : next.output.flushes = rig.output.flushes := by
  rcases act_went acted with rfl | ⟨cell, value, rfl⟩ | ⟨_, cell, _, _, rfl⟩ |
    ⟨_, output, written, rfl⟩ | ⟨cell, value, input, _, rfl⟩
  · rfl
  · rfl
  · rfl
  · cases written
    rfl
  · rfl

/-- The pointer is at a cell, and the output has been flushed so many times. -/
def Rig.Steady (flushes : Nat) (rig : Rig ι Collected η) : Prop :=
  0 ≤ rig.machine.pointer ∧ rig.output.flushes = flushes

theorem Rig.SameState.steady {flushes : Nat} {rig other : Rig ι Collected η}
    (same : other.SameState rig) (steady : rig.Steady flushes) : other.Steady flushes := by
  obtain ⟨machine, _, output⟩ := same
  unfold Steady
  rw [machine, output]
  exact steady

variable [InputSource ι] [AbortHook η]

theorem Config.Reaches.steady {flushes : Nat} {config last : Config ι Collected η}
    (reached : config.Reaches last) (start : config.rig.Steady flushes) :
    last.rig.Steady flushes := by
  refine reached.keeps ?_ ?_ start
  · intro rig next steady polled
    exact (Rig.sameState_of_poll_went polled).steady steady
  · intro rig next node steady acted
    exact ⟨Rig.pointer_of_act acted steady.1, (Rig.flushes_of_act acted).trans steady.2⟩

/-! ## How runs end -/

/-- A run has ended in the step of a configuration that it reached, and with its cells,
pointer, input and bytes written. -/
structure StoppedAt (program : Block) (rig : Rig ι Collected η) (ending : Ending)
    (after : Rig ι Collected η) (last : Config ι Collected η) : Prop where
  reached : (Config.mk program [] rig).Reaches last
  stops : ∃ stopped, last.step = .stop ending stopped
  machine : after.machine = last.rig.machine
  input : after.input = last.rig.input
  bytes : after.output.bytes = last.rig.output.bytes

theorem exists_last_of_execute {program : Block} {rig after : Rig ι Collected η} {fuel : Nat}
    {ending : Ending} (executed : execute fuel program rig = some (ending, after)) :
    ∃ last stopped, (Config.mk program [] rig).Reaches last ∧ last.step = .stop ending stopped ∧
      after = { stopped with
        output := { stopped.output with flushes := stopped.output.flushes + 1 } } := by
  obtain ⟨⟨ended, stopped⟩, ran, settled⟩ := Option.map_eq_some_iff.1 executed
  obtain ⟨last, reached, stops⟩ := Config.exists_last_of_run ran
  cases settled
  exact ⟨last, stopped, reached, stops, rfl⟩

/-- Flushing changes nothing but the number of times it was done. -/
theorem stoppedAt_of_sameState {program : Block} {rig stopped : Rig ι Collected η}
    {ending : Ending} {last : Config ι Collected η}
    (reached : (Config.mk program [] rig).Reaches last) (stops : last.step = .stop ending stopped)
    (same : stopped.SameState last.rig) (flushes : Nat) :
    StoppedAt program rig ending { stopped with output := { stopped.output with flushes } }
      last := by
  obtain ⟨machine, input, output⟩ := same
  refine ⟨reached, ⟨stopped, stops⟩, machine, input, ?_⟩
  show stopped.output.bytes = _
  rw [output]

end TapeMachine
