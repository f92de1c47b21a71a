import TapeMachine.Proofs.Execution.Steps

/-!
# What a run does to its sink

A run calls its sink for two things only. It writes a byte where it comes to an output, and it
flushes once when it has ended (`output_of_execute`). So what is known of a sink after any
calls is known of it after a run.
-/

namespace TapeMachine

variable {ι ο η : Type}

/-! ## Calls -/

/-- A call of a sink. -/
inductive SinkCall where
  | write (byte : UInt8)
  | flush
  deriving DecidableEq, Repr

namespace SinkCall

/-- The byte that a call brings, if it brings one. -/
def bytes : SinkCall → List UInt8
  | .write byte => [byte]
  | .flush => []

/-- Makes a call. -/
def perform [OutputSink ο] (sink : ο) : SinkCall → Option DeviceFault × ο
  | .write byte => OutputSink.write sink byte
  | .flush => OutputSink.flush sink

/-- The bytes that some calls bring. -/
def written (calls : List SinkCall) : List UInt8 :=
  calls.flatMap bytes

@[simp] theorem written_append (calls more : List SinkCall) :
    written (calls ++ more) = written calls ++ written more := by
  simp [written]

@[simp] theorem written_singleton (call : SinkCall) : written [call] = call.bytes := by
  simp [written]

/-- Every byte is brought by its own call. -/
@[simp] theorem written_map_write (bytes : List UInt8) : written (bytes.map .write) = bytes := by
  induction bytes with
  | nil => rfl
  | cons byte rest ih => exact congrArg (byte :: ·) ih

end SinkCall

/-- A sink after some calls. One that reports a fault does not keep the later ones from being
made. -/
def OutputSink.afterCalls [OutputSink ο] (sink : ο) (calls : List SinkCall) : ο :=
  calls.foldl (fun sink call => (call.perform sink).2) sink

theorem OutputSink.afterCalls_append [OutputSink ο] (sink : ο) (calls more : List SinkCall) :
    afterCalls sink (calls ++ more) = afterCalls (afterCalls sink calls) more := by
  unfold afterCalls
  rw [List.foldl_append]

/-! ## Steps -/

/-- The rig that an outcome leaves. -/
def Outcome.rig : Outcome ι ο η → Rig ι ο η
  | .went rig => rig
  | .ended _ rig => rig

/-- The rig that a step leaves. -/
def Progress.rig : Progress ι ο η → Rig ι ο η
  | .next config => config.rig
  | .stop _ rig => rig

theorem Outcome.rig_andThen (outcome : Outcome ι ο η) {proceed : Rig ι ο η → Config ι ο η}
    (same : ∀ rig, (proceed rig).rig = rig) : (outcome.andThen proceed).rig = outcome.rig := by
  cases outcome with
  | went rig => exact same rig
  | ended ending rig => rfl

namespace Rig

theorem output_access {rig : Rig ι ο η} {offset : Int} {use : Nat → Outcome ι ο η}
    (kept : ∀ cell, (use cell).rig.output = rig.output) :
    (rig.access offset use).rig.output = rig.output := by
  unfold access
  split
  · rfl
  · exact kept _

theorem output_store (rig : Rig ι ο η) (cell : Nat) (value : UInt8) :
    (rig.store cell value).rig.output = rig.output := by
  rw [store_eq]
  split
  · rfl
  · rfl

/-- A poll does not touch the output. -/
theorem output_poll [AbortHook η] (rig : Rig ι ο η) : rig.poll.rig.output = rig.output := by
  cases polled : rig.poll with
  | went next => exact (sameState_of_poll_went polled).2.2
  | ended ending after => exact (poll_ended polled).2.2.2

variable [InputSource ι] [OutputSink ο]

/-- No action but an output touches the sink. -/
theorem output_act {rig : Rig ι ο η} {node : Node} (other : ∀ offset, node ≠ .outputAt offset) :
    (rig.act node).rig.output = rig.output := by
  cases node with
  | addAt offset delta =>
    rw [act, update_eq]
    exact output_access fun _ => output_store _ _ _
  | setAt offset value =>
    rw [act, update_eq]
    exact output_access fun _ => output_store _ _ _
  | mulAt offset into factor =>
    rw [act, multiply_eq]
    refine output_access ?_
    intro source
    split
    · rfl
    · exact output_access fun _ => output_store _ _ _
  | move delta =>
    rw [act, move_eq]
    exact output_access fun _ => rfl
  | inputAt offset =>
    rw [act, receive_eq]
    refine output_access ?_
    intro cell
    split
    · exact output_store _ _ _
    · rfl
  | outputAt offset => exact absurd rfl (other offset)
  | loop | scanLoop => rfl

end Rig

namespace Config

/-- The byte that the next step writes, if it writes one. -/
def emits (config : Config ι ο η) : List UInt8 :=
  match config.code with
  | .outputAt offset :: _ =>
    match config.rig.machine.address offset with
    | .ok cell => [config.rig.machine.tape.get cell]
    | .error _ => []
  | _ => []

theorem emits_of_not_output {node : Node} {rest : Block} {loops : List OpenLoop}
    {rig : Rig ι ο η} (other : ∀ offset, node ≠ .outputAt offset) :
    emits ⟨node :: rest, loops, rig⟩ = [] := by
  cases node with
  | outputAt offset => exact absurd rfl (other offset)
  | _ => rfl

variable [InputSource ι] [OutputSink ο] [AbortHook η]

omit [AbortHook η] in
/-- An output writes its byte, whether the sink reports a fault or not. -/
theorem output_outputAt (offset : Int) (rest : Block) (loops : List OpenLoop) (rig : Rig ι ο η) :
    (rig.act (.outputAt offset)).rig.output =
      OutputSink.afterCalls rig.output
        ((emits ⟨.outputAt offset :: rest, loops, rig⟩).map .write) := by
  rw [Rig.act, Rig.write_eq, Rig.access, emits]
  cases found : rig.machine.address offset with
  | error cell => simp only [found]; rfl
  | ok cell =>
    simp only [found]
    show _ = (OutputSink.write rig.output (rig.machine.tape.get cell)).2
    cases OutputSink.write rig.output (rig.machine.tape.get cell) with
    | mk fault output => cases fault <;> rfl

/-- A step calls the sink for the byte that it writes, and for nothing else. -/
theorem output_step (config : Config ι ο η) :
    config.step.rig.output =
      OutputSink.afterCalls config.rig.output (config.emits.map .write) := by
  obtain ⟨_ | ⟨node, rest⟩, loops, rig⟩ := config
  · obtain _ | ⟨loop, outer⟩ := loops
    · rfl
    rw [step_nil]
    split
    · rfl
    · rw [Outcome.rig_andThen rig.poll fun _ => rfl]
      exact rig.output_poll
  -- Only an output has a byte to write; every other step leaves the sink as it is.
  by_cases output : ∃ offset, node = .outputAt offset
  · obtain ⟨offset, rfl⟩ := output
    rw [step_single rfl, Outcome.rig_andThen _ fun _ => rfl]
    exact output_outputAt offset rest loops rig
  have other : ∀ offset, node ≠ .outputAt offset := fun offset same => output ⟨offset, same⟩
  rw [emits_of_not_output other]
  show _ = rig.output
  cases single : node.isSingle with
  | true =>
    rw [step_single single, Outcome.rig_andThen _ fun _ => rfl]
    exact Rig.output_act other
  | false =>
    cases node with
    | loop body =>
      rw [step_loop_eq]
      split
      · rw [Outcome.rig_andThen _ fun _ => rfl]
        exact rig.output_poll
      · rw [Outcome.rig_andThen _ fun _ => rfl]
        exact rig.output_poll
    | scanLoop distance =>
      rw [step_scanLoop]
      split
      · rfl
      have kept := rig.output_poll
      split
      · next polled =>
        rw [polled] at kept
        exact kept
      · next next polled =>
        rw [polled] at kept
        have moved : (next.act (.move distance)).rig.output = next.output :=
          Rig.output_act fun _ same => nomatch same
        rw [Outcome.rig_andThen _ fun _ => rfl]
        exact moved.trans kept
    | _ => cases single

/-! ## Runs -/

/-- A run gets from one configuration to another, and writes these bytes on the way. -/
inductive Emits : Config ι ο η → List UInt8 → Config ι ο η → Prop
  | refl {config : Config ι ο η} : Emits config [] config
  | step {config next last : Config ι ο η} {bytes : List UInt8} :
      config.step = .next next → Emits next bytes last → Emits config (config.emits ++ bytes) last

theorem Reaches.exists_emits {config last : Config ι ο η} (reached : config.Reaches last) :
    ∃ bytes, config.Emits bytes last := by
  induction reached with
  | refl => exact ⟨[], .refl⟩
  | step stepped _ ih =>
    obtain ⟨bytes, emits⟩ := ih
    exact ⟨_, .step stepped emits⟩

theorem Emits.output {config last : Config ι ο η} {bytes : List UInt8}
    (emits : config.Emits bytes last) :
    last.rig.output = OutputSink.afterCalls config.rig.output (bytes.map .write) := by
  induction emits with
  | refl => rfl
  | @step config next last bytes stepped _ ih =>
    have first := config.output_step
    rw [stepped] at first
    rw [ih, List.map_append, OutputSink.afterCalls_append, ← first]
    rfl

end Config

variable [InputSource ι] [OutputSink ο] [AbortHook η]

/-- The run of a program ends, and has written these bytes by then. -/
def WritesByEnd (program : Block) (rig : Rig ι ο η) (bytes : List UInt8) : Prop :=
  ∃ last early ending stopped, (Config.mk program [] rig).Emits early last ∧
    last.step = .stop ending stopped ∧ bytes = early ++ last.emits

omit [InputSource ι] [AbortHook η] in
/-- Settling a run flushes its sink once. -/
theorem Rig.output_settle (ending : Ending) (rig : Rig ι ο η) :
    (rig.settle ending).2.output = (OutputSink.flush rig.output).2 := by
  unfold settle
  cases OutputSink.flush rig.output with
  | mk fault output => cases fault <;> rfl

/-- At its end a run has called the sink for the bytes that it writes, one after the other, and
then flushed it once. -/
theorem output_of_execute {program : Block} {rig after : Rig ι ο η} {fuel : Nat} {ending : Ending}
    (executed : execute fuel program rig = some (ending, after)) :
    ∃ bytes, WritesByEnd program rig bytes ∧
      after.output = OutputSink.afterCalls rig.output (bytes.map .write ++ [.flush]) := by
  obtain ⟨⟨ended, stopped⟩, ran, settled⟩ := Option.map_eq_some_iff.1 executed
  obtain ⟨last, reached, stops⟩ := Config.exists_last_of_run ran
  obtain ⟨early, emits⟩ := reached.exists_emits
  refine ⟨early ++ last.emits, ⟨last, early, ended, stopped, emits, stops, rfl⟩, ?_⟩
  have final := last.output_step
  rw [stops, emits.output] at final
  have flushed : after.output = (OutputSink.flush stopped.output).2 := by
    rw [← stopped.output_settle ended]
    exact congrArg (·.2.output) settled.symm
  rw [List.map_append, OutputSink.afterCalls_append, OutputSink.afterCalls_append, ← final]
  exact flushed

end TapeMachine
