import TapeMachine.Proofs.Device.Reception
import TapeMachine.Proofs.Execution.Emission

/-!
# What a run does to its source

A run reads where it comes to an input and nowhere else, so its readings are those that its source
gives in a row (`reads_of_execute`). A queue gives its values in order, and is at its end only
behind the last of them (`ByteQueue.reads_eq`).
-/

namespace TapeMachine

variable {ι ο η : Type}

/-! ## Steps -/

namespace Rig

theorem input_access {rig : Rig ι ο η} {offset : Int} {use : Nat → Outcome ι ο η}
    (kept : ∀ cell, (use cell).rig.input = rig.input) :
    (rig.access offset use).rig.input = rig.input := by
  unfold access
  split
  · rfl
  · exact kept _

theorem input_store (rig : Rig ι ο η) (cell : Nat) (value : UInt8) :
    (rig.store cell value).rig.input = rig.input := by
  rw [store_eq]
  split
  · rfl
  · rfl

/-- A poll does not touch the input. -/
theorem input_poll [AbortHook η] (rig : Rig ι ο η) : rig.poll.rig.input = rig.input := by
  cases polled : rig.poll with
  | went next => exact (sameState_of_poll_went polled).2.1
  | ended ending after => exact (poll_ended polled).2.2.1

variable [InputSource ι] [OutputSink ο]

/-- No action but an input touches the source. -/
theorem input_act {rig : Rig ι ο η} {node : Node} (other : ∀ offset, node ≠ .inputAt offset) :
    (rig.act node).rig.input = rig.input := by
  cases node with
  | addAt offset delta =>
    rw [act, update_eq]
    exact input_access fun _ => input_store _ _ _
  | setAt offset value =>
    rw [act, update_eq]
    exact input_access fun _ => input_store _ _ _
  | mulAt offset into factor =>
    rw [act, multiply_eq]
    refine input_access ?_
    intro source
    split
    · rfl
    · exact input_access fun _ => input_store _ _ _
  | move delta =>
    rw [act, move_eq]
    exact input_access fun _ => rfl
  | outputAt offset =>
    rw [act, write_eq]
    refine input_access ?_
    intro cell
    split
    · rfl
    · rfl
  | inputAt offset => exact absurd rfl (other offset)
  | loop | scanLoop => rfl

end Rig

namespace Config

variable [InputSource ι] [OutputSink ο] [AbortHook η]

/-- The result of the read that the next step makes, if it makes one. -/
def takes (config : Config ι ο η) : List Reading :=
  match config.code with
  | .inputAt offset :: _ =>
    match config.rig.machine.address offset with
    | .ok _ => [(InputSource.read config.rig.input).1]
    | .error _ => []
  | _ => []

/-- The results of the reads that a run makes in a number of steps, if it does not end before. -/
def readings : Nat → Config ι ο η → List Reading
  | 0, _ => []
  | fuel + 1, config =>
    config.takes ++
      match config.step with
      | .next next => readings fuel next
      | .stop _ _ => []

omit [OutputSink ο] [AbortHook η] in
theorem takes_of_not_input {node : Node} {rest : Block} {loops : List OpenLoop}
    {rig : Rig ι ο η} (other : ∀ offset, node ≠ .inputAt offset) :
    takes ⟨node :: rest, loops, rig⟩ = [] := by
  cases node with
  | inputAt offset => exact absurd rfl (other offset)
  | _ => rfl

omit [AbortHook η] in
/-- An input makes one read, whether the source reports a fault or not. -/
theorem reads_inputAt (offset : Int) (rest : Block) (loops : List OpenLoop) (rig : Rig ι ο η) :
    InputSource.reads (takes ⟨.inputAt offset :: rest, loops, rig⟩).length rig.input =
      (takes ⟨.inputAt offset :: rest, loops, rig⟩, (rig.act (.inputAt offset)).rig.input) := by
  rw [Rig.act, Rig.receive_eq, Rig.access, takes]
  cases found : rig.machine.address offset with
  | error cell => simp only [found]; rfl
  | ok cell =>
    simp only [found]
    show ([(InputSource.read rig.input).1], (InputSource.read rig.input).2) = _
    cases InputSource.read rig.input with
    | mk result input =>
      cases result with
      | ok value => exact congrArg _ (Rig.input_store { rig with input } _ _).symm
      | error fault => rfl

/-- A step asks the source for what it takes, and for nothing else. -/
theorem reads_step (config : Config ι ο η) :
    InputSource.reads config.takes.length config.rig.input =
      (config.takes, config.step.rig.input) := by
  obtain ⟨_ | ⟨node, rest⟩, loops, rig⟩ := config
  · obtain _ | ⟨loop, outer⟩ := loops
    · rfl
    rw [step_nil]
    split
    · rfl
    · rw [Outcome.rig_andThen rig.poll fun _ => rfl, Rig.input_poll]
      rfl
  -- Only an input takes something; every other step leaves the source as it is.
  by_cases input : ∃ offset, node = .inputAt offset
  · obtain ⟨offset, rfl⟩ := input
    rw [step_single rfl, Outcome.rig_andThen _ fun _ => rfl]
    exact reads_inputAt offset rest loops rig
  have other : ∀ offset, node ≠ .inputAt offset := fun offset same => input ⟨offset, same⟩
  rw [takes_of_not_input other]
  suffices kept : (step ⟨node :: rest, loops, rig⟩).rig.input = rig.input by
    rw [kept]
    rfl
  cases single : node.isSingle with
  | true =>
    rw [step_single single, Outcome.rig_andThen _ fun _ => rfl]
    exact Rig.input_act other
  | false =>
    cases node with
    | loop body =>
      rw [step_loop_eq]
      split
      · rw [Outcome.rig_andThen _ fun _ => rfl]
        exact rig.input_poll
      · rw [Outcome.rig_andThen _ fun _ => rfl]
        exact rig.input_poll
    | scanLoop distance =>
      rw [step_scanLoop]
      split
      · rfl
      have kept := rig.input_poll
      split
      · next polled =>
        rw [polled] at kept
        exact kept
      · next next polled =>
        rw [polled] at kept
        have moved : (next.act (.move distance)).rig.input = next.input :=
          Rig.input_act fun _ same => nomatch same
        rw [Outcome.rig_andThen _ fun _ => rfl]
        exact moved.trans kept
    | _ => cases single

end Config

/-! ## Runs -/

theorem InputSource.reads_add [InputSource ι] (count more : Nat) (source : ι) :
    reads (count + more) source =
      ((reads count source).1 ++ (reads more (reads count source).2).1,
        (reads more (reads count source).2).2) := by
  induction count generalizing source with
  | zero => rw [Nat.zero_add]; rfl
  | succ count ih =>
    rw [Nat.add_right_comm]
    simp only [reads, ih, List.cons_append]

variable [InputSource ι] [OutputSink ο] [AbortHook η]

/-- The readings of a run are those that its source gives in a row. -/
theorem Config.reads_readings {fuel : Nat} {config : Config ι ο η} {ending : Ending}
    {after : Rig ι ο η} (ran : config.run fuel = some (ending, after)) :
    InputSource.reads (config.readings fuel).length config.rig.input =
      (config.readings fuel, after.input) := by
  induction fuel generalizing config with
  | zero => cases ran
  | succ fuel ih =>
    have first := config.reads_step
    rw [run_succ] at ran
    cases stepped : config.step with
    | next next =>
      rw [stepped] at ran first
      have first : InputSource.reads config.takes.length config.rig.input =
        (config.takes, next.rig.input) := first
      have readings : config.readings (fuel + 1) = config.takes ++ next.readings fuel := by
        simp only [Config.readings, stepped]
      rw [readings, List.length_append, InputSource.reads_add, first, ih ran]
    | stop ended stopped =>
      rw [stepped] at ran first
      cases ran
      have readings : config.readings (fuel + 1) = config.takes := by
        simp only [Config.readings, stepped, List.append_nil]
      rw [readings]
      exact first

omit [InputSource ι] [AbortHook η] in
theorem Rig.input_settle (ending : Ending) (rig : Rig ι ο η) :
    (rig.settle ending).2.input = rig.input := by
  unfold settle
  cases OutputSink.flush rig.output with
  | mk fault output => cases fault <;> rfl

/-- At its end a run has read what its source gives in a row. -/
theorem reads_of_execute {program : Block} {rig after : Rig ι ο η} {fuel : Nat} {ending : Ending}
    (executed : execute fuel program rig = some (ending, after)) :
    InputSource.reads ((Config.mk program [] rig).readings fuel).length rig.input =
      ((Config.mk program [] rig).readings fuel, after.input) := by
  obtain ⟨⟨ended, stopped⟩, ran, settled⟩ := Option.map_eq_some_iff.1 executed
  have input : after.input = stopped.input := by
    rw [← stopped.input_settle ended]
    exact congrArg (·.2.input) settled.symm
  rw [input]
  exact Config.reads_readings ran

/-! ## Queues -/

/-- Values read in order, and after the last of them, nothing. -/
def inOrder (unread : List Int) (count : Nat) : List Reading :=
  (unread.take count).map (fun value => .ok (some value)) ++
    List.replicate (count - unread.length) (.ok none)

/-- A queue gives its values one by one, and then says that it is at its end. -/
theorem ByteQueue.reads_eq (count : Nat) (queue : ByteQueue) :
    InputSource.reads count queue = (inOrder queue.values count, ⟨queue.values.drop count⟩) := by
  induction count generalizing queue with
  | zero => rw [inOrder, Nat.zero_sub]; rfl
  | succ count ih =>
    obtain ⟨_ | ⟨value, rest⟩⟩ := queue
    · show (.ok none :: (InputSource.reads count (⟨[]⟩ : ByteQueue)).1,
        (InputSource.reads count (⟨[]⟩ : ByteQueue)).2) = _
      rw [ih]
      simp only [inOrder, List.take_nil, List.map_nil, List.nil_append, List.drop_nil,
        List.length_nil, Nat.sub_zero, List.replicate_succ]
    · show (.ok (some value) :: (InputSource.reads count (⟨rest⟩ : ByteQueue)).1,
        (InputSource.reads count (⟨rest⟩ : ByteQueue)).2) = _
      rw [ih]
      simp only [inOrder, List.take_succ_cons, List.map_cons, List.cons_append,
        List.drop_succ_cons, List.length_cons, Nat.add_sub_add_right]

namespace Reading

/-- The value that a read has brought, if it has brought one. -/
def value? : Reading → Option Int
  | .ok value => value
  | .error _ => none

end Reading

/-- The values among some readings. -/
def valuesOf (readings : List Reading) : List Int :=
  readings.filterMap Reading.value?

theorem valuesOf_inOrder (unread : List Int) (count : Nat) :
    valuesOf (inOrder unread count) = unread.take count := by
  have none : (List.replicate (count - unread.length) (.ok none : Reading)).filterMap
      Reading.value? = [] := by
    refine List.filterMap_eq_nil_iff.2 fun reading among => ?_
    rw [List.eq_of_mem_replicate among]
    rfl
  rw [valuesOf, inOrder, List.filterMap_append, none, List.append_nil, List.filterMap_map]
  exact List.filterMap_some

end TapeMachine
