import TapeMachine.Proofs.Execution.Executor

/-!
# What a step does to a rig

A step leaves the rig alone, polls, lets one node act, or does both of the last two if it
is a step of a scan. So whatever polls and actions keep is kept along a run
(`Config.Reaches.keeps`), and a run ends where a poll fires, an action fails or no code is
left (`Config.stop_cases`).
-/

namespace TapeMachine

variable {ι ο η : Type}

namespace Outcome

theorem andThen_eq_next {outcome : Outcome ι ο η} {proceed : Rig ι ο η → Config ι ο η}
    {next : Config ι ο η} (went : outcome.andThen proceed = .next next) :
    ∃ rig, outcome = .went rig ∧ proceed rig = next := by
  cases outcome with
  | went rig => exact ⟨rig, rfl, Progress.next.inj went⟩
  | ended ending rig => cases went

theorem andThen_eq_stop {outcome : Outcome ι ο η} {proceed : Rig ι ο η → Config ι ο η}
    {ending : Ending} {after : Rig ι ο η} (stopped : outcome.andThen proceed = .stop ending after) :
    outcome = .ended ending after := by
  cases outcome with
  | went rig => cases stopped
  | ended ending rig =>
    cases stopped
    rfl

end Outcome

namespace Rig

/-- Two rigs differ in their hooks at most. -/
def SameState (rig other : Rig ι ο η) : Prop :=
  rig.machine = other.machine ∧ rig.input = other.input ∧ rig.output = other.output

/-! ## Polls -/

section Polls

variable [AbortHook η]

theorem sameState_of_poll_went {rig next : Rig ι ο η} (polled : rig.poll = .went next) :
    next.SameState rig := by
  obtain ⟨machine, input, output, hook⟩ := rig
  rw [poll] at polled
  split at polled
  · cases polled
    exact ⟨rfl, rfl, rfl⟩
  · cases polled

/-- A poll that fires ends the run where the pointer is. -/
theorem poll_ended {rig after : Rig ι ο η} {ending : Ending}
    (polled : rig.poll = .ended ending after) :
    ending = .aborted rig.machine.pointer ∧ after.SameState rig := by
  obtain ⟨machine, input, output, hook⟩ := rig
  rw [poll] at polled
  split at polled
  · cases polled
  · cases polled
    exact ⟨rfl, rfl, rfl, rfl⟩

end Polls

/-! ## Actions, by their address -/

/-- Uses the cell at an offset, if there is one. Otherwise the run ends. -/
def access (rig : Rig ι ο η) (offset : Int) (use : Nat → Outcome ι ο η) : Outcome ι ο η :=
  match rig.machine.address offset with
  | .error cell => .ended (.underflow cell) rig
  | .ok cell => use cell

theorem access_of_ok {rig : Rig ι ο η} {offset : Int} {cell : Nat}
    (found : rig.machine.address offset = .ok cell) (use : Nat → Outcome ι ο η) :
    rig.access offset use = use cell := by
  rw [access, found]

theorem access_of_error {rig : Rig ι ο η} {offset cell : Int}
    (refused : rig.machine.address offset = .error cell) (use : Nat → Outcome ι ο η) :
    rig.access offset use = .ended (.underflow cell) rig := by
  rw [access, refused]

/-- The rig with a byte in a cell. -/
def put (rig : Rig ι ο η) (cell : Nat) (value : UInt8) : Rig ι ο η :=
  { rig with machine := { rig.machine with tape := rig.machine.tape.set cell value } }

/-- A byte is stored unless the tape cannot grow to its cell. -/
theorem store_eq (rig : Rig ι ο η) (cell : Nat) (value : UInt8) :
    rig.store cell value =
      if cell < Tape.limit then .went (rig.put cell value) else .ended (.overgrown cell) rig := by
  rw [store, Tape.store]
  by_cases room : cell < Tape.limit
  · rw [if_pos room, if_pos room]
    rfl
  · rw [if_neg room, if_neg room]

theorem store_of_lt {cell : Nat} (room : cell < Tape.limit) (rig : Rig ι ο η) (value : UInt8) :
    rig.store cell value = .went (rig.put cell value) := by
  rw [store_eq, if_pos room]

theorem update_eq (rig : Rig ι ο η) (offset : Int) (change : UInt8 → UInt8) :
    rig.update offset change =
      rig.access offset fun cell => rig.store cell (change (rig.machine.tape.get cell)) := by
  rfl

theorem multiply_eq (rig : Rig ι ο η) (offset into : Int) (factor : UInt8) :
    rig.multiply offset into factor =
      rig.access offset fun source =>
        if rig.machine.tape.get source = 0 then .went rig
        else rig.access (rig.machine.precision.round (offset + into)) fun cell =>
          rig.store cell
            (rig.machine.tape.get cell + rig.machine.tape.get source * factor) := by
  rfl

theorem move_eq (rig : Rig ι ο η) (delta : Int) :
    rig.move delta =
      rig.access delta fun cell =>
        .went { rig with machine := { rig.machine with pointer := cell } } := by
  rfl

theorem write_eq [OutputSink ο] (rig : Rig ι ο η) (offset : Int) :
    rig.write offset =
      rig.access offset fun cell =>
        match OutputSink.write rig.output (rig.machine.tape.get cell) with
        | (none, output) => .went { rig with output }
        | (some fault, output) => .ended (.faulted fault) { rig with output } := by
  rfl

theorem receive_eq [InputSource ι] (rig : Rig ι ο η) (offset : Int) :
    rig.receive offset =
      rig.access offset fun cell =>
        match InputSource.read rig.input with
        | (.ok value, input) => store { rig with input } cell (UInt8.ofInt (value.getD 0))
        | (.error fault, input) => .ended (.faulted fault) { rig with input } := by
  rfl

/-! ## Failing actions -/

/-- The run has ended at an address left of the tape, and nothing was done. -/
def Underflows (rig : Rig ι ο η) (ending : Ending) (after : Rig ι ο η) : Prop :=
  ∃ cell < 0, ending = .underflow cell ∧ after = rig

/-- The run has ended at a cell that the tape cannot grow to, and nothing was done. -/
def Overgrows (rig : Rig ι ο η) (ending : Ending) (after : Rig ι ο η) : Prop :=
  ∃ cell, Tape.limit ≤ cell ∧ ending = .overgrown cell ∧ after = rig

theorem store_ended {rig after : Rig ι ο η} {cell : Nat} {value : UInt8} {ending : Ending}
    (failed : rig.store cell value = .ended ending after) : rig.Overgrows ending after := by
  rw [store_eq] at failed
  split at failed
  · cases failed
  · next beyond =>
    cases failed
    exact ⟨cell, Nat.le_of_not_lt beyond, rfl, rfl⟩

theorem store_went {rig next : Rig ι ο η} {cell : Nat} {value : UInt8}
    (went : rig.store cell value = .went next) : next = rig.put cell value := by
  rw [store_eq] at went
  split at went
  · exact (Outcome.went.inj went).symm
  · cases went

theorem access_ended {rig after : Rig ι ο η} {offset : Int} {use : Nat → Outcome ι ο η}
    {ending : Ending} (ended : rig.access offset use = .ended ending after) :
    rig.Underflows ending after ∨ ∃ cell, use cell = .ended ending after := by
  unfold access at ended
  split at ended
  · next cell refused =>
    cases ended
    refine .inl ⟨cell, ?_, rfl, rfl⟩
    unfold Machine.address at refused
    split at refused
    · cases refused
    · cases refused
      exact Int.negSucc_lt_zero _
  · next cell _ => exact .inr ⟨cell, ended⟩

theorem update_ended {rig after : Rig ι ο η} {offset : Int} {change : UInt8 → UInt8}
    {ending : Ending} (failed : rig.update offset change = .ended ending after) :
    rig.Underflows ending after ∨ rig.Overgrows ending after := by
  rw [update_eq] at failed
  rcases access_ended failed with underflows | ⟨cell, used⟩
  · exact .inl underflows
  · exact .inr (store_ended used)

theorem multiply_ended {rig after : Rig ι ο η} {offset into : Int} {factor : UInt8}
    {ending : Ending} (failed : rig.multiply offset into factor = .ended ending after) :
    rig.Underflows ending after ∨ rig.Overgrows ending after := by
  rw [multiply_eq] at failed
  rcases access_ended failed with underflows | ⟨source, used⟩
  · exact .inl underflows
  split at used
  · cases used
  rcases access_ended used with underflows | ⟨cell, stored⟩
  · exact .inl underflows
  · exact .inr (store_ended stored)

theorem underflows_of_move {rig after : Rig ι ο η} {delta : Int} {ending : Ending}
    (failed : rig.move delta = .ended ending after) : rig.Underflows ending after := by
  rw [move_eq] at failed
  rcases access_ended failed with underflows | ⟨cell, used⟩
  · exact underflows
  · cases used

variable [InputSource ι] [OutputSink ο]

/-- The run has ended at a fault that the input or the output reports. -/
def Faults (rig : Rig ι ο η) (ending : Ending) (after : Rig ι ο η) : Prop :=
  ∃ fault, ending = .faulted fault ∧ after.machine = rig.machine ∧ after.hook = rig.hook ∧
    ((InputSource.read rig.input = (.error fault, after.input) ∧ after.output = rig.output) ∨
      ∃ byte, OutputSink.write rig.output byte = (some fault, after.output) ∧
        after.input = rig.input)

/-- The rig after something has been read from the input, or as it is. -/
def Reads (rig read : Rig ι ο η) : Prop :=
  read = rig ∨ ∃ value input, InputSource.read rig.input = (.ok value, input) ∧
    read = { rig with input }

/-- An action fails at an address left of the tape, with nothing done, at a device, or at a
cell that the tape cannot grow to; what was to be stored there may have been read. -/
theorem act_ended {rig after : Rig ι ο η} {node : Node} {ending : Ending}
    (acted : rig.act node = .ended ending after) :
    rig.Underflows ending after ∨ rig.Faults ending after ∨
      ∃ read, rig.Reads read ∧ read.Overgrows ending after := by
  have unread {ending : Ending} {after : Rig ι ο η}
      (failed : rig.Underflows ending after ∨ rig.Overgrows ending after) :
      rig.Underflows ending after ∨ rig.Faults ending after ∨
        ∃ read, rig.Reads read ∧ read.Overgrows ending after :=
    failed.imp_right fun overgrows => .inr ⟨rig, .inl rfl, overgrows⟩
  cases node with
  | addAt offset delta =>
    rw [act] at acted
    exact unread (update_ended acted)
  | setAt offset value =>
    rw [act] at acted
    exact unread (update_ended acted)
  | mulAt offset into factor => exact unread (multiply_ended acted)
  | move delta => exact .inl (underflows_of_move acted)
  | outputAt offset =>
    rw [act, write_eq] at acted
    rcases access_ended acted with underflows | ⟨cell, used⟩
    · exact .inl underflows
    split at used
    · cases used
    · next fault output written =>
      cases used
      exact .inr (.inl ⟨fault, rfl, rfl, rfl, .inr ⟨_, written, rfl⟩⟩)
  | inputAt offset =>
    rw [act, receive_eq] at acted
    rcases access_ended acted with underflows | ⟨cell, used⟩
    · exact .inl underflows
    split at used
    · next value input read =>
      exact .inr (.inr ⟨{ rig with input }, .inr ⟨value, input, read, rfl⟩, store_ended used⟩)
    · next fault input read =>
      cases used
      exact .inr (.inl ⟨fault, rfl, rfl, rfl, .inl ⟨read, rfl⟩⟩)
  | loop body => cases acted
  | scanLoop step => cases acted

/-! ## Actions that go through -/

omit [InputSource ι] [OutputSink ο] in
theorem access_went {rig next : Rig ι ο η} {offset : Int} {use : Nat → Outcome ι ο η}
    (went : rig.access offset use = .went next) :
    ∃ cell, rig.machine.address offset = .ok cell ∧ use cell = .went next := by
  unfold access at went
  split at went
  · cases went
  · next cell found => exact ⟨cell, found, went⟩

omit [InputSource ι] [OutputSink ο] in
theorem update_went {rig next : Rig ι ο η} {offset : Int} {change : UInt8 → UInt8}
    (went : rig.update offset change = .went next) : ∃ cell value, next = rig.put cell value := by
  rw [update_eq] at went
  obtain ⟨cell, _, used⟩ := access_went went
  exact ⟨cell, _, store_went used⟩

/-- What an action does if it goes through: nothing, or it stores a byte, moves the pointer
to a cell, writes a byte, or reads one and stores it. -/
theorem act_went {rig next : Rig ι ο η} {node : Node} (acted : rig.act node = .went next) :
    next = rig ∨ (∃ cell value, next = rig.put cell value) ∨
      (∃ delta cell, node = .move delta ∧ rig.machine.address delta = .ok cell ∧
        next = { rig with machine := { rig.machine with pointer := cell } }) ∨
      (∃ byte output, OutputSink.write rig.output byte = (none, output) ∧
        next = { rig with output }) ∨
      ∃ cell value input, InputSource.read rig.input = (.ok value, input) ∧
        next = { rig.put cell (UInt8.ofInt (value.getD 0)) with input } := by
  cases node with
  | addAt offset delta =>
    rw [act] at acted
    exact .inr (.inl (update_went acted))
  | setAt offset value =>
    rw [act] at acted
    exact .inr (.inl (update_went acted))
  | mulAt offset into factor =>
    rw [act, multiply_eq] at acted
    obtain ⟨source, _, used⟩ := access_went acted
    split at used
    · exact .inl (Outcome.went.inj used).symm
    · obtain ⟨cell, _, stored⟩ := access_went used
      exact .inr (.inl ⟨cell, _, store_went stored⟩)
  | move delta =>
    rw [act, move_eq] at acted
    obtain ⟨cell, found, used⟩ := access_went acted
    exact .inr (.inr (.inl ⟨delta, cell, rfl, found, (Outcome.went.inj used).symm⟩))
  | outputAt offset =>
    rw [act, write_eq] at acted
    obtain ⟨cell, _, used⟩ := access_went acted
    split at used
    · next output written =>
      exact .inr (.inr (.inr (.inl ⟨_, output, written, (Outcome.went.inj used).symm⟩)))
    · cases used
  | inputAt offset =>
    rw [act, receive_eq] at acted
    obtain ⟨cell, _, used⟩ := access_went acted
    split at used
    · next value input read =>
      exact .inr (.inr (.inr (.inr ⟨cell, value, input, read, store_went used⟩)))
    · cases used
  | loop body => exact .inl (Outcome.went.inj acted).symm
  | scanLoop step => exact .inl (Outcome.went.inj acted).symm

/-- An action that goes through leaves the pointer at a cell. -/
theorem pointer_of_act {rig next : Rig ι ο η}
    {node : Node} (acted : rig.act node = .went next) (pointer : 0 ≤ rig.machine.pointer) :
    0 ≤ next.machine.pointer := by
  rcases act_went acted with rfl | ⟨cell, value, rfl⟩ | ⟨_, cell, _, _, rfl⟩ |
    ⟨_, output, _, rfl⟩ | ⟨cell, value, input, _, rfl⟩
  · exact pointer
  · exact pointer
  · exact Int.natCast_nonneg cell
  · exact pointer
  · exact pointer

end Rig

namespace Config

variable [InputSource ι] [OutputSink ο] [AbortHook η]

/-- An action is tried in a step: at once, or in a scan after a poll. -/
def Tries (config : Config ι ο η) (rig : Rig ι ο η) (action : Node) : Prop :=
  (∃ rest, config.code = action :: rest ∧ action.isSingle = true ∧ rig = config.rig) ∨
    ∃ step rest, config.code = .scanLoop step :: rest ∧ action = .move step ∧
      config.rig.poll = .went rig

omit [InputSource ι] [OutputSink ο] in
/-- The rig that an action is tried on differs from that of the configuration in its hook
at most. -/
theorem Tries.sameState {config : Config ι ο η} {rig : Rig ι ο η}
    {action : Node} (tries : config.Tries rig action) : rig.SameState config.rig := by
  rcases tries with ⟨_, _, _, rfl⟩ | ⟨_, _, _, _, polled⟩
  · exact ⟨rfl, rfl, rfl⟩
  · exact Rig.sameState_of_poll_went polled

/-- What a step does to the rig if the run goes on. -/
theorem next_cases {config next : Config ι ο η} (stepped : config.step = .next next) :
    next.rig = config.rig ∨ config.rig.poll = .went next.rig ∨
      ∃ rig action, config.Tries rig action ∧ rig.act action = .went next.rig := by
  obtain ⟨_ | ⟨node, rest⟩, loops, rig⟩ := config
  · obtain _ | ⟨loop, outer⟩ := loops
    · cases stepped
    rw [step_nil] at stepped
    split at stepped
    · cases stepped
      exact .inl rfl
    · obtain ⟨polled, went, rfl⟩ := Outcome.andThen_eq_next stepped
      exact .inr (.inl went)
  cases single : node.isSingle with
  | true =>
    rw [step_single single] at stepped
    obtain ⟨acted, went, rfl⟩ := Outcome.andThen_eq_next stepped
    exact .inr (.inr ⟨rig, node, .inl ⟨rest, rfl, single, rfl⟩, went⟩)
  | false =>
    cases node with
    | loop body =>
      rw [step_loop] at stepped
      obtain ⟨polled, went, rfl⟩ := Outcome.andThen_eq_next stepped
      refine .inr (.inl ?_)
      split <;> exact went
    | scanLoop distance =>
      rw [step_scanLoop] at stepped
      split at stepped
      · cases stepped
        exact .inl rfl
      split at stepped
      · cases stepped
      · next polled went =>
        obtain ⟨moved, acted, rfl⟩ := Outcome.andThen_eq_next stepped
        exact .inr (.inr ⟨polled, .move distance, .inr ⟨distance, rest, rfl, rfl, went⟩, acted⟩)
    | _ => cases single

/-- A step that ends the run has no code to run, a hook that fires, or an action that
fails. -/
theorem stop_cases {config : Config ι ο η} {ending : Ending} {after : Rig ι ο η}
    (stopped : config.step = .stop ending after) :
    (ending = .finished ∧ after = config.rig) ∨ config.rig.poll = .ended ending after ∨
      ∃ rig action, config.Tries rig action ∧ rig.act action = .ended ending after := by
  obtain ⟨_ | ⟨node, rest⟩, loops, rig⟩ := config
  · obtain _ | ⟨loop, outer⟩ := loops
    · cases stopped
      exact .inl ⟨rfl, rfl⟩
    rw [step_nil] at stopped
    split at stopped
    · cases stopped
    · exact .inr (.inl (Outcome.andThen_eq_stop stopped))
  cases single : node.isSingle with
  | true =>
    rw [step_single single] at stopped
    exact .inr (.inr ⟨rig, node, .inl ⟨rest, rfl, single, rfl⟩, Outcome.andThen_eq_stop stopped⟩)
  | false =>
    cases node with
    | loop body =>
      rw [step_loop] at stopped
      exact .inr (.inl (Outcome.andThen_eq_stop stopped))
    | scanLoop distance =>
      rw [step_scanLoop] at stopped
      split at stopped
      · cases stopped
      split at stopped
      · next ending polled fired =>
        cases stopped
        exact .inr (.inl fired)
      · next polled went =>
        exact .inr (.inr ⟨polled, .move distance, .inr ⟨distance, rest, rfl, rfl, went⟩,
          Outcome.andThen_eq_stop stopped⟩)
    | _ => cases single

/-- A hook that fires ends the run where the pointer is. -/
theorem stop_aborted {config : Config ι ο η} {pointer : Int} {after : Rig ι ο η}
    (stopped : config.step = .stop (.aborted pointer) after) :
    pointer = after.machine.pointer ∧ after.SameState config.rig := by
  rcases stop_cases stopped with ⟨finished, _⟩ | polled | ⟨tried, action, tries, acted⟩
  · cases finished
  · obtain ⟨aborted, same⟩ := Rig.poll_ended polled
    cases aborted
    exact ⟨by rw [same.1], same⟩
  · rcases Rig.act_ended acted with
      ⟨address, _, same, _⟩ | ⟨fault, faulted, _⟩ | ⟨_, _, cell, _, overgrown, _⟩
    · cases same
    · cases faulted
    · cases overgrown

/-! ## Runs -/

/-- What polls and actions keep is kept along a run. -/
theorem Reaches.keeps {P : Rig ι ο η → Prop}
    (poll : ∀ {rig next : Rig ι ο η}, P rig → rig.poll = .went next → P next)
    (act : ∀ {rig next : Rig ι ο η} (node : Node), P rig → rig.act node = .went next → P next)
    {config last : Config ι ο η} (reached : config.Reaches last) (start : P config.rig) :
    P last.rig := by
  induction reached with
  | refl => exact start
  | step stepped _ ih =>
    apply ih
    rcases next_cases stepped with same | polled | ⟨rig, action, tries, acted⟩
    · exact same ▸ start
    · exact poll start polled
    · rcases tries with ⟨_, _, _, rfl⟩ | ⟨_, _, _, rfl, polled⟩
      · exact act action start acted
      · exact act _ (poll start polled) acted

/-- A run that ends does so in the step of a configuration that it reaches. -/
theorem exists_last_of_run {fuel : Nat} {config : Config ι ο η} {ending : Ending}
    {after : Rig ι ο η} (ran : config.run fuel = some (ending, after)) :
    ∃ last, config.Reaches last ∧ last.step = .stop ending after := by
  induction fuel generalizing config with
  | zero => cases ran
  | succ fuel ih =>
    rw [run_succ] at ran
    split at ran
    · next next stepped =>
      obtain ⟨last, reached, stopped⟩ := ih ran
      exact ⟨last, .step stepped reached, stopped⟩
    · next stopped =>
      cases ran
      exact ⟨config, .refl, stopped⟩

end Config

end TapeMachine
