import TapeMachine.Device.Memory
import TapeMachine.Proofs.Execution.Termination
import TapeMachine.Proofs.Execution.Unrounded

/-!
# Runs with a step limit

A step limit ends every run: no more polls go through than it allows, and only finitely
much happens between two of them. The poll that is one too many is the last one, and it
is made exactly if the run is aborted. A run that is not aborted comes to the end of its
program or to an address left of the tape, as long as there is a place for every byte.
-/

namespace TapeMachine

/-- Queues and collected output report no faults, so that only an address can be wrong. -/
theorem Rig.act_ended_of_memory {η : Type} {rig after : Rig ByteQueue Collected η} {node : Node}
    {ending : Ending} (acted : rig.act node = .ended ending after) :
    rig.Underflows ending after ∨ ∃ read, rig.Reads read ∧ read.Overgrows ending after := by
  rcases act_ended acted with
    underflows | ⟨fault, _, _, _, ⟨unread, _⟩ | ⟨byte, unwritten, _⟩⟩ | overgrows
  · exact .inl underflows
  · cases unread
  · cases unwritten
  · exact .inr overgrows

/-- With devices in memory the step that ends a run changes no cell, does not move the pointer
and writes nothing. -/
theorem Config.kept_of_stop {η : Type} [AbortHook η] {config : Config ByteQueue Collected η}
    {ending : Ending} {after : Rig ByteQueue Collected η}
    (stopped : config.step = .stop ending after) :
    after.machine = config.rig.machine ∧ after.output = config.rig.output := by
  rcases stop_cases stopped with ⟨_, rfl⟩ | polled | ⟨tried, action, tries, acted⟩
  · exact ⟨rfl, rfl⟩
  · obtain ⟨machine, _, output⟩ := (Rig.poll_ended polled).2
    exact ⟨machine, output⟩
  · obtain ⟨machine, _, output⟩ := tries.sameState
    rcases Rig.act_ended_of_memory acted with
      ⟨cell, _, _, rfl⟩ | ⟨read, rfl | ⟨value, input, _, rfl⟩, cell, _, _, rfl⟩
    · exact ⟨machine, output⟩
    · exact ⟨machine, output⟩
    · exact ⟨machine, output⟩

/-- The ending of a run that its hook stopped. -/
def Ending.IsAborted (ending : Ending) : Prop :=
  ∃ pointer, ending = .aborted pointer

/-- The rig has a step limit that has not been exceeded. -/
def Rig.Within {ι ο : Type} (limit : Nat) (rig : Rig ι ο StepLimit) : Prop :=
  rig.hook.allowed = some limit ∧ rig.hook.taken ≤ limit

namespace Rig.Within

variable {ι ο : Type} {limit : Nat} {rig next : Rig ι ο StepLimit}

theorem poll_went (within : rig.Within limit) (polled : rig.poll = .went next) :
    next.Within limit := by
  obtain ⟨allowed, few⟩ := within
  rw [poll_stepLimit, allowed] at polled
  by_cases last : limit < rig.hook.taken + 1
  · simp only [Option.any_some, last, decide_true, if_true] at polled
    cases polled
  · simp only [Option.any_some, last, decide_false, Bool.false_eq_true, if_false] at polled
    cases polled
    exact ⟨allowed, by simp only; omega⟩

/-- A poll that fires is the first that is too many. -/
theorem poll_ended (within : rig.Within limit) {ending : Ending}
    (polled : rig.poll = .ended ending next) :
    ending = .aborted rig.machine.pointer ∧ next.hook.taken = limit + 1 := by
  obtain ⟨allowed, few⟩ := within
  rw [poll_stepLimit, allowed] at polled
  by_cases last : limit < rig.hook.taken + 1
  · simp only [Option.any_some, last, decide_true, if_true] at polled
    cases polled
    exact ⟨rfl, by simp only; omega⟩
  · simp only [Option.any_some, last, decide_false, Bool.false_eq_true, if_false] at polled
    cases polled

theorem act_went [InputSource ι] [OutputSink ο] (within : rig.Within limit) {node : Node}
    (acted : rig.act node = .went next) : next.Within limit := by
  rw [Within, hook_of_act acted]
  exact within

end Rig.Within

/-- No configuration that a run reaches has exceeded its limit. -/
theorem Config.Reaches.within {ι ο : Type} [InputSource ι] [OutputSink ο] {limit : Nat}
    {config last : Config ι ο StepLimit} (reached : config.Reaches last)
    (start : config.rig.Within limit) : last.rig.Within limit :=
  reached.keeps (fun within => within.poll_went) (fun _ within => within.act_went) start

theorem Rig.Reads.hook {ι ο η : Type} [InputSource ι] {rig read : Rig ι ο η}
    (reads : rig.Reads read) : read.hook = rig.hook := by
  rcases reads with rfl | ⟨value, input, _, rfl⟩
  · rfl
  · rfl

/-- A run under a step limit is aborted with one poll too many, or ends otherwise within
the limit: with the program, at an address left of the tape or for want of a cell. -/
theorem execute_within {limit : Nat} {rig after : Rig ByteQueue Collected StepLimit}
    (start : rig.Within limit) {program : Block} {fuel : Nat} {ending : Ending}
    (executed : execute fuel program rig = some (ending, after)) :
    (ending.IsAborted ∧ after.hook.taken = limit + 1) ∨
      ((ending = .finished ∨ (∃ cell, ending = .underflow cell) ∨
        ∃ cell, ending = .overgrown cell) ∧ after.hook.taken ≤ limit) := by
  obtain ⟨⟨ended, stopped⟩, ran, settled⟩ := Option.map_eq_some_iff.1 executed
  obtain ⟨last, reached, stops⟩ := Config.exists_last_of_run ran
  have within := reached.within start
  cases settled
  rcases Config.stop_cases stops with ⟨rfl, rfl⟩ | polled | ⟨tried, action, tries, acted⟩
  · exact .inr ⟨.inl rfl, within.2⟩
  · obtain ⟨rfl, taken⟩ := within.poll_ended polled
    exact .inl ⟨⟨_, rfl⟩, taken⟩
  · have few : tried.hook.taken ≤ limit := by
      rcases tries with ⟨_, _, _, rfl⟩ | ⟨_, _, _, _, polled⟩
      · exact within.2
      · exact (within.poll_went polled).2
    rcases Rig.act_ended_of_memory acted with
      ⟨cell, _, rfl, rfl⟩ | ⟨read, reads, cell, _, rfl, rfl⟩
    · exact .inr ⟨.inr (.inl ⟨cell, rfl⟩), few⟩
    · exact .inr ⟨.inr (.inr ⟨cell, rfl⟩), reads.hook ▸ few⟩

/-- Where every byte finds its place, the run comes to the end of the program, to an address left
of the tape, or to a poll that fires. -/
theorem ending_of_unrounded {η : Type} [AbortHook η] {rig after : Rig ByteQueue Collected η}
    (ready : Ready rig) {program : Block} (unrounded : Unrounded program rig) {fuel : Nat}
    {ending : Ending} (executed : execute fuel program rig = some (ending, after)) :
    ending = .finished ∨ (∃ cell, ending = .underflow cell) ∨ ending.IsAborted := by
  have placed := unrounded.ne_overgrown ready executed
  obtain ⟨⟨ended, stopped⟩, ran, settled⟩ := Option.map_eq_some_iff.1 executed
  obtain ⟨last, _, stops⟩ := Config.exists_last_of_run ran
  cases settled
  rcases Config.stop_cases stops with ⟨rfl, rfl⟩ | polled | ⟨tried, action, _, acted⟩
  · exact .inl rfl
  · exact .inr (.inr ⟨_, (Rig.poll_ended polled).1⟩)
  · rcases Rig.act_ended_of_memory acted with
      ⟨cell, _, rfl, _⟩ | ⟨_, _, cell, _, rfl, _⟩
    · exact .inr (.inl ⟨cell, rfl⟩)
    · exact absurd rfl (placed cell)

/-- So a step limit brings every such run to one of these ends. -/
theorem exists_execute_of_unrounded {program : Block} {rig : Rig ByteQueue Collected StepLimit}
    {limit : Nat} (limited : rig.hook.allowed = some limit) (ready : Ready rig)
    (unrounded : Unrounded program rig) : ∃ fuel ending after,
      execute fuel program rig = some (ending, after) ∧
        (ending = .finished ∨ (∃ cell, ending = .underflow cell) ∨ ending.IsAborted) := by
  obtain ⟨fuel, ⟨ending, after⟩, executed⟩ := exists_execute_of_limit program limited
  exact ⟨fuel, ending, after, executed, ending_of_unrounded ready unrounded executed⟩

/-- The run of a program under a step limit ends; it is aborted exactly if one poll more
than the limit was made, and until then no more than the limit. -/
structure StopsAtLimit (program : Block) (rig : Rig ByteQueue Collected StepLimit)
    (limit : Nat) : Prop where
  ends : ∃ fuel result, execute fuel program rig = some result
  ending : ∀ {fuel : Nat} {ending : Ending} {after : Rig ByteQueue Collected StepLimit},
    execute fuel program rig = some (ending, after) →
      ending = .finished ∨ (∃ cell, ending = .underflow cell) ∨ ∃ pointer, ending = .aborted pointer
  polls : ∀ {fuel : Nat} {ending : Ending} {after : Rig ByteQueue Collected StepLimit},
    execute fuel program rig = some (ending, after) →
      ((∃ pointer, ending = .aborted pointer) ↔ after.hook.taken = limit + 1)
  before : ∀ {config : Config ByteQueue Collected StepLimit},
    (Config.mk program [] rig).Reaches config → config.rig.hook.taken ≤ limit

/-- A step limit stops every program, where no address lies beyond the last cell that a tape
can have. -/
theorem stopsAtLimit_of_unrounded {program : Block} {machine : Machine} {input : ByteQueue}
    {output : Collected} {limit : Nat}
    (ready : Ready (Rig.mk machine input output { allowed := some limit : StepLimit }))
    (unrounded : Unrounded program ⟨machine, input, output, { allowed := some limit : StepLimit }⟩) :
    StopsAtLimit program ⟨machine, input, output, { allowed := some limit }⟩ limit := by
  have start : (Rig.mk machine input output { allowed := some limit }).Within limit :=
    ⟨rfl, Nat.zero_le limit⟩
  constructor
  · exact exists_execute_of_limit program start.1
  · exact ending_of_unrounded ready unrounded
  · intro fuel ending after executed
    rcases execute_within start executed with ⟨aborted, taken⟩ | ⟨unaborted, taken⟩
    · exact ⟨fun _ => taken, fun _ => aborted⟩
    · refine ⟨?_, fun exceeded => by omega⟩
      rintro ⟨pointer, rfl⟩
      rcases unaborted with finished | ⟨cell, underflow⟩ | ⟨cell, overgrown⟩
      · cases finished
      · cases underflow
      · cases overgrown
  · intro config reached
    exact (reached.within start).2

/-- Stores a byte next to the pointer, moves on and never ends by itself. -/
def wanderOff : Block :=
  [.setAt 1 7, .loop [], .move 1, .loop [.scanLoop 0]]

/-- A machine with one cell under a limit of three polls. -/
def threePolls : Rig ByteQueue Collected StepLimit :=
  ⟨⟨Tape.ofSize 1, 0, .double⟩, {}, {}, { allowed := some 3 }⟩

theorem stopsAtLimit_wanderOff :
    (execute 9 wanderOff threePolls).map (fun (ending, after) => (ending, after.hook.taken)) =
        some (.aborted 1, 4) ∧
      StopsAtLimit wanderOff threePolls 3 :=
  ⟨by decide +kernel, stopsAtLimit_of_unrounded ⟨rfl, by decide⟩
    (unrounded_of_check 9 (by decide +kernel))⟩

/-- A machine whose pointer is one cell beyond the last that a tape can have. -/
def beyondTape : Rig ByteQueue Collected StepLimit :=
  ⟨⟨Tape.ofSize 1, 4503599627370496, .double⟩, {}, {}, { allowed := some 0 }⟩

/-- An addition there ends the run in another way. -/
theorem not_stopsAtLimit_beyondTape :
    Ready beyondTape ∧ ¬ StopsAtLimit [.addAt 0 1] beyondTape 0 := by
  refine ⟨⟨rfl, by decide⟩, fun stops => ?_⟩
  have executed : ∃ after, execute 1 [.addAt 0 1] beyondTape =
      some (.overgrown 4503599627370496, after) := ⟨_, rfl⟩
  obtain ⟨after, executed⟩ := executed
  rcases stops.ending executed with finished | ⟨cell, underflow⟩ | ⟨pointer, aborted⟩
  · cases finished
  · cases underflow
  · cases aborted

end TapeMachine
