import TapeMachine.Device.Memory
import TapeMachine.Proofs.Execution.Meaning

/-!
# Programs in a row

Two programs in a row do what they do one after the other, with one flush at the end. To execute
the first and then the second is to flush in between as well, and comes to the same where a flush
shows only in what the sink has passed on (`OutputSink.Seamless`).
-/

namespace TapeMachine

variable {ι ο η : Type} [InputSource ι] [OutputSink ο] [AbortHook η]

/-! ## Runs in a row -/

/-- No poll and no action ends a run as if it were finished. -/
theorem ne_finished_of_runs {program : Block} {rig stopped : Rig ι ο η} {ending : Ending}
    (ran : Rig.interpretation.runs program rig (.ended ending stopped)) : ending ≠ .finished := by
  refine Rig.interpretation.runs_ended (P := (· ≠ .finished)) ?_ ?_ ran
  · intro rig ending after polled
    rw [(Rig.poll_ended (Outcome.fate_eq_ended.1 polled)).1]
    exact Ending.noConfusion
  · intro node rig ending after acted
    rcases Rig.act_ended (Outcome.fate_eq_ended.1 acted) with
      ⟨cell, _, rfl, _⟩ | ⟨fault, rfl, _⟩ | ⟨_, _, cell, _, rfl, _⟩
    · exact Ending.noConfusion
    · exact Ending.noConfusion
    · exact Ending.noConfusion

/-- The result of running one program and, if it finishes, executing another on the rig that it
leaves. The output is flushed when both are over. -/
inductive RunsInTurn (front back : Block) (rig : Rig ι ο η) : Ending × Rig ι ο η → Prop
  | through {fuel more : Nat} {stopped : Rig ι ο η} {result : Ending × Rig ι ο η} :
      Config.run fuel ⟨front, [], rig⟩ = some (.finished, stopped) →
        execute more back stopped = some result → RunsInTurn front back rig result
  | cut {fuel : Nat} {ending : Ending} {stopped : Rig ι ο η} :
      Config.run fuel ⟨front, [], rig⟩ = some (ending, stopped) → ending ≠ .finished →
        RunsInTurn front back rig (stopped.settle ending)

/-- The result of executing one program and, if it finishes, another on the rig that it
leaves. -/
inductive ExecutesInTurn (front back : Block) (rig : Rig ι ο η) : Ending × Rig ι ο η → Prop
  | through {fuel more : Nat} {after : Rig ι ο η} {result : Ending × Rig ι ο η} :
      execute fuel front rig = some (.finished, after) → execute more back after = some result →
        ExecutesInTurn front back rig result
  | cut {fuel : Nat} {ending : Ending} {after : Rig ι ο η} :
      execute fuel front rig = some (ending, after) → ending ≠ .finished →
        ExecutesInTurn front back rig (ending, after)

theorem execute_append_iff {front back : Block} {rig : Rig ι ο η} {result : Ending × Rig ι ο η} :
    (∃ fuel, execute fuel (front ++ back) rig = some result) ↔
      RunsInTurn front back rig result := by
  constructor
  · intro executed
    obtain ⟨fate, ran, rfl⟩ := execute_eq_some_iff.1 executed
    obtain ⟨mid, ranFront, leads⟩ := (Interpretation.runs_append ..).1 ran
    obtain ⟨fuel, stopped⟩ := Config.run_eq_some_iff.2 ⟨mid, ranFront, rfl⟩
    cases mid with
    | went next =>
      obtain ⟨more, executed⟩ := execute_eq_some_iff.2 ⟨fate, leads, rfl⟩
      exact .through stopped executed
    | ended ending next =>
      rw [Fate.leads_ended] at leads
      rw [leads]
      exact .cut stopped (ne_finished_of_runs ranFront)
  · intro inTurn
    rw [execute_eq_some_iff]
    cases inTurn with
    | through ran executed =>
      obtain ⟨mid, ranFront, same⟩ := Config.run_eq_some_iff.1 ⟨_, ran⟩
      obtain ⟨fate, ranBack, rfl⟩ := execute_eq_some_iff.1 ⟨_, executed⟩
      refine ⟨fate, (Interpretation.runs_append ..).2 ⟨mid, ranFront, ?_⟩, rfl⟩
      cases mid with
      | went next =>
        cases same
        exact ranBack
      | ended ending next =>
        cases same
        exact absurd rfl (ne_finished_of_runs ranFront)
    | cut ran unfinished =>
      obtain ⟨mid, ranFront, same⟩ := Config.run_eq_some_iff.1 ⟨_, ran⟩
      cases mid with
      | went next =>
        cases same
        exact absurd rfl unfinished
      | ended ending next =>
        cases same
        exact ⟨_, (Interpretation.runs_append ..).2 ⟨_, ranFront, rfl⟩, rfl⟩

/-! ## Flushing in between -/

/-- Sinks that stand in this relation answer alike, and a sink that has been flushed stands in it
to what it was. -/
structure OutputSink.Seamless (same : ο → ο → Prop) : Prop where
  writes : Agree same
  flushes : AgreeOnFlush same
  silent : ∀ output, same output output →
    (flush output).1 = none ∧ same output (flush output).2

/-- Records of the same bytes, however often they have been flushed. -/
def Collected.SameBytes (collected other : Collected) : Prop :=
  other.bytes = collected.bytes

theorem Collected.seamless : OutputSink.Seamless SameBytes where
  writes collected other byte same := by
    refine ⟨rfl, ?_⟩
    show other.bytes.push byte = collected.bytes.push byte
    rw [show other.bytes = collected.bytes from same]
  flushes _ _ same := ⟨rfl, same⟩
  silent _ _ := ⟨rfl, rfl⟩

/-- Two runs have ended in the same way, and left the same but for their sinks. -/
def SameResult (same : ο → ο → Prop) (result other : Ending × Rig ι ο η) : Prop :=
  other.1 = result.1 ∧ result.2.Alike Eq same Eq other.2

/-- To execute one program and then another comes to the same as to execute both in a row. -/
structure MatchesInTurn (same : ο → ο → Prop) (front back : Block) (rig : Rig ι ο η) : Prop where
  forth : ∀ fuel result, execute fuel (front ++ back) rig = some result →
    ∃ other, ExecutesInTurn front back rig other ∧ SameResult same result other
  back : ∀ other, ExecutesInTurn front back rig other →
    ∃ fuel result, execute fuel (front ++ back) rig = some result ∧ SameResult same result other

/-- What a flush makes of a rig on such a sink when a run has ended. -/
structure Flushes (same : ο → ο → Prop) (stopped : Rig ι ο η) (ending : Ending)
    (after : Rig ι ο η) : Prop where
  settled : stopped.settle ending = (ending, after)
  alike : stopped.Alike Eq same Eq after
  stays : after.Alike Eq same Eq after

namespace OutputSink.Seamless

variable {same : ο → ο → Prop} {rig : Rig ι ο η}

omit [InputSource ι] [AbortHook η] in
theorem exists_flushes (seamless : Seamless same) (self : rig.Alike Eq same Eq rig)
    (ending : Ending) : ∃ after, Flushes same rig ending after := by
  have stays := (self.settle seamless.flushes ending).2
  obtain ⟨quiet, sameOutput⟩ := seamless.silent rig.output self.output
  unfold Rig.settle at stays
  cases flushed : flush rig.output with
  | mk fault output =>
    rw [flushed] at quiet sameOutput stays
    cases quiet
    have settled : rig.settle ending = (ending, { rig with output }) := by
      rw [Rig.settle, flushed]
    exact ⟨_, settled, { self with output := sameOutput }, stays⟩

/-- A run leaves a sink of the kind that the relation is about. -/
theorem alike_of_run (seamless : Seamless same) (self : rig.Alike Eq same Eq rig)
    {program : Block} {stopped : Rig ι ο η} {fuel : Nat} {ending : Ending}
    (ran : Config.run fuel ⟨program, [], rig⟩ = some (ending, stopped)) :
    stopped.Alike Eq same Eq stopped := by
  have together := Rig.Alike.lockstep (InputSource.agree_eq (ι := ι)) seamless.writes
    (AbortHook.agree_eq (η := η))
  rcases together.run ran (Config.beside_of_near self) with spared | ⟨after, ran', alike⟩
  · exact spared.elim
  · rw [ran] at ran'
    cases ran'
    exact alike

theorem execute_of_run (seamless : Seamless same) (self : rig.Alike Eq same Eq rig)
    {program : Block} {stopped : Rig ι ο η} {fuel : Nat} {ending : Ending}
    (ran : Config.run fuel ⟨program, [], rig⟩ = some (ending, stopped)) :
    ∃ after, execute fuel program rig = some (ending, after) ∧
      Flushes same stopped ending after := by
  obtain ⟨after, flushes⟩ := seamless.exists_flushes (seamless.alike_of_run self ran) ending
  refine ⟨after, ?_, flushes⟩
  rw [execute, ran, ← flushes.settled]
  rfl

theorem run_of_execute (seamless : Seamless same) (self : rig.Alike Eq same Eq rig)
    {program : Block} {after : Rig ι ο η} {fuel : Nat} {ending : Ending}
    (executed : execute fuel program rig = some (ending, after)) :
    ∃ stopped, Config.run fuel ⟨program, [], rig⟩ = some (ending, stopped) ∧
      Flushes same stopped ending after := by
  obtain ⟨⟨ended, stopped⟩, ran, -⟩ := Option.map_eq_some_iff.1 executed
  obtain ⟨after', executed', flushes⟩ := seamless.execute_of_run self ran
  rw [executed] at executed'
  cases executed'
  exact ⟨stopped, ran, flushes⟩

/-- Whether the sink has been flushed or not makes no difference to a program. -/
theorem execute_alike (seamless : Seamless same) {other : Rig ι ο η}
    (alike : rig.Alike Eq same Eq other) (fuel : Nat) (program : Block) :
    Option.Rel (SameResult same) (execute fuel program rig) (execute fuel program other) :=
  alike.execute InputSource.agree_eq seamless.writes seamless.flushes AbortHook.agree_eq fuel
    program

theorem matchesInTurn (seamless : Seamless same) (known : same rig.output rig.output)
    (front back : Block) : MatchesInTurn same front back rig := by
  have self : rig.Alike Eq same Eq rig := ⟨rfl, rfl, known, rfl⟩
  refine ⟨?_, ?_⟩
  · intro fuel result executed
    cases execute_append_iff.1 ⟨fuel, executed⟩ with
    | @through _ more _ _ ran executed =>
      -- The second program finds a sink that has been flushed, and cannot tell.
      obtain ⟨after, first, flushes⟩ := seamless.execute_of_run self ran
      have together := seamless.execute_alike flushes.alike more back
      rw [executed] at together
      obtain ⟨other, executed', related⟩ := exists_of_rel_left together
      exact ⟨other, .through first executed', related⟩
    | cut ran unfinished =>
      obtain ⟨after, first, flushes⟩ := seamless.execute_of_run self ran
      refine ⟨_, .cut first unfinished, ?_⟩
      rw [flushes.settled]
      exact ⟨rfl, flushes.stays⟩
  · intro other inTurn
    cases inTurn with
    | @through _ more _ _ first executed =>
      obtain ⟨stopped, ran, flushes⟩ := seamless.run_of_execute self first
      have together := seamless.execute_alike flushes.alike more back
      rw [executed] at together
      obtain ⟨result, executed', related⟩ := exists_of_rel_right together
      obtain ⟨fuel, all⟩ := execute_append_iff.2 (.through ran executed')
      exact ⟨fuel, result, all, related⟩
    | cut first unfinished =>
      obtain ⟨stopped, ran, flushes⟩ := seamless.run_of_execute self first
      obtain ⟨fuel, all⟩ := execute_append_iff.2 (.cut ran unfinished)
      refine ⟨fuel, _, all, ?_⟩
      rw [flushes.settled]
      exact ⟨rfl, flushes.stays⟩

end OutputSink.Seamless

/-! ## The executor and the meaning of a program -/

/-- The executor computes the meaning of a program, and that of a program in two parts in turn. -/
structure ExecutesMeaning (program : Block) (rig : Rig ι ο η) : Prop where
  /-- The executor ends with a result exactly when the program has it by recursion on the
  program. -/
  meaning : ∀ result, (∃ fuel, execute fuel program rig = some result) ↔
    ∃ rounds outcome, Meaning.block rounds program rig = some outcome ∧ result = outcome.settle
  /-- The bound on the rounds of loops does not matter where it is large enough. -/
  steady : ∀ less more outcome, less ≤ more → Meaning.block less program rig = some outcome →
    Meaning.block more program rig = some outcome
  /-- The second part runs on what the first has left, if that has finished. -/
  inTurn : ∀ front back, program = front ++ back → ∀ result,
    (∃ fuel, execute fuel program rig = some result) ↔ RunsInTurn front back rig result
  /-- The two parts may as well be executed one after the other, with a flush in between. -/
  seamless : ∀ same, OutputSink.Seamless same → same rig.output rig.output →
    ∀ front back, program = front ++ back → MatchesInTurn same front back rig
  /-- So they may on a record of the output. -/
  recorded : ∀ (collected : Collected) front back, program = front ++ back →
    MatchesInTurn Collected.SameBytes front back ⟨rig.machine, rig.input, collected, rig.hook⟩

/-- Every program is executed as its meaning says, whatever the devices do. -/
theorem executes_meaning (program : Block) (rig : Rig ι ο η) : ExecutesMeaning program rig where
  meaning _ := execute_eq_some_iff_block
  steady _ _ _ le bound := (Meaning.computes_block program).steady le bound
  inTurn front back parts result := by
    rw [parts]
    exact execute_append_iff
  seamless _ seamless known front back _ := seamless.matchesInTurn known front back
  recorded _ front back _ := Collected.seamless.matchesInTurn rfl front back

end TapeMachine
