import TapeMachine.Proofs.Execution.Termination
import TapeMachine.Proofs.Program.Spelling
import TapeMachine.Run.Direct

/-!
# The executor and the direct interpreter

A program built from text and an interpreter that reads the text itself run in step:
where the executor has code to run and loops to come back to, the interpreter has a
position in the text, and the one determines the other.
-/

namespace TapeMachine.Direct

open Program

variable {ι ο η : Type}

/-! ## Where a run stands -/

/-- The text before and behind a piece of text, which is what is left of the body of the
innermost open loop: around the body stand the brackets of the loop, and behind them the
code after it, which is itself what is left of the next loop. -/
inductive Around : List Instruction → List Instruction → List OpenLoop → List Instruction → Prop
  | outermost {before text : List Instruction} : Around before text [] []
  | inside {outside done text later behind : List Instruction} {loop : OpenLoop}
      {outer : List OpenLoop} : spell? loop.body = some (done ++ text) →
        spell? loop.after = some later →
          Around (outside ++ .loopOpen :: (done ++ text) ++ [.loopClose]) later outer behind →
            Around (outside ++ .loopOpen :: done) text (loop :: outer)
              (.loopClose :: later ++ behind)

/-- Text that has been run belongs to the text before. -/
theorem Around.advance {before piece text behind : List Instruction} {loops : List OpenLoop}
    (around : Around before (piece ++ text) loops behind) :
    Around (before ++ piece) text loops behind := by
  cases around with
  | outermost => exact .outermost
  | @inside outside done _ later behind loop outer body after further =>
    have front : outside ++ .loopOpen :: done ++ piece =
        outside ++ .loopOpen :: (done ++ piece) := by simp
    rw [front]
    rw [← List.append_assoc] at body further
    exact .inside body after further

/-- The position in the text at which the executor's code starts. -/
def Stands (program : List Instruction) (position : Nat) (code : Block)
    (loops : List OpenLoop) : Prop :=
  ∃ before text behind, program = before ++ text ++ behind ∧ position = before.length ∧
    spell? code = some text ∧ Around before text loops behind

theorem stands_start {program : List Instruction} {code : Block}
    (spelled : spell? code = some program) : Stands program 0 code [] :=
  ⟨[], program, [], by simp, rfl, spelled, .outermost⟩

theorem Stands.at_end {program : List Instruction} {position : Nat}
    (stands : Stands program position [] []) : program[position]? = none := by
  obtain ⟨before, text, behind, whole, rfl, spelled, around⟩ := stands
  rw [spell?_nil] at spelled
  cases spelled
  cases around
  simp [whole]

/-- At the end of a loop's body stands its close bracket. Behind it comes the code after
the loop, and behind the open bracket that it matches the body starts over. -/
theorem Stands.at_close {program : List Instruction} {position : Nat} {loop : OpenLoop}
    {outer : List OpenLoop} (stands : Stands program position [] (loop :: outer)) :
    ∃ opening, Brackets.Matches program opening position ∧
      Stands program (position + 1) loop.after outer ∧
        Stands program (opening + 1) loop.body (loop :: outer) := by
  obtain ⟨before, text, behind, whole, rfl, spelled, around⟩ := stands
  rw [spell?_nil] at spelled
  cases spelled
  cases around with
  | @inside outside done _ later behind _ _ body after further =>
    rw [List.append_nil] at body further whole
    refine ⟨outside.length, ?_, ?_, ?_⟩
    · rw [Brackets.matches_iff]
      refine ⟨outside, done, later ++ behind, whole, balanced_of_spell? body, rfl, ?_⟩
      simp only [List.length_append, List.length_cons]
      omega
    · refine ⟨_, later, behind, ?_, ?_, after, further⟩
      · simp [whole]
      · simp only [List.length_append, List.length_cons, List.length_nil]
    · refine ⟨outside ++ [.loopOpen], done, .loopClose :: later ++ behind, ?_, ?_, body, ?_⟩
      · simp [whole]
      · simp
      · -- All of the body is to be run again.
        exact .inside (by simpa using body) after (by simpa using further)

/-- In front of more code stands the instruction of its first node, or the open bracket
of a loop; behind the close bracket that this matches comes the rest of the code. -/
theorem Stands.at_node {program : List Instruction} {position : Nat} {node : Node}
    {rest : Block} {loops : List OpenLoop} (stands : Stands program position (node :: rest) loops) :
    (∃ instruction, program[position]? = some instruction ∧ instruction.node? = some node ∧
      Stands program (position + 1) rest loops) ∨
    ∃ body closing, node = .loop body ∧ Brackets.Matches program position closing ∧
      Stands program (closing + 1) rest loops ∧
        Stands program (position + 1) body (⟨body, rest⟩ :: loops) := by
  obtain ⟨before, text, behind, whole, rfl, spelled, around⟩ := stands
  rcases spell?_cons_cases spelled with
    ⟨instruction, others, becomes, later, rfl⟩ | ⟨body, inner, others, rfl, within, later, rfl⟩
  · refine .inl ⟨instruction, by simp [whole], becomes, ?_⟩
    refine ⟨before ++ [instruction], others, behind, ?_, ?_, later, ?_⟩
    · simp [whole]
    · simp
    · exact @Around.advance before [instruction] others behind loops around
  · have piece : Instruction.loopOpen :: inner ++ .loopClose :: others =
        (.loopOpen :: inner ++ [.loopClose]) ++ others := by simp
    rw [piece] at around
    have skipped := around.advance
    rw [← List.append_assoc] at skipped
    refine .inr ⟨body, before.length + 1 + inner.length, rfl, ?_, ?_, ?_⟩
    · rw [Brackets.matches_iff]
      refine ⟨before, inner, others ++ behind, ?_, balanced_of_spell? within, rfl, rfl⟩
      simp [whole]
    · refine ⟨_, others, behind, ?_, ?_, later, skipped⟩
      · simp [whole]
      · simp only [List.length_append, List.length_cons, List.length_nil]
        omega
    · refine ⟨before ++ [.loopOpen], inner, .loopClose :: others ++ behind, ?_, ?_, within, ?_⟩
      · simp [whole]
      · simp
      · -- Nothing of the body has been run yet.
        exact @Around.inside before [] inner others behind ⟨body, rest⟩ loops within later skipped

/-! ## Single steps -/

/-- Two runs have made the same step: they have stopped alike, or go on from places that
belong together. -/
inductive InStep (program : List Instruction) :
    Progress ι ο η → TapeMachine.Progress ι ο η → Prop
  | next {position : Nat} {code : Block} {loops : List OpenLoop} (rig : Rig ι ο η) :
      Stands program position code loops →
        InStep program (.next ⟨position, rig⟩) (.next ⟨code, loops, rig⟩)
  | stop (ending : Ending) (rig : Rig ι ο η) :
      InStep program (.stop ending rig) (.stop ending rig)

theorem inStep_goOn {program : List Instruction} {position : Nat} {code : Block}
    {loops : List OpenLoop} (stands : Stands program position code loops)
    (outcome : Outcome ι ο η) :
    InStep program (goOn outcome position) (outcome.andThen (⟨code, loops, ·⟩)) := by
  cases outcome with
  | went rig => exact .next rig stands
  | ended ending rig => exact .stop ending rig

variable [InputSource ι] [OutputSink ο] [AbortHook η]

theorem step_plain {program : List Instruction} {position : Nat} {instruction : Instruction}
    {node : Node} (found : program[position]? = some instruction)
    (becomes : instruction.node? = some node) (rig : Rig ι ο η) :
    step program ⟨position, rig⟩ = goOn (rig.act node) (position + 1) := by
  have up : (fun value : UInt8 => value + (1 : Int8).toUInt8) = (· + 1) := by
    funext value
    rw [show (1 : Int8).toUInt8 = 1 from by decide]
  have down : (fun value : UInt8 => value + (-1 : Int8).toUInt8) = (· - 1) := by
    funext value
    rw [show (-1 : Int8).toUInt8 = -1 from by decide, UInt8.sub_eq_add_neg]
  cases instruction <;> cases becomes <;> simp only [step, found, Rig.act, up, down]

theorem isSingle_of_node? {instruction : Instruction} {node : Node}
    (becomes : instruction.node? = some node) : node.isSingle = true := by
  cases instruction <;> cases becomes <;> rfl

theorem step_open {program : List Instruction} {opening closing : Nat}
    (matched : Brackets.Matches program opening closing) (rig : Rig ι ο η) :
    step program ⟨opening, rig⟩ =
      if rig.machine.current = 0 then goOn rig.poll (closing + 1)
      else goOn rig.poll (opening + 1) := by
  have found := matched.2.1
  simp only [step, found, Brackets.closeOf_of_matches matched, Option.getD_some]
  cases polled : rig.poll with
  | went next =>
    simp only [goOn, Rig.machine_of_poll polled]
  | ended ending next => simp only [goOn, ite_self]

theorem step_close {program : List Instruction} {opening closing : Nat}
    (matched : Brackets.Matches program opening closing) (rig : Rig ι ο η) :
    step program ⟨closing, rig⟩ =
      if rig.machine.current = 0 then .next ⟨closing + 1, rig⟩
      else goOn rig.poll (opening + 1) := by
  have found := matched.2.2.1
  simp only [step, found, Brackets.openOf_of_matches matched, Option.getD_some]

/-- At the first cell there is no way to the left. -/
theorem step_moveLeft_of_first {program : List Instruction} {position : Nat} {rig : Rig ι ο η}
    (found : program[position]? = some .moveLeft) (double : rig.machine.precision = .double)
    (first : rig.machine.pointer = 0) :
    step program ⟨position, rig⟩ = .stop (.underflow (-1)) rig := by
  have below : rig.machine.address (-1) = .error (-1) := by
    rw [Machine.address, double, first]
    rfl
  simp only [step, found, Rig.move, below, goOn]

/-- Past its end the input reads as zero. -/
theorem step_input_of_end {program : List Instruction} {position cell : Nat} {rig : Rig ι ο η}
    {input : ι} (found : program[position]? = some .input)
    (address : rig.machine.address 0 = .ok cell) (room : cell < Tape.limit)
    (ended : InputSource.read rig.input = (.ok none, input)) :
    step program ⟨position, rig⟩ = .next ⟨position + 1, { rig with
      machine := { rig.machine with tape := rig.machine.tape.set cell 0 }, input }⟩ := by
  simp only [step, found, Rig.receive, address, ended, Option.getD_none, Rig.store_of_lt room, goOn]
  rfl

/-- The executor and the interpreter make the same step. -/
theorem inStep_step {program : List Instruction} {position : Nat} {code : Block}
    {loops : List OpenLoop} (stands : Stands program position code loops) (rig : Rig ι ο η) :
    InStep program (step program ⟨position, rig⟩)
      (TapeMachine.Config.step ⟨code, loops, rig⟩) := by
  cases code with
  | nil =>
    cases loops with
    | nil =>
      simp only [step, stands.at_end]
      exact .stop .finished rig
    | cons loop outer =>
      obtain ⟨opening, matched, behind, again⟩ := stands.at_close
      rw [step_close matched, TapeMachine.Config.step_nil]
      split
      · exact .next rig behind
      · exact inStep_goOn again rig.poll
  | cons node rest =>
    rcases stands.at_node with
      ⟨instruction, found, becomes, behind⟩ | ⟨body, closing, rfl, matched, behind, inside⟩
    · rw [step_plain found becomes, TapeMachine.Config.step_single (isSingle_of_node? becomes)]
      exact inStep_goOn behind _
    · rw [step_open matched, TapeMachine.Config.step_loop_eq]
      split
      · exact inStep_goOn behind rig.poll
      · exact inStep_goOn inside rig.poll

/-! ## Whole runs -/

theorem run_eq_run {program : List Instruction} (fuel : Nat) {position : Nat} {code : Block}
    {loops : List OpenLoop} (stands : Stands program position code loops) (rig : Rig ι ο η) :
    run program fuel ⟨position, rig⟩ = TapeMachine.Config.run fuel ⟨code, loops, rig⟩ := by
  -- Both sides use one unit of fuel for a step, and their places go on belonging together.
  induction fuel generalizing position code loops rig with
  | zero => rfl
  | succ fuel ih =>
    rw [run, TapeMachine.Config.run]
    have stepped := inStep_step stands rig
    generalize step program ⟨position, rig⟩ = direct at stepped
    generalize TapeMachine.Config.step ⟨code, loops, rig⟩ = executed at stepped
    cases stepped with
    | next rig stands => exact ih stands rig
    | stop ending rig => rfl

/-- Every run of the program built from a source is the run of its instructions, with
the same steps, and comes to an end if their number is limited. -/
def RunsAsWritten (source : String) : Prop :=
  ∃ table program, ParseTree.parse (.ofSource source) = .ok table ∧
    ofTable table table.root = .ok program ∧
    (∀ (ι ο η : Type) [InputSource ι] [OutputSink ο] [AbortHook η] (rig : Rig ι ο η) (fuel : Nat),
      execute fuel program rig =
        (run (Instruction.ofChars source.toList) fuel ⟨0, rig⟩).map fun result =>
          result.2.settle result.1) ∧
    ∀ (ι ο : Type) [InputSource ι] [OutputSink ο] (rig : Rig ι ο StepLimit) (limit : Nat),
      rig.hook.allowed = some limit → ∃ fuel ending after,
        run (Instruction.ofChars source.toList) fuel ⟨0, rig⟩ = some (ending, after) ∧
          execute fuel program rig = some (after.settle ending)

theorem runsAsWritten_of_balanced {source : String}
    (balanced : Brackets.Balanced (Instruction.ofChars source.toList)) :
    RunsAsWritten source := by
  obtain ⟨table, program, parsed, built, spelled⟩ := exists_built balanced
  have same : ∀ (ι ο η : Type) [InputSource ι] [OutputSink ο] [AbortHook η] (rig : Rig ι ο η)
      (fuel : Nat), execute fuel program rig =
        (run (Instruction.ofChars source.toList) fuel ⟨0, rig⟩).map fun result =>
          result.2.settle result.1 := by
    intro ι ο η _ _ _ rig fuel
    rw [run_eq_run fuel (stands_start spelled) rig]
    rfl
  refine ⟨table, program, parsed, built, same, ?_⟩
  intro ι ο _ _ rig limit limited
  obtain ⟨fuel, result, executed⟩ := exists_execute_of_limit program limited
  have met := same ι ο StepLimit rig fuel
  rw [executed] at met
  obtain ⟨⟨ending, after⟩, ended, settled⟩ := Option.map_eq_some_iff.1 met.symm
  exact ⟨fuel, ending, after, ended, by rw [executed, ← settled]⟩

theorem runsAsWritten_echo :
    Brackets.balanced (Instruction.ofChars "read ,[. and ,] on".toList) = true ∧
      RunsAsWritten "read ,[. and ,] on" := by
  have balanced : Brackets.balanced (Instruction.ofChars "read ,[. and ,] on".toList) = true := by
    decide +kernel
  exact ⟨balanced, runsAsWritten_of_balanced ((Brackets.balanced_eq_true_iff _).1 balanced)⟩

end TapeMachine.Direct
