import TapeMachine.Command.Run
import TapeMachine.Proofs.Compile.Acceptance
import TapeMachine.Proofs.Device.Descriptor
import TapeMachine.Proofs.Execution.Lockstep
import TapeMachine.Proofs.Execution.Termination
import TapeMachine.Proofs.Source.Framing

/-!
# The run command as a run in memory

The command compiles a file and runs it on descriptors, under guards. Such a run is in lockstep
with one on devices in memory, under the step limit alone, as long as the descriptors fail only
in ways that are retried and no deadline fires (`lockstep_onDescriptors`). So both end alike,
and at its end the command has passed on what the run in memory has recorded
(`runsAsInMemory`).
-/

namespace TapeMachine

/-! ## Guards -/

/-- The guards that a step limit and a deadline make, as far as they are set. -/
def guards (limit : Option StepLimit) (deadline : Option Deadline) : Option (AnyOf Guard) :=
  AnyOf.of? [limit.map .steps, deadline.map .deadline]

theorem Limits.hook_eq (limits : Limits) (clock : Clock) :
    limits.hook clock = guards (limits.maxSteps.map .ofQuantity)
      (limits.timeout.map fun quantity => .start quantity clock) := by
  rw [hook, guards, Option.map_map, Option.map_map]
  rfl

/-- Guards fire if one of them does, and each is polled. -/
theorem poll_guards (limit : Option StepLimit) (deadline : Option Deadline) :
    AbortHook.poll (guards limit deadline) =
      ((AbortHook.poll limit).1 || (AbortHook.poll deadline).1,
        guards (AbortHook.poll limit).2 (AbortHook.poll deadline).2) := by
  cases limit with
  | none =>
    cases deadline with
    | none => rfl
    | some deadline =>
      simp [guards, AnyOf.of?, AbortHook.poll, AnyOf.poll, AnyOf.pollAll, Guard.poll]
  | some limit =>
    cases deadline with
    | none => simp [guards, AnyOf.of?, AbortHook.poll, AnyOf.poll, AnyOf.pollAll, Guard.poll]
    | some deadline =>
      simp [guards, AnyOf.of?, AbortHook.poll, AnyOf.poll, AnyOf.pollAll, Guard.poll]

/-- No deadline among the hooks would fire now. -/
def Undue (hook : Option (AnyOf Guard)) : Prop :=
  ∀ any ∈ hook, ∀ deadline, Guard.deadline deadline ∈ any.hooks → deadline.poll.1 = false

theorem Undue.poll_deadline {limit : Option StepLimit} {deadline : Option Deadline}
    (undue : Undue (guards limit deadline)) : (AbortHook.poll deadline).1 = false := by
  cases deadline with
  | none => rfl
  | some deadline =>
    cases limit with
    | none => exact undue _ rfl deadline (by simp)
    | some limit => exact undue _ rfl deadline (by simp)

theorem undue_guards_none (limit : Option StepLimit) : Undue (guards limit none) := by
  intro any among deadline inside
  cases limit with
  | none => cases among
  | some limit =>
    cases among
    simp at inside

/-- The guards count the polls that a step limit counts. -/
def Counts (limit : Option StepLimit) (hook : Option (AnyOf Guard)) : Prop :=
  ∃ deadline, hook = guards limit deadline

theorem Counts.poll {limit : Option StepLimit} {hook : Option (AnyOf Guard)}
    (counts : Counts limit hook) (undue : Undue hook) :
    (AbortHook.poll hook).1 = (AbortHook.poll limit).1 ∧
      Counts (AbortHook.poll limit).2 (AbortHook.poll hook).2 := by
  obtain ⟨deadline, rfl⟩ := counts
  rw [poll_guards, undue.poll_deadline, Bool.or_false]
  exact ⟨rfl, _, rfl⟩

/-! ## Runs on descriptors -/

/-- No deadline fires from here on. -/
def Config.Undisturbed
    (config : Config DescriptorInput DescriptorOutput (Option (AnyOf Guard))) : Prop :=
  ∀ later, config.Reaches later → later.Polls → Undue later.rig.hook

/-- The rigs are alike, one in memory and the other on descriptors. -/
abbrev Rig.OnDescriptors : Rig ByteQueue Collected (Option StepLimit) →
    Rig DescriptorInput DescriptorOutput (Option (AnyOf Guard)) → Prop :=
  Rig.Alike DescriptorInput.Delivers DescriptorOutput.Records Counts

theorem lockstep_onDescriptors :
    Lockstep (fun config other => config.Beside Rig.OnDescriptors other ∧ other.Undisturbed)
      Rig.OnDescriptors fun _ => False := by
  refine Lockstep.of_rigs ?_ Rig.Alike.current ?_ ?_
  · intro config next undisturbed stepped later reached
    exact undisturbed later (.step stepped reached)
  · intro node rig rig' alike
    refine alike.act ?_ ?_ node
    · intro queue input delivers
      exact delivers.read
    · intro collected output byte records
      exact records.write byte
  · intro config other beside undisturbed polls
    -- Both runs poll together, so that nothing but the step limit can fire here.
    have undue := undisturbed other .refl (beside.polls Rig.Alike.current polls)
    obtain ⟨same, counts⟩ := beside.2.2.hook.poll undue
    refine beside.2.2.poll ?_ ?_
    · intro quiet
      exact ⟨same.trans quiet, counts⟩
    · intro fires
      exact .inr ⟨same.trans fires, counts⟩

namespace Rig.OnDescriptors

variable {rig : Rig ByteQueue Collected (Option StepLimit)}
  {other : Rig DescriptorInput DescriptorOutput (Option (AnyOf Guard))}

/-- The flush at the end changes nothing about how a run ended and on which tape, and passes on
what is left. -/
theorem settle (alike : rig.OnDescriptors other) (ending : Ending) :
    ((other.settle ending).1, (other.settle ending).2.machine.tape,
        (other.settle ending).2.output.delivered) =
      ((rig.settle ending).1, (rig.settle ending).2.machine.tape,
        (rig.settle ending).2.output.bytes.toList) := by
  have flushed := alike.output.flush
  rw [Rig.settle]
  cases passed : OutputSink.flush other.output with
  | mk fault output =>
    rw [passed] at flushed
    obtain ⟨rfl, delivered, _⟩ := flushed
    refine congrArg (Prod.mk ending) (Prod.ext ?_ delivered)
    exact congrArg Machine.tape alike.machine

variable {program : Block}

theorem execute (alike : rig.OnDescriptors other)
    (undisturbed : (Config.mk program [] other).Undisturbed) (fuel : Nat) :
    (execute fuel program other).map
        (fun (ending, after) => (ending, after.machine.tape, after.output.delivered)) =
      (execute fuel program rig).map
        fun (ending, after) => (ending, after.machine.tape, after.output.bytes.toList) := by
  unfold TapeMachine.execute
  cases ran : (Config.mk program [] rig).run fuel with
  | none =>
    rw [lockstep_onDescriptors.run_eq_none ran ⟨Config.beside_of_near alike, undisturbed⟩]
    rfl
  | some result =>
    obtain ⟨ending, after⟩ := result
    rcases lockstep_onDescriptors.run ran ⟨Config.beside_of_near alike, undisturbed⟩ with
      spared | ⟨after', ran', alike'⟩
    · exact spared.elim
    · rw [ran']
      exact congrArg some (alike'.settle ending)

/-- Wherever the run in memory gets, the other one has taken the same bytes. -/
theorem taken (alike : rig.OnDescriptors other)
    (undisturbed : (Config.mk program [] other).Undisturbed)
    {last : Config ByteQueue Collected (Option StepLimit)}
    (reached : (Config.mk program [] rig).Reaches last) :
    ∃ last', (Config.mk program [] other).Reaches last' ∧
      last'.rig.output.taken = last.rig.output.bytes.toList := by
  obtain ⟨last', reached', related⟩ :=
    lockstep_onDescriptors.reaches reached ⟨Config.beside_of_near alike, undisturbed⟩
  exact ⟨last', reached', related.1.2.2.output.1⟩

end Rig.OnDescriptors

/-- Without a deadline, none fires. -/
theorem undisturbed_of_hook {limit : Option StepLimit}
    {config : Config DescriptorInput DescriptorOutput (Option (AnyOf Guard))}
    (hook : config.rig.hook = guards limit none) : config.Undisturbed := by
  intro later reached _
  obtain ⟨left, hook⟩ : ∃ limit, later.rig.hook = guards limit none := by
    refine reached.keeps (P := fun rig => ∃ limit, rig.hook = guards limit none) ?_ ?_ ⟨limit, hook⟩
    · rintro rig next ⟨limit, hook⟩ polled
      rw [Rig.poll_eq, hook, poll_guards] at polled
      split at polled
      · next polls =>
        cases polled
        exact ⟨_, (congrArg Prod.snd polls).symm⟩
      · cases polled
    · rintro rig next node ⟨limit, hook⟩ acted
      exact ⟨limit, by rw [Rig.hook_of_act acted, hook]⟩
  rw [hook]
  exact undue_guards_none left

/-! ## Limits -/

/-- The limits are whole numbers above zero, as far as they are set. -/
def Limits.Valid (limits : Limits) : Prop :=
  (∀ quantity ∈ limits.maxSteps, quantity.isPositiveWhole = true) ∧
    ∀ quantity ∈ limits.timeout, quantity.isPositiveWhole = true

theorem Limits.invalidLine?_eq_none_iff (flag : String) (value : Option Quantity) :
    invalidLine? flag value = none ↔ ∀ quantity ∈ value, quantity.isPositiveWhole = true := by
  cases value with
  | none => simp [invalidLine?]
  | some quantity => simp [invalidLine?]

theorem Limits.invalid?_eq_none_iff (limits : Limits) : limits.invalid? = none ↔ limits.Valid := by
  rw [invalid?, Option.or_eq_none_iff, invalidLine?_eq_none_iff, invalidLine?_eq_none_iff]
  rfl

namespace Command

/-! ## Transcripts -/

namespace Transcript

/-- The bytes on the standard output. -/
def written (transcript : Transcript) : List UInt8 :=
  transcript.events.flatMap fun
    | .stdout bytes => bytes
    | _ => []

/-- The lines that tell of errors. -/
def errors (transcript : Transcript) : List String :=
  transcript.events.filterMap fun
    | .error line => some line
    | _ => none

/-- The other lines. -/
def told (transcript : Transcript) : List String :=
  transcript.events.filterMap fun
    | .log line | .info line => some line
    | _ => none

/-- The exit code is the number of errors, and there is at most one. -/
def ExitsByErrors (transcript : Transcript) : Prop :=
  transcript.exitCode = transcript.errors.length ∧ transcript.errors.length ≤ 1

end Transcript

/-- The descriptors of a terminal fail only in ways that are retried. -/
structure Terminal.Retries (terminal : Terminal) : Prop where
  stdin : ReadAnswer.Retried terminal.stdin
  stdout : WriteAnswer.Retried terminal.stdout

namespace RunRequest

/-! ## Loading -/

/-- The limits are accepted, and the file holds a text whose brackets match. -/
structure Loads (request : RunRequest) (text : String) : Prop where
  limits : request.limits.Valid
  file : ∃ bytes, request.file = .contents bytes ∧ text = Source.ofText (Text.Utf8.decode bytes)
  balanced : Brackets.Balanced (Instruction.ofChars text.toList)

/-- The file and the settings that the command hands to the compiler. -/
def compiles (request : RunRequest) (text : String) : Except CompileError Compiled :=
  compile { text, name := request.path } (.ofSwitches request.unoptimized request.oddDeltas)

theorem read_eq_ok_iff {file : FileState} {path text : String} :
    file.read path = .ok text ↔
      ∃ bytes, file = .contents bytes ∧ text = Source.ofText (Text.Utf8.decode bytes) := by
  cases file with
  | contents bytes =>
    rw [FileState.read, Source.ofBytes_eq, Except.ok.injEq]
    constructor
    · rintro rfl
      exact ⟨bytes, rfl, rfl⟩
    · rintro ⟨_, ⟨rfl⟩, rfl⟩
      rfl
  | missing | directory | unreadable => simp [FileState.read]

/-- What compiles is run, if the limits are accepted. -/
theorem load_of_read {request : RunRequest} {text : String} {compiled : Compiled}
    (limits : request.limits.invalid? = none) (read : request.file.read request.path = .ok text) :
    request.load = .ok compiled ↔ request.compiles text = .ok compiled := by
  rw [load, limits]
  simp only [read]
  rw [compiles]
  cases compile _ _ <;> simp [Except.mapError]

theorem load_eq_ok_iff {request : RunRequest} {compiled : Compiled} :
    request.load = .ok compiled ↔
      ∃ text, request.Loads text ∧ request.compiles text = .ok compiled := by
  constructor
  · intro loaded
    have limits : request.limits.invalid? = none := by
      cases invalid : request.limits.invalid? with
      | none => rfl
      | some line => simp [load, invalid] at loaded
    obtain ⟨text, read⟩ : ∃ text, request.file.read request.path = .ok text := by
      cases read : request.file.read request.path with
      | ok text => exact ⟨text, rfl⟩
      | error failure => simp [load, limits, read] at loaded
    have compiled := (load_of_read limits read).1 loaded
    refine ⟨text, ⟨request.limits.invalid?_eq_none_iff.1 limits, read_eq_ok_iff.1 read, ?_⟩,
      compiled⟩
    exact (exists_compile_iff_balanced { text, name := request.path } _).1 ⟨_, compiled⟩
  · rintro ⟨text, loads, compiled⟩
    have limits := request.limits.invalid?_eq_none_iff.2 loads.limits
    exact (load_of_read limits (read_eq_ok_iff.2 loads.file)).2 compiled

theorem Loads.exists_compiled {request : RunRequest} {text : String}
    (loads : request.Loads text) : ∃ compiled, request.compiles text = .ok compiled :=
  (exists_compile_iff_balanced { text, name := request.path } _).2 loads.balanced

/-! ## Reporting -/

/-- The error line about a run that has left a tape, if it did not finish. -/
def errorLine? (tape : Tape) (ending : Ending) : Option String :=
  (Failure.ofEnding? tape ending).map Failure.runLine

theorem written_report (request : RunRequest) (compiled : Compiled) (ending : Ending)
    (tape : Tape) (output : DescriptorOutput) :
    (request.report compiled ending tape output).written = output.delivered := by
  unfold report
  cases Failure.ofEnding? tape ending with
  | some failure => simp [Transcript.failed, Transcript.written]
  | none => cases stats : request.stats <;> simp [Transcript.written, statistics]

theorem errors_report (request : RunRequest) (compiled : Compiled) (ending : Ending)
    (tape : Tape) (output : DescriptorOutput) :
    (request.report compiled ending tape output).errors = (errorLine? tape ending).toList := by
  unfold report errorLine?
  cases Failure.ofEnding? tape ending with
  | some failure => simp [Transcript.failed, Transcript.errors]
  | none => cases stats : request.stats <;> simp [Transcript.errors, statistics]

theorem exitsByErrors_failed (line : String) : (Transcript.failed line).ExitsByErrors :=
  ⟨rfl, Nat.le_refl 1⟩

theorem exitsByErrors_report (request : RunRequest) (compiled : Compiled) (ending : Ending)
    (tape : Tape) (output : DescriptorOutput) :
    (request.report compiled ending tape output).ExitsByErrors := by
  have code : (request.report compiled ending tape output).exitCode =
      (errorLine? tape ending).toList.length := by
    unfold report errorLine?
    cases Failure.ofEnding? tape ending <;> rfl
  rw [Transcript.ExitsByErrors, errors_report, code]
  refine ⟨rfl, ?_⟩
  cases errorLine? tape ending with
  | none => exact Nat.zero_le 1
  | some line => exact Nat.le_refl 1

/-- More is told of a program only if that is asked for and it has finished. -/
theorem stats_of_told_report {request : RunRequest} {compiled : Compiled} {ending : Ending}
    {tape : Tape} {output : DescriptorOutput}
    (told : (request.report compiled ending tape output).told ≠ []) :
    request.stats = true ∧ ending = .finished := by
  unfold report at told
  cases ending with
  | finished =>
    cases stats : request.stats with
    | true => exact ⟨rfl, rfl⟩
    | false => simp [Failure.ofEnding?, stats, Transcript.told] at told
  | underflow | aborted | overgrown | faulted =>
    simp [Failure.ofEnding?, Transcript.failed, Transcript.told] at told

/-! ## The whole command -/

/-- The machine and devices of the run in memory: the bytes that the standard input brings are
queued, and the step limit is the only hook. -/
def memory (request : RunRequest) (terminal : Terminal) :
    Rig ByteQueue Collected (Option StepLimit) where
  machine := {}
  input := .ofBytes (ReadAnswer.received terminal.stdin)
  output := {}
  hook := request.limits.maxSteps.map .ofQuantity

theorem onDescriptors_memory (request : RunRequest) {terminal : Terminal}
    (retries : terminal.Retries) :
    (request.memory terminal).OnDescriptors (request.rig terminal) where
  machine := rfl
  input := ⟨rfl, retries.stdin⟩
  output := ⟨rfl, retries.stdout⟩
  hook := ⟨_, request.limits.hook_eq terminal.clock⟩

/-- What the command does with a program is what the run in memory does. -/
structure Reproduces (request : RunRequest) (terminal : Terminal) (compiled : Compiled) :
    Prop where
  /-- Either neither run has ended, or the command has written the recorded bytes, and tells of
  an error if the run in memory has not finished. -/
  ends : ∀ fuel, (request.perform fuel terminal).map
      (fun transcript => (transcript.written, transcript.errors)) =
    (execute fuel compiled.program (request.memory terminal)).map
      fun (ending, rig) => (rig.output.bytes.toList, (errorLine? rig.machine.tape ending).toList)
  /-- Before the end, the bytes recorded so far have been taken for the standard output. -/
  underway : ∀ last, (Config.mk compiled.program [] (request.memory terminal)).Reaches last →
    ∃ last', (Config.mk compiled.program [] (request.rig terminal)).Reaches last' ∧
      last'.rig.output.taken = last.rig.output.bytes.toList

/-- The command behaves like the library. -/
structure RunsAsInMemory (request : RunRequest) (terminal : Terminal) : Prop where
  runs : ∀ text, request.Loads text → ∃ compiled, request.compiles text = .ok compiled ∧
    (terminal.Retries →
      (Config.mk compiled.program [] (request.rig terminal)).Undisturbed →
        request.Reproduces terminal compiled)
  /-- If there is nothing to run, then nothing is read or written. -/
  refuses : (∀ text, ¬ request.Loads text) → ∃ line, ∀ fuel,
    request.conduct fuel terminal = some (.failed line, terminal.input, terminal.output)
  exits : ∀ fuel, ∀ transcript ∈ request.perform fuel terminal, transcript.ExitsByErrors
  /-- More is told only after a run that finished. -/
  tells : ∀ fuel, ∀ transcript ∈ request.perform fuel terminal, transcript.told ≠ [] →
    request.stats = true ∧ ∃ compiled rig, request.load = .ok compiled ∧
      execute fuel compiled.program (request.rig terminal) = some (.finished, rig)

section Performing

variable {request : RunRequest} {terminal : Terminal} {fuel : Nat}

theorem conduct_of_load {compiled : Compiled} (loaded : request.load = .ok compiled) :
    request.conduct fuel terminal =
      (execute fuel compiled.program (request.rig terminal)).map fun (ending, rig) =>
        (request.report compiled ending rig.machine.tape rig.output, rig.input, rig.output) := by
  rw [conduct, loaded]

theorem conduct_of_refused {line : String} (refused : request.load = .error line) :
    request.conduct fuel terminal = some (.failed line, terminal.input, terminal.output) := by
  rw [conduct, refused]

/-- The command either tells of one error and does nothing else, or reports on a run. -/
theorem perform_cases {transcript : Transcript}
    (performed : transcript ∈ request.perform fuel terminal) :
    (∃ line, transcript = .failed line) ∨ ∃ compiled ending rig,
      request.load = .ok compiled ∧
        execute fuel compiled.program (request.rig terminal) = some (ending, rig) ∧
          transcript = request.report compiled ending rig.machine.tape rig.output := by
  obtain ⟨result, conducted, rfl⟩ := Option.map_eq_some_iff.1 performed
  cases loaded : request.load with
  | error line =>
    rw [conduct_of_refused loaded] at conducted
    cases conducted
    exact .inl ⟨line, rfl⟩
  | ok compiled =>
    rw [conduct_of_load loaded] at conducted
    obtain ⟨⟨ending, rig⟩, executed, rfl⟩ := Option.map_eq_some_iff.1 conducted
    exact .inr ⟨compiled, ending, rig, rfl, executed, rfl⟩

theorem reproduces_of_load {compiled : Compiled} (loaded : request.load = .ok compiled)
    (retries : terminal.Retries)
    (undisturbed : (Config.mk compiled.program [] (request.rig terminal)).Undisturbed) :
    request.Reproduces terminal compiled := by
  have alike := request.onDescriptors_memory retries
  constructor
  · intro fuel
    have executed := congrArg (Option.map fun (ending, tape, bytes) =>
      ((bytes : List UInt8), (errorLine? tape ending).toList)) (alike.execute undisturbed fuel)
    rw [Option.map_map, Option.map_map] at executed
    rw [perform, conduct_of_load loaded, Option.map_map, Option.map_map]
    refine Eq.trans ?_ executed
    refine Option.map_congr fun result _ => ?_
    exact Prod.ext (written_report ..) (errors_report ..)
  · intro last reached
    exact alike.taken undisturbed reached

end Performing

/-- Whatever the file, the flags and the descriptors are, the command behaves like the
library. -/
theorem runsAsInMemory (request : RunRequest) (terminal : Terminal) :
    request.RunsAsInMemory terminal := by
  constructor
  case runs =>
    intro text loads
    obtain ⟨compiled, compiles⟩ := loads.exists_compiled
    have loaded := load_eq_ok_iff.2 ⟨text, loads, compiles⟩
    exact ⟨compiled, compiles, reproduces_of_load loaded⟩
  case refuses =>
    intro without
    cases loaded : request.load with
    | error line => exact ⟨line, fun fuel => conduct_of_refused loaded⟩
    | ok compiled =>
      obtain ⟨text, loads, _⟩ := load_eq_ok_iff.1 loaded
      exact absurd loads (without text)
  case exits =>
    intro fuel transcript performed
    rcases perform_cases performed with ⟨line, rfl⟩ | ⟨compiled, ending, rig, _, _, rfl⟩
    · exact exitsByErrors_failed line
    · exact exitsByErrors_report ..
  case tells =>
    intro fuel transcript performed told
    rcases perform_cases performed with
      ⟨line, rfl⟩ | ⟨compiled, ending, rig, loaded, executed, rfl⟩
    · exact absurd rfl told
    · obtain ⟨stats, rfl⟩ := stats_of_told_report told
      exact ⟨stats, compiled, rig, loaded, executed⟩

/-- Runs `,[.,]` for two rounds of its loop. -/
def twoRounds : RunRequest where
  path := "echo"
  file := .contents [44, 91, 46, 44, 93]
  limits := { maxSteps := some 2 }

/-- Three letters on the standard input, and descriptors that are not ready at first. -/
def slowTerminal : Terminal :=
  let again := { code := some "EAGAIN", message := "again" }
  { stdin := [.fault again, .bytes [65, 66], .fault again, .bytes [67]]
    stdout := [.fault again, .accept 1] }

theorem runsAsInMemory_twoRounds :
    twoRounds.Loads ",[.,]" ∧ slowTerminal.Retries ∧
    (∀ program, (Config.mk program [] (twoRounds.rig slowTerminal)).Undisturbed) ∧
    (twoRounds.perform 20 slowTerminal).map
      (fun transcript => (transcript.exitCode, transcript.written)) = some (1, [65, 66]) ∧
    twoRounds.RunsAsInMemory slowTerminal := by
  refine ⟨⟨?_, ⟨_, rfl, ?_⟩, ?_⟩, ⟨?_, ?_⟩, ?_, ?_, runsAsInMemory _ _⟩
  · exact ⟨by simp only [twoRounds]; decide +kernel, by simp [twoRounds]⟩
  · decide +kernel
  · exact (Brackets.balanced_eq_true_iff _).1 (by decide +kernel)
  · simp [slowTerminal, ReadAnswer.Retried, DeviceFault.isRetryable]
  · simp [slowTerminal, WriteAnswer.Retried, DeviceFault.isRetryable]
  · intro program
    exact undisturbed_of_hook (twoRounds.limits.hook_eq {})
  · decide +kernel

end RunRequest

end Command

end TapeMachine
