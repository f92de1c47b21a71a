import TapeMachine.Command.FileState
import TapeMachine.Command.Transcript
import TapeMachine.Device.Descriptor
import TapeMachine.Limits
import TapeMachine.Program.Census

/-!
# The run command

Compiles a file and runs it, with the standard input as program input and the
standard output as program output.
-/

namespace TapeMachine.Command

/-- What the run command was asked to do. -/
structure RunRequest where
  path : String
  file : FileState
  unoptimized : Bool := false
  oddDeltas : Bool := false
  limits : Limits := {}
  stats : Bool := false

/-- The descriptors that a command is connected to, and its clock. -/
structure Terminal where
  stdin : List ReadAnswer := []
  stdout : List WriteAnswer := []
  clock : Clock := {}

/-- The standard input before anything is read. -/
def Terminal.input (terminal : Terminal) : DescriptorInput :=
  { answers := terminal.stdin }

/-- The standard output before anything is written. -/
def Terminal.output (terminal : Terminal) : DescriptorOutput :=
  { answers := terminal.stdout }

namespace RunRequest

/-- The program to run, or the line that says why there is none. -/
def load (request : RunRequest) : Except String Compiled :=
  match request.limits.invalid? with
  | some line => .error line
  | none =>
    match request.file.read request.path with
    | .error failure => .error (failure.readLine request.path)
    | .ok text =>
      (compile { text, name := request.path }
        (.ofSwitches request.unoptimized request.oddDeltas)).mapError fun error =>
          (Failure.ofCompileError error).compileLine

/-- The machine and devices of a run. -/
def rig (request : RunRequest) (terminal : Terminal) :
    Rig DescriptorInput DescriptorOutput (Option (AnyOf Guard)) where
  machine := {}
  input := terminal.input
  output := terminal.output
  hook := request.limits.hook terminal.clock

/-- What is told about a program after it has run. -/
def statistics (compiled : Compiled) : List Event :=
  [.info (toString compiled.stats.tokens ++ " instructions, " ++
      toString compiled.stats.programNodes ++ " IR nodes, " ++
      toString compiled.stats.optimizedNodes ++ " after optimization"),
   .log (Program.Census.of compiled.program).format]

/-- What the command does after a run that has left a tape and the output. -/
def report (request : RunRequest) (compiled : Compiled) (ending : Ending) (tape : Tape)
    (output : DescriptorOutput) : Transcript :=
  let written := [Event.stdout output.delivered]
  match Failure.ofEnding? tape ending with
  | some failure => .failed failure.runLine written
  | none => ⟨0, written ++ if request.stats then statistics compiled else []⟩

/-- Carries out the command, and says how it leaves the descriptors. None if the run
takes more than `fuel` steps. -/
def conduct (fuel : Nat) (request : RunRequest) (terminal : Terminal) :
    Option (Transcript × DescriptorInput × DescriptorOutput) :=
  match request.load with
  | .error line => some (.failed line, terminal.input, terminal.output)
  | .ok compiled =>
    (execute fuel compiled.program (request.rig terminal)).map fun (ending, rig) =>
      (request.report compiled ending rig.machine.tape rig.output, rig.input, rig.output)

/-- Carries out the command. None if the run takes more than `fuel` steps. -/
def perform (fuel : Nat) (request : RunRequest) (terminal : Terminal) : Option Transcript :=
  (request.conduct fuel terminal).map Prod.fst

end RunRequest

end TapeMachine.Command
