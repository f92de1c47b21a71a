import TapeMachine.Command.Arguments
import TapeMachine.Command.Inspect
import TapeMachine.Command.Repl
import TapeMachine.Command.Run

/-!
# The command line

Connects the commands to the files, streams and clock of the system. Runs are
driven in slices, so that input is asked for only when a program wants it and
output and deadlines are seen to in between.
-/

namespace TapeMachine.CommandLine

open Command

/-- How many steps a slice of a run has. -/
def sliceLength : Nat := 4096

/-- Tells the user something. -/
def tell : Event → IO Unit
  | .stdout bytes => do
    let out ← IO.getStdout
    out.write ⟨bytes.toArray⟩
    out.flush
  | .log line => IO.println line
  | .info line => IO.println ("[ info ] " ++ line)
  | .error line => IO.eprintln ("[ error ] " ++ line)
  | .raised fault => IO.eprintln fault.message

/-- What stands at a path. -/
def look (path : String) : IO FileState := do
  try
    let bytes ← IO.FS.readBinFile path
    return .contents bytes.toList
  catch
    | .noFileOrDirectory .. => return .missing
    | .inappropriateType .. => return .directory
    | error => return .unreadable (toString error)

/-- A hook that knows the time. -/
def setTime (now : Nat) (hook : Option (AnyOf Guard)) : Option (AnyOf Guard) :=
  hook.map fun any => ⟨any.hooks.map fun
    | .steps limit => .steps limit
    | .deadline due => .deadline { due with clock := { due.clock with now } }⟩

/-- Whether a run is about to read from a descriptor without an answer. -/
def starved (config : Config DescriptorInput DescriptorOutput (Option (AnyOf Guard))) : Bool :=
  match config.code with
  | .inputAt _ :: _ =>
    let input := config.rig.input
    input.buffer.isEmpty && input.answers.isEmpty && !input.ended
  | _ => false

/-- Passes on the output of a run. -/
def passOn (output : DescriptorOutput) : IO DescriptorOutput := do
  if output.accepted.isEmpty then return output
  tell (.stdout output.delivered)
  return { output with accepted := [] }

/-- Runs a program on the standard streams. -/
partial def driveStreams
    (config : Config DescriptorInput DescriptorOutput (Option (AnyOf Guard))) :
    IO (Ending × Tape × DescriptorOutput) := do
  let answers ←
    if starved config then
      let chunk ← (← IO.getStdin).read chunkSize.toUSize
      pure [ReadAnswer.bytes chunk.toList]
    else pure config.rig.input.answers
  let ready :=
    { config.rig with
      input := { config.rig.input with answers }
      hook := setTime (← IO.monoMsNow) config.rig.hook }
  match Config.advance starved sliceLength { config with rig := ready } with
  | .stop ending rig =>
    let (ending, rig) := rig.settle ending
    return (ending, rig.machine.tape, ← passOn rig.output)
  | .next config =>
    let output ← passOn config.rig.output
    driveStreams { config with rig := { config.rig with output } }

/-- Runs a program of a session. -/
partial def driveSession (config : Config ByteQueue Collected (Option (AnyOf Guard))) :
    IO (Ending × Rig ByteQueue Collected (Option (AnyOf Guard))) := do
  let rig := { config.rig with hook := setTime (← IO.monoMsNow) config.rig.hook }
  match Config.advance (fun _ => false) sliceLength { config with rig } with
  | .stop ending rig => return rig.settle ending
  | .next config => driveSession config

/-- Takes a line of a session. None if that has no end. -/
def takeLine (session : Session) (line : String) : IO (Option (Session × Reply)) := do
  let session := { session with clock := { now := ← IO.monoMsNow } }
  match session.submit line with
  | .answered session reply => return some (session, reply)
  | .stuck => return none
  | .runs session program =>
    let (ending, rig) ← driveSession { code := program, rig := session.rig }
    return some (session.settle ending rig)

/-- How taking lines goes on. -/
inductive Next where
  | prompted (session : Session)
  | left (exitCode : UInt32)

/-- Takes lines one after the other, with a prompt after each, up to the first that
ends the session. -/
def takeEach (session : Session) : List String → IO Next
  | [] => return .prompted session
  | line :: rest => do
    match ← takeLine session line with
    | none => return .left 1
    | some (session, reply) =>
      if let some fault := reply.raised then
        tell (.raised fault)
        return .left 1
      (ReplRequest.replyEvents reply).forM tell
      if reply.exit then return .left 0
      tell (ReplRequest.promptEvent session)
      takeEach session rest

/-- Takes the lines of the standard input until they end. -/
partial def takeLines (session : Session) : IO UInt32 := do
  let typed ← (← IO.getStdin).getLine
  if typed.isEmpty then return 0
  match ← takeEach session ((Text.Lines.typed typed.toList).map String.ofList) with
  | .prompted session => takeLines session
  | .left exitCode => return exitCode

/-- The run command. -/
def runFile (request : RunRequest) : IO UInt32 := do
  match request.load with
  | .error line =>
    tell (.error line)
    return 1
  | .ok compiled =>
    let rig := request.rig { clock := { now := ← IO.monoMsNow } }
    let (ending, tape, output) ← driveStreams { code := compiled.program, rig }
    let transcript := request.report compiled ending tape output
    transcript.events.forM tell
    return transcript.exitCode.toUInt32

/-- The inspect command. -/
def inspectFile (request : InspectRequest) : IO UInt32 := do
  let transcript := request.perform
  transcript.events.forM tell
  return transcript.exitCode.toUInt32

/-- The repl command. -/
def openSession (request : ReplRequest) : IO UInt32 := do
  match request.limits.invalid? with
  | some line =>
    tell (.error line)
    return 1
  | none =>
    let session := (request.start 1 {}).getD {}
    tell (.info "Type :help for commands, :quit to leave.")
    tell (ReplRequest.promptEvent session)
    takeLines session

/-- What the program can be asked for. -/
def usage : String :=
  "\n".intercalate [
    "run FILE [--unoptimized] [--odd-deltas] [--stats] [--max-steps N] [--timeout MS]",
    "inspect FILE [--stage tree|ir|optimized] [--odd-deltas]",
    "repl [--unoptimized] [--odd-deltas] [--max-steps N] [--timeout MS] [--input TEXT]"]

/-- Carries out a command line. -/
def carryOut (arguments : Arguments) : IO UInt32 := do
  let limits : Limits :=
    { maxSteps := arguments.quantity? "--max-steps", timeout := arguments.quantity? "--timeout" }
  let unoptimized := arguments.switch "--unoptimized"
  let oddDeltas := arguments.switch "--odd-deltas"
  match arguments.command, arguments.file with
  | "run", some path =>
    runFile { path, file := ← look path, unoptimized, oddDeltas, limits,
              stats := arguments.switch "--stats" }
  | "inspect", some path =>
    inspectFile { path, file := ← look path, oddDeltas,
                  stage := (arguments.setting? "--stage").getD "optimized" }
  | "repl", none =>
    openSession { unoptimized, oddDeltas,
                  limits := { limits with timeout := limits.timeout.or (some 5000) },
                  input := arguments.setting? "--input" }
  | _, _ =>
    IO.eprintln usage
    return 1

end TapeMachine.CommandLine

/-- The program. -/
def main (words : List String) : IO UInt32 := do
  match TapeMachine.Command.Arguments.ofWords? words with
  | some arguments => TapeMachine.CommandLine.carryOut arguments
  | none =>
    IO.eprintln TapeMachine.CommandLine.usage
    return 1
