import TapeMachine.Device.Memory
import TapeMachine.Limits
import TapeMachine.Program.Listing
import TapeMachine.Source.Pending
import TapeMachine.Text.Blank

/-!
# Interactive sessions

A session runs a program line by line against one machine. A line is a command
if it starts with a colon and no loop is open; otherwise it is source, which is
compiled and run as soon as every loop in it is closed. Program input comes from
a queue, so a program never waits. Lines are texts of whole characters; those with
lone surrogates are left out.
-/

namespace TapeMachine

/-- The state of a session between two lines. -/
structure Session where
  options : Optimize.Options := {}
  limits : Limits := {}
  clock : Clock := {}
  machine : Machine := {}
  queue : ByteQueue := {}
  pending : Source.Pending := {}
  /-- The last program that was run. -/
  lastProgram : Option Block := none

/-- What the user sees after a line. -/
structure Reply where
  /-- The output of the program, as text. -/
  output : String := ""
  notes : List String := []
  errors : List String := []
  /-- Whether the user asked to leave. -/
  exit : Bool := false
  /-- The fault that was raised in place of an answer, if one was. -/
  raised : Option StructureError := none
  deriving DecidableEq, Repr, Inhabited

namespace Session

/-- What asks for the next line. -/
def prompt (session : Session) : String :=
  if session.pending.isComplete then "tapeworm> " else "...> "

/-- The answer to `:help`. -/
def helpText : String :=
  "\n".intercalate [
    ":tape           show cells around the pointer",
    ":reset          clear the tape, pointer and queued input",
    ":input <text>   queue text (plus a newline) as program input",
    ":ir             show the IR of the last program run",
    ":help           show this help",
    ":quit           leave the REPL"]

/-- The commands. -/
inductive Request where
  | help
  | leave
  | showTape
  | reset
  | input (text : String)
  | showProgram
  | unknown (name : String)
  deriving DecidableEq, Repr

/-- Reads a command: a name up to the first space, and the text after it. -/
def Request.ofChars (line : List Char) : Request :=
  let argument := String.ofList ((line.dropWhile (· ≠ ' ')).drop 1)
  match String.ofList (line.takeWhile (· ≠ ' ')) with
  | ":help" => .help
  | ":quit" | ":exit" => .leave
  | ":tape" => .showTape
  | ":reset" => .reset
  | ":input" => .input argument
  | ":ir" => .showProgram
  | name => .unknown name

/-- The reply about the last program. -/
def programReply : Option Block → Reply
  | none => { notes := ["nothing has run yet"] }
  | some [] => { notes := ["(empty)"] }
  | some program =>
    match Program.listing program with
    | .ok text => { notes := [text] }
    | .error fault => { raised := some fault }

/-- Carries out a command. None if that has no end, as when the cells to show are
too far out to be counted. -/
def answer (session : Session) : Request → Option (Session × Reply)
  | .help => some (session, { notes := [helpText] })
  | .leave => some (session, { exit := true })
  | .showTape => session.machine.describe.map fun text => (session, { notes := [text] })
  | .reset =>
    some ({ session with machine := session.machine.reset, queue := {}, lastProgram := none },
      { notes := ["tape reset"] })
  | .input text =>
    let queued := ByteQueue.ofText (text ++ "\n")
    some ({ session with queue := session.queue.append queued.values },
      { notes := ["queued " ++ toString queued.remaining ++ " bytes"] })
  | .showProgram => some (session, programReply session.lastProgram)
  | .unknown name =>
    some (session, { errors := ["unknown command " ++ name ++ " (try :help)"] })

/-- What a line leads to: an answer, a program to run first, or nothing ever. -/
inductive Submission where
  | answered (session : Session) (reply : Reply)
  | runs (session : Session) (program : Block)
  | stuck

/-- Takes a whole unit of source. -/
def submitSource (session : Session) (source : String) : Submission :=
  match compile { text := source, name := "<repl>" } session.options with
  | .error error =>
    .answered session { errors := [(Failure.ofCompileError error).compileLine] }
  | .ok compiled => .runs { session with lastProgram := some compiled.program } compiled.program

/-- Takes a line. -/
def submit (session : Session) (line : String) : Submission :=
  let trimmed := Text.Blank.trim line.toList
  if session.pending.isEmpty ∧ trimmed.head? = some ':' then
    match session.answer (.ofChars trimmed) with
    | some (session, reply) => .answered session reply
    | none => .stuck
  else
    let pending := session.pending.append line
    if pending.isComplete then
      let (source, pending) := pending.take
      { session with pending }.submitSource source
    else .answered { session with pending } {}

/-- The machine and devices that a program of the session runs with. The output
and the limits start afresh. -/
def rig (session : Session) : Rig ByteQueue Collected (Option (AnyOf Guard)) where
  machine := session.machine
  input := session.queue
  output := {}
  hook := session.limits.hook session.clock

/-- The session and the reply after a run. -/
def settle (session : Session) (ending : Ending)
    (rig : Rig ByteQueue Collected (Option (AnyOf Guard))) : Session × Reply :=
  ({ session with machine := rig.machine, queue := rig.input },
    { output := rig.output.text
      errors := ((Failure.ofEnding? rig.machine.tape ending).map Failure.runLine).toList })

/-- Takes a line and runs what it completes. None if that takes more than `fuel`
steps, or has no end. -/
def feed (fuel : Nat) (session : Session) (line : String) : Option (Session × Reply) :=
  match session.submit line with
  | .answered session reply => some (session, reply)
  | .stuck => none
  | .runs session program =>
    (execute fuel program session.rig).map fun (ending, rig) => session.settle ending rig

end Session

end TapeMachine
