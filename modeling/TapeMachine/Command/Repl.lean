import TapeMachine.Command.Transcript
import TapeMachine.Session
import TapeMachine.Text.Lines

/-!
# The repl command

Feeds the lines of the standard input to a session and shows its replies.
-/

namespace TapeMachine.Command

/-- What the repl command was asked to do. -/
structure ReplRequest where
  unoptimized : Bool := false
  oddDeltas : Bool := false
  limits : Limits := { timeout := some 5000 }
  /-- Text to queue as program input before the first line. -/
  input : Option String := none

namespace ReplRequest

/-- The prompt of a session, as an effect. -/
def promptEvent (session : Session) : Event :=
  .stdout (Text.Utf8.encode session.prompt)

/-- A reply as effects. Output that does not end its line is ended. -/
def replyEvents (reply : Reply) : List Event :=
  (if reply.output.isEmpty then []
   else if reply.output.endsWith "\n" then [.stdout (Text.Utf8.encode reply.output)]
   else [.stdout (Text.Utf8.encode (reply.output ++ "\n"))]) ++
  reply.notes.map .log ++ reply.errors.map .error

/-- Feeds lines until they end, one of them asks to leave, or one raises a fault. -/
def feedAll (fuel : Nat) (session : Session) : List String → Option Transcript
  | [] => some {}
  | line :: rest => do
    let (session, reply) ← session.feed fuel line
    if let some fault := reply.raised then return .broken fault
    if reply.exit then return ⟨0, replyEvents reply⟩
    let later ← feedAll fuel session rest
    return ⟨later.exitCode, replyEvents reply ++ promptEvent session :: later.events⟩

/-- The session that the command starts with. -/
def start (fuel : Nat) (request : ReplRequest) (clock : Clock) : Option Session :=
  let session : Session :=
    { options := .ofSwitches request.unoptimized request.oddDeltas
      limits := request.limits
      clock }
  match request.input with
  | none => some session
  | some text => (session.feed fuel (":input " ++ text)).map Prod.fst

/-- The lines of the bytes that were typed. A character that the end of the
input leaves unfinished was never typed. -/
def linesOf (bytes : List UInt8) : List String :=
  let finished := bytes.take (bytes.length - Text.Utf8.heldLength bytes)
  (Text.Lines.typed (Text.Utf8.decodeChars finished)).map String.ofList

/-- Carries out the command on the bytes of the standard input. None if a run
takes more than `fuel` steps. -/
def perform (fuel : Nat) (request : ReplRequest) (stdin : List UInt8)
    (clock : Clock := {}) : Option Transcript :=
  match request.limits.invalid? with
  | some line => some (.failed line)
  | none => do
    let session ← request.start fuel clock
    let later ← feedAll fuel session (linesOf stdin)
    return ⟨later.exitCode, .info "Type :help for commands, :quit to leave." ::
      promptEvent session :: later.events⟩

end ReplRequest

end TapeMachine.Command
