import TapeMachine.Compile
import TapeMachine.Quantity
import TapeMachine.Run.Execute

/-!
# Failures

What can go wrong around a run, and the line that tells the user. Failures that
the toolchain knows are told in its own words; anything else is reported as
unexpected, with its message as the reason.
-/

namespace TapeMachine

open Diagnostic

/-- A bare value, as it is shown to the user. -/
inductive Shown where
  | text (words : String)
  | number (quantity : Quantity)
  | flag (on : Bool)
  | absent
  deriving DecidableEq, Repr

/-- The text of a value. -/
def Shown.render : Shown → String
  | .text words => words
  | .number quantity => quantity.render
  | .flag true => "true"
  | .flag false => "false"
  | .absent => "null"

/-- What went wrong. -/
inductive Failure where
  /-- A fault with a message, and a short name if a device reported it. -/
  | fault (message : String) (code : Option String)
  /-- A bare value in place of a fault. -/
  | value (shown : Shown)
  /-- A source that does not compile. -/
  | source (message : String)
  /-- A run that ended early at a cell. -/
  | run (code : Code) (cell : Int)
  deriving DecidableEq, Repr

namespace Failure

/-- The message of a failure. -/
def message : Failure → String
  | .fault message _ => message
  | .value shown => shown.render
  | .source message => message
  | .run code cell => code.formatAt cell

/-- Whether a failure carries a short name. -/
def hasCode : Failure → Bool
  | .fault _ code => code.isSome
  | .run .. => true
  | .value _ | .source _ => false

/-- Whether a failure is a run that ended early. -/
def isRun : Failure → Bool
  | .run .. => true
  | _ => false

/-- The line for a failure nobody expected. -/
def unexpectedLine (failure : Failure) : String :=
  Code.unexpectedFailure.format (some [("reason", .text failure.message)])

/-- The line for a failure to read a file. -/
def readLine (path : String) (failure : Failure) : String :=
  match failure with
  | .fault _ (some "ENOENT") => Code.fileNotFound.format (some [("path", .text path)])
  | _ => Code.fileUnreadable.format (some [("reason", .text failure.message)])

/-- The line for a failure to compile. -/
def compileLine : Failure → String
  | .source message => message
  | failure => failure.unexpectedLine

/-- The line for a failure to run. -/
def runLine : Failure → String
  | .run code cell => code.formatAt cell
  | failure => failure.unexpectedLine

/-- A source that did not compile, as a failure. -/
def ofCompileError : CompileError → Failure
  | .rejected _ text => .source text
  | .broken cause => .fault cause.message none

/-- The failure of a run that did not finish, with the tape it has left. -/
def ofEnding? (tape : Tape) : Ending → Option Failure
  | .finished => none
  | .underflow cell => some (.run .pointerUnderflow cell)
  | .aborted pointer => some (.run .aborted pointer)
  | .overgrown cell => some (.fault (tape.growthFault cell) none)
  | .faulted cause => some (.fault cause.message cause.code)

end Failure

/-- The line for an option with a value that is not accepted. -/
def invalidOptionLine (flag : String) (value : Shown) (hint : String) : String :=
  Code.invalidOption.format (some [("flag", .text flag), ("value", .text value.render)]) ++
    " (" ++ hint ++ ")"

end TapeMachine
