import TapeMachine.Diagnostic.Catalog
import TapeMachine.Run.Step

/-!
# Execution

Running a program to its end. However the run ends, the output is flushed once,
and the machine is left as the last completed step left it.
-/

namespace TapeMachine

/-- The catalog's code for an ending, if it is an error of the program. -/
def Ending.code? : Ending → Option Diagnostic.Code
  | .finished | .overgrown _ | .faulted _ => none
  | .underflow _ => some .pointerUnderflow
  | .aborted _ => some .aborted

/-- The message of an ending that is not the normal one, with the tape it has left. -/
def Ending.message? (tape : Tape) : Ending → Option String
  | .finished => none
  | .underflow cell => some (Diagnostic.Code.pointerUnderflow.formatAt cell)
  | .aborted pointer => some (Diagnostic.Code.aborted.formatAt pointer)
  | .overgrown cell => some (tape.growthFault cell)
  | .faulted fault => some fault.message

variable {ι ο η : Type} [InputSource ι] [OutputSink ο] [AbortHook η]

/-- Ends a run by flushing the output. A fault in that is how the run ended. -/
def Rig.settle (ending : Ending) (rig : Rig ι ο η) : Ending × Rig ι ο η :=
  match OutputSink.flush rig.output with
  | (none, output) => (ending, { rig with output })
  | (some fault, output) => (.faulted fault, { rig with output })

/-- Runs a program. None if it takes more than `fuel` steps. -/
def execute (fuel : Nat) (program : Block) (rig : Rig ι ο η) :
    Option (Ending × Rig ι ο η) :=
  ((Config.mk program [] rig).run fuel).map fun (ending, rig) => rig.settle ending

end TapeMachine
