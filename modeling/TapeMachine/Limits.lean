import TapeMachine.Device.Abort
import TapeMachine.Failure

/-!
# Limits of a run

The limits a user can set: a number of loop iterations and a number of
milliseconds.
-/

namespace TapeMachine

/-- The limits that were set. -/
structure Limits where
  maxSteps : Option Quantity := none
  timeout : Option Quantity := none
  deriving DecidableEq, Repr

namespace Limits

/-- The line about one limit, if its value is not accepted. -/
def invalidLine? (flag : String) (value : Option Quantity) : Option String :=
  match value with
  | none => none
  | some quantity =>
    if quantity.isPositiveWhole then none
    else some (invalidOptionLine flag (.number quantity) "expected a positive whole number")

/-- The line about the first limit whose value is not accepted. -/
def invalid? (limits : Limits) : Option String :=
  (invalidLine? "max-steps" limits.maxSteps).or (invalidLine? "timeout" limits.timeout)

/-- The hook that keeps the limits, if any is set. -/
def hook (limits : Limits) (clock : Clock) : Option (AnyOf Guard) :=
  AnyOf.of? [
    limits.maxSteps.map fun quantity => .steps (.ofQuantity quantity),
    limits.timeout.map fun quantity => .deadline (.start quantity clock)]

end Limits

end TapeMachine
