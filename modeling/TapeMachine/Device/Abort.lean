import TapeMachine.Device.Basic
import TapeMachine.Quantity

/-!
# Abort hooks

A step limit, a deadline, and the combination of several hooks. Polls are counted
with whole numbers of any size. A counter that is a double stands still from
`2 ^ 53` on, so `StepLimit.poll` and `Deadline.poll` are what a host does for
fewer polls than that.
-/

namespace TapeMachine

/-- Stops a run at the first poll after `allowed` of them, if any number is set.
`taken` counts the polls. -/
structure StepLimit where
  allowed : Option Nat
  taken : Nat := 0
  deriving DecidableEq, Repr

namespace StepLimit

/-- The limit that a quantity sets. -/
def ofQuantity (limit : Quantity) : StepLimit :=
  { allowed := limit.allowance }

/-- A limit that only counts. -/
def unlimited : StepLimit :=
  { allowed := none }

/-- Counts a poll and says whether it is one too many. The count is exact, also
from `2 ^ 53` on. -/
def poll (limit : StepLimit) : Bool × StepLimit :=
  let taken := limit.taken + 1
  (limit.allowed.any fun allowed => decide (allowed < taken), { limit with taken })

end StepLimit

instance : AbortHook StepLimit where
  poll := StepLimit.poll

/-- A clock whose readings are known in advance. The last one repeats. -/
structure Clock where
  now : Int := 0
  later : List Int := []
  /-- The number of readings taken. -/
  reads : Nat := 0
  deriving DecidableEq, Repr

/-- Takes a reading. -/
def Clock.read (clock : Clock) : Int × Clock :=
  match clock.later with
  | [] => (clock.now, { clock with reads := clock.reads + 1 })
  | next :: later => (clock.now, ⟨next, later, clock.reads + 1⟩)

/-- Stops a run once the clock has reached `due`. The clock is read at every
`every`-th poll only; with `every` zero it is never read. -/
structure Deadline where
  due : Quantity
  clock : Clock
  every : Nat
  polls : Nat := 0
  deriving DecidableEq, Repr

namespace Deadline

/-- How many polls go by between two readings unless told otherwise. -/
def defaultEvery : Nat := 1024

/-- A deadline some milliseconds from now. -/
def start (milliseconds : Quantity) (clock : Clock) (every : Nat := defaultEvery) : Deadline :=
  let (now, clock) := clock.read
  { due := milliseconds.shift now, clock, every }

/-- Counts a poll and, if it is the clock's turn, says whether time is up. The count
is exact, also from `2 ^ 53` on. -/
def poll (deadline : Deadline) : Bool × Deadline :=
  let polls := deadline.polls + 1
  if polls % deadline.every = 0 then
    let (now, clock) := deadline.clock.read
    (deadline.due.reachedBy now, { deadline with polls, clock })
  else (false, { deadline with polls })

end Deadline

instance : AbortHook Deadline where
  poll := Deadline.poll

/-- A hook of either kind. -/
inductive Guard where
  | steps (limit : StepLimit)
  | deadline (deadline : Deadline)
  deriving DecidableEq, Repr

/-- Polls the hook, whichever it is. -/
def Guard.poll : Guard → Bool × Guard
  | .steps limit =>
    let (fired, next) := limit.poll
    (fired, .steps next)
  | .deadline due =>
    let (fired, next) := due.poll
    (fired, .deadline next)

instance : AbortHook Guard where
  poll := Guard.poll

/-- Several hooks that stop a run together. -/
structure AnyOf (η : Type) where
  hooks : List η
  deriving DecidableEq, Repr

namespace AnyOf

variable {η : Type} [AbortHook η]

/-- Polls every hook once, in order, and says whether one of them fired. -/
def pollAll : List η → Bool × List η
  | [] => (false, [])
  | hook :: rest =>
    let (fired, next) := AbortHook.poll hook
    let (others, later) := pollAll rest
    (fired || others, next :: later)

/-- Polls every hook; one that fires keeps none of the others from its turn. -/
def poll (any : AnyOf η) : Bool × AnyOf η :=
  let (fired, hooks) := pollAll any.hooks
  (fired, ⟨hooks⟩)

instance : AbortHook (AnyOf η) where
  poll := AnyOf.poll

/-- The combination of the hooks that are present, if there are any. -/
def of? (hooks : List (Option η)) : Option (AnyOf η) :=
  match hooks.filterMap id with
  | [] => none
  | first :: rest => some ⟨first :: rest⟩

end AnyOf

end TapeMachine
