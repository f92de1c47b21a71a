import TapeMachine.Device.Basic
import TapeMachine.Machine.Basic

/-!
# A machine at work

A machine together with the devices attached to it, and the things that a single
node does to them. Each either goes through or ends the run; one that ends it by
a bad address changes nothing, and one that would have to store a byte beyond the
cells that a tape can have has at most read it from the input.
-/

namespace TapeMachine

/-- How a run ends. -/
inductive Ending where
  /-- All code has run. -/
  | finished
  /-- A cell left of the tape was addressed. -/
  | underflow (cell : Int)
  /-- The hook fired while the pointer was here. -/
  | aborted (pointer : Int)
  /-- A byte was to be stored in a cell that the tape cannot grow to. -/
  | overgrown (cell : Nat)
  /-- A device failed. -/
  | faulted (fault : DeviceFault)
  deriving DecidableEq, Repr

/-- A machine with the devices attached to it. -/
structure Rig (ι ο η : Type) where
  machine : Machine
  input : ι
  output : ο
  hook : η

/-- What becomes of a rig: the run goes on or ends. -/
inductive Outcome (ι ο η : Type) where
  | went (rig : Rig ι ο η)
  | ended (ending : Ending) (rig : Rig ι ο η)

namespace Rig

variable {ι ο η : Type}

/-- Stores a byte in a cell. -/
def store (rig : Rig ι ο η) (cell : Nat) (value : UInt8) : Outcome ι ο η :=
  match rig with
  | ⟨⟨tape, pointer, precision⟩, input, output, hook⟩ =>
    match tape.store cell value with
    | .ok tape => .went ⟨⟨tape, pointer, precision⟩, input, output, hook⟩
    | .error _ => .ended (.overgrown cell) ⟨⟨tape, pointer, precision⟩, input, output, hook⟩

/-- Replaces the value of a cell by a function of it. -/
def update (rig : Rig ι ο η) (offset : Int) (change : UInt8 → UInt8) : Outcome ι ο η :=
  match rig.machine.address offset with
  | .error cell => .ended (.underflow cell) rig
  | .ok cell => rig.store cell (change (rig.machine.tape.get cell))

/-- Adds a multiple of a cell to the cell `into` further on. A source of zero
leaves the target alone, wherever it is. -/
def multiply (rig : Rig ι ο η) (offset into : Int) (factor : UInt8) : Outcome ι ο η :=
  match rig.machine.address offset with
  | .error cell => .ended (.underflow cell) rig
  | .ok source =>
    let value := rig.machine.tape.get source
    if value = 0 then .went rig
    else rig.update (rig.machine.precision.add offset into) (· + value * factor)

/-- Moves the pointer. -/
def move (rig : Rig ι ο η) (delta : Int) : Outcome ι ο η :=
  match rig.machine.address delta with
  | .error cell => .ended (.underflow cell) rig
  | .ok cell =>
    match rig with
    | ⟨⟨tape, _, precision⟩, input, output, hook⟩ =>
      .went ⟨⟨tape, cell, precision⟩, input, output, hook⟩

/-- Writes a cell to the output. -/
def write [OutputSink ο] (rig : Rig ι ο η) (offset : Int) : Outcome ι ο η :=
  match rig.machine.address offset with
  | .error cell => .ended (.underflow cell) rig
  | .ok cell =>
    match rig with
    | ⟨machine, input, output, hook⟩ =>
      match OutputSink.write output (machine.tape.get cell) with
      | (none, output) => .went ⟨machine, input, output, hook⟩
      | (some fault, output) => .ended (.faulted fault) ⟨machine, input, output, hook⟩

/-- Reads the input into a cell; its end reads as zero. The address is checked
before anything is read. -/
def receive [InputSource ι] (rig : Rig ι ο η) (offset : Int) : Outcome ι ο η :=
  match rig.machine.address offset with
  | .error cell => .ended (.underflow cell) rig
  | .ok cell =>
    match rig with
    | ⟨machine, input, output, hook⟩ =>
      match InputSource.read input with
      | (.ok value, input) =>
        store ⟨machine, input, output, hook⟩ cell (UInt8.ofInt (value.getD 0))
      | (.error fault, input) => .ended (.faulted fault) ⟨machine, input, output, hook⟩

/-- Asks the hook whether to stop. -/
def poll [AbortHook η] (rig : Rig ι ο η) : Outcome ι ο η :=
  match rig with
  | ⟨machine, input, output, hook⟩ =>
    match AbortHook.poll hook with
    | (false, hook) => .went ⟨machine, input, output, hook⟩
    | (true, hook) => .ended (.aborted machine.pointer) ⟨machine, input, output, hook⟩

end Rig

end TapeMachine
