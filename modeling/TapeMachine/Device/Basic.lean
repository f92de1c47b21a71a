/-!
# Devices

What a run is connected to: something that delivers input bytes, something that
takes output bytes, and something that is asked now and then whether to stop.
Each is a class over the type of the device's state, so any value with the right
operations can be attached.
-/

namespace TapeMachine

/-- A fault that a device reports. -/
structure DeviceFault where
  /-- The short name of the fault, if it has one. -/
  code : Option String := none
  message : String
  deriving DecidableEq, Repr

/-- The device has nothing to say yet and wants to be asked again. -/
def DeviceFault.isRetryable (fault : DeviceFault) : Bool :=
  fault.code == some "EAGAIN"

/-- The device is at its end. -/
def DeviceFault.isEnd (fault : DeviceFault) : Bool :=
  fault.code == some "EOF"

/-- A source of input. -/
class InputSource (ι : Type) where
  /-- The next value, or none at the end of the input. -/
  read : ι → Except DeviceFault (Option Int) × ι

/-- A sink for output. -/
class OutputSink (ο : Type) where
  /-- Takes one byte. -/
  write : ο → UInt8 → Option DeviceFault × ο
  /-- Passes on what was taken. A run does this once, however it ends. -/
  flush : ο → Option DeviceFault × ο

/-- A hook that can stop a run. It is polled when a loop is reached, when a loop
starts over and at every step of a scan. -/
class AbortHook (η : Type) where
  /-- Whether to stop. -/
  poll : η → Bool × η

/-- No device: the input is empty. -/
instance : InputSource Unit where
  read _ := (.ok none, ())

/-- No device: output is discarded. -/
instance : OutputSink Unit where
  write _ _ := (none, ())
  flush _ := (none, ())

/-- No device: nothing stops the run. -/
instance : AbortHook Unit where
  poll _ := (false, ())

/-- A hook that may be absent. -/
instance {η : Type} [AbortHook η] : AbortHook (Option η) where
  poll
    | none => (false, none)
    | some hook =>
      let (fired, next) := AbortHook.poll hook
      (fired, some next)

end TapeMachine
