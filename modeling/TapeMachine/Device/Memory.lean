import TapeMachine.Device.Basic
import TapeMachine.Text.Utf8

/-!
# Devices in memory

A queue of input values, and a record of all output. More input can be queued
between runs.
-/

namespace TapeMachine

/-- Input values not read yet, in order. They are kept as they were given; a
cell takes them modulo 256. -/
structure ByteQueue where
  values : List Int := []
  deriving DecidableEq, Repr, Inhabited

namespace ByteQueue

/-- A queue of bytes. -/
def ofBytes (bytes : List UInt8) : ByteQueue :=
  ⟨bytes.map fun byte => (byte.toNat : Int)⟩

/-- A queue of the bytes of a text. -/
def ofText (text : String) : ByteQueue :=
  ofBytes (Text.Utf8.encode text)

/-- Takes the first value. -/
def read (queue : ByteQueue) : Option Int × ByteQueue :=
  match queue.values with
  | [] => (none, queue)
  | value :: rest => (some value, ⟨rest⟩)

/-- Queues values behind the others. -/
def append (queue : ByteQueue) (values : List Int) : ByteQueue :=
  ⟨queue.values ++ values⟩

/-- Queues the bytes of a text behind the others. -/
def appendText (queue : ByteQueue) (text : String) : ByteQueue :=
  queue.append (ofText text).values

/-- The number of values left. -/
def remaining (queue : ByteQueue) : Nat :=
  queue.values.length

end ByteQueue

instance : InputSource ByteQueue where
  read queue :=
    let (value, rest) := queue.read
    (.ok value, rest)

/-- All output so far, and how often it was flushed. -/
structure Collected where
  bytes : Array UInt8 := #[]
  flushes : Nat := 0
  deriving DecidableEq, Repr, Inhabited

namespace Collected

/-- Adds a value modulo 256. -/
def push (collected : Collected) (value : Int) : Collected :=
  { collected with bytes := collected.bytes.push (UInt8.ofInt value) }

/-- The output as text. That a host has no texts longer than `Text.Units.maxLength` is
left out here. -/
def text (collected : Collected) : String :=
  Text.Utf8.decode collected.bytes.toList

end Collected

instance : OutputSink Collected where
  write collected byte := (none, { collected with bytes := collected.bytes.push byte })
  flush collected := (none, { collected with flushes := collected.flushes + 1 })

end TapeMachine
