import TapeMachine.Device.Basic

/-!
# Descriptors

Buffered bytes over a descriptor that answers call by call. The answers are
known in advance; a descriptor that has run out of them is at its end for
reading and takes everything for writing. A call answered with a retryable
fault is simply made again.
-/

namespace TapeMachine

/-- How many bytes one call moves at most. -/
def chunkSize : Nat := 4096

/-! ## Reading -/

/-- The answer to one call for input; no bytes are the end of the input. -/
inductive ReadAnswer where
  | bytes (chunk : List UInt8)
  | fault (fault : DeviceFault)
  deriving DecidableEq, Repr

/-- A reader: the bytes received and not yet handed out, and the answers to the
calls to come. -/
structure DescriptorInput where
  answers : List ReadAnswer
  buffer : List UInt8 := []
  ended : Bool := false
  /-- The number of calls made. -/
  calls : Nat := 0
  deriving DecidableEq, Repr

namespace DescriptorInput

/-- Calls until there is a byte to hand out, a fault to report or an end. A call
takes no more than `chunkSize` bytes of its answer; the others are lost. -/
def fill (calls : Nat) : List ReadAnswer → Except DeviceFault (Option Int) × DescriptorInput
  | [] => (.ok none, ⟨[], [], true, calls + 1⟩)
  | .bytes [] :: answers => (.ok none, ⟨answers, [], true, calls + 1⟩)
  | .bytes (byte :: rest) :: answers =>
    (.ok (some byte.toNat), ⟨answers, rest.take (chunkSize - 1), false, calls + 1⟩)
  | .fault fault :: answers =>
    if fault.isRetryable then fill (calls + 1) answers
    else if fault.isEnd then (.ok none, ⟨answers, [], true, calls + 1⟩)
    else (.error fault, ⟨answers, [], false, calls + 1⟩)

/-- Hands out the next byte. After the end no further call is made. -/
def read (input : DescriptorInput) : Except DeviceFault (Option Int) × DescriptorInput :=
  match input.buffer with
  | byte :: rest => (.ok (some byte.toNat), { input with buffer := rest })
  | [] => if input.ended then (.ok none, input) else fill input.calls input.answers

end DescriptorInput

instance : InputSource DescriptorInput where
  read := DescriptorInput.read

/-! ## Writing -/

/-- The answer to one call with output: how many bytes were accepted. -/
inductive WriteAnswer where
  | accept (count : Nat)
  | fault (fault : DeviceFault)
  deriving DecidableEq, Repr

/-- A writer: the bytes taken and not yet passed on, the answers to the calls to
come, and what earlier calls accepted. -/
structure DescriptorOutput where
  answers : List WriteAnswer
  pending : Array UInt8 := #[]
  /-- The bytes accepted by each call, last call first. -/
  accepted : List (List UInt8) := []
  /-- The number of calls made. -/
  calls : Nat := 0
  deriving DecidableEq, Repr

namespace DescriptorOutput

/-- Offers bytes until all are accepted or a fault cannot be retried, which
drops the rest. -/
def deliver (accepted : List (List UInt8)) (calls : Nat) :
    List WriteAnswer → List UInt8 → Option DeviceFault × DescriptorOutput
  | answers, [] => (none, ⟨answers, #[], accepted, calls⟩)
  | [], data => (none, ⟨[], #[], data :: accepted, calls + 1⟩)
  | .accept count :: answers, data =>
    deliver (data.take count :: accepted) (calls + 1) answers (data.drop count)
  | .fault fault :: answers, data =>
    if fault.isRetryable then deliver accepted (calls + 1) answers data
    else (some fault, ⟨answers, #[], accepted, calls + 1⟩)

/-- Passes on the bytes taken. -/
def flush (output : DescriptorOutput) : Option DeviceFault × DescriptorOutput :=
  deliver output.accepted output.calls output.answers output.pending.toList

/-- Takes a value modulo 256. A line feed and a full buffer are passed on at
once. -/
def push (output : DescriptorOutput) (value : Int) : Option DeviceFault × DescriptorOutput :=
  let taken := { output with pending := output.pending.push (UInt8.ofInt value) }
  if value = 10 ∨ chunkSize ≤ taken.pending.size then taken.flush else (none, taken)

/-- All bytes accepted so far, in order. -/
def delivered (output : DescriptorOutput) : List UInt8 :=
  output.accepted.reverse.flatten

end DescriptorOutput

instance : OutputSink DescriptorOutput where
  write output byte := output.push byte.toNat
  flush := DescriptorOutput.flush

end TapeMachine
