import TapeMachine.Device.Descriptor
import TapeMachine.Device.Memory

/-!
# Descriptors and memory

As long as a descriptor fails only in ways that are retried, a reader hands out the bytes that
it receives one after the other, as a queue of them does, and a writer passes on all that it
takes.
-/

namespace TapeMachine

/-! ## Reading -/

/-- The bytes that calls with these answers bring, up to the first that brings none. A call
brings no more than `chunkSize` bytes. -/
def ReadAnswer.received : List ReadAnswer → List UInt8
  | [] => []
  | .bytes [] :: _ => []
  | .bytes chunk :: answers => chunk.take chunkSize ++ received answers
  | .fault _ :: answers => received answers

/-- Every fault among the answers is retried. -/
def ReadAnswer.Retried (answers : List ReadAnswer) : Prop :=
  ∀ fault, .fault fault ∈ answers → fault.isRetryable = true

theorem ReadAnswer.Retried.tail {answer : ReadAnswer} {answers : List ReadAnswer}
    (retried : Retried (answer :: answers)) : Retried answers :=
  fun fault among => retried fault (List.mem_cons_of_mem _ among)

namespace DescriptorInput

/-- The bytes that are still to be handed out. -/
def ahead (input : DescriptorInput) : List UInt8 :=
  input.buffer ++ if input.ended then [] else ReadAnswer.received input.answers

/-- A reader and a queue have the same bytes ahead. -/
def Delivers (queue : ByteQueue) (input : DescriptorInput) : Prop :=
  queue = .ofBytes input.ahead ∧ ReadAnswer.Retried input.answers

/-- What reading does: it takes the first byte of those that are ahead. -/
def Takes (bytes : List UInt8) (result : Except DeviceFault (Option Int) × DescriptorInput) :
    Prop :=
  result.1 = .ok (bytes.head?.map fun byte => (byte.toNat : Int)) ∧
    result.2.ahead = bytes.tail ∧ ReadAnswer.Retried result.2.answers

theorem takes_fill (calls : Nat) {answers : List ReadAnswer}
    (retried : ReadAnswer.Retried answers) :
    Takes (ReadAnswer.received answers) (fill calls answers) := by
  induction answers generalizing calls with
  | nil => exact ⟨rfl, rfl, retried⟩
  | cons answer answers ih =>
    cases answer with
    | bytes chunk =>
      cases chunk with
      | nil => exact ⟨rfl, rfl, retried.tail⟩
      | cons byte rest => exact ⟨rfl, rfl, retried.tail⟩
    | fault fault =>
      rw [fill, if_pos (retried fault List.mem_cons_self)]
      exact ih (calls + 1) retried.tail

theorem takes_read {input : DescriptorInput} (retried : ReadAnswer.Retried input.answers) :
    Takes input.ahead input.read := by
  obtain ⟨answers, buffer, ended, calls⟩ := input
  cases buffer with
  | cons byte rest => exact ⟨rfl, rfl, retried⟩
  | nil =>
    cases ended with
    | true => exact ⟨rfl, rfl, retried⟩
    | false => exact takes_fill calls retried

end DescriptorInput

/-- A queue of bytes is read byte by byte. -/
theorem ByteQueue.read_ofBytes (bytes : List UInt8) :
    (ofBytes bytes).read =
      (bytes.head?.map fun byte => (byte.toNat : Int), ofBytes bytes.tail) := by
  cases bytes <;> rfl

/-- A reader delivers what a queue of the same bytes does. -/
theorem DescriptorInput.Delivers.read {queue : ByteQueue} {input : DescriptorInput}
    (delivers : Delivers queue input) :
    (InputSource.read input).1 = (InputSource.read queue).1 ∧
      Delivers (InputSource.read queue).2 (InputSource.read input).2 := by
  obtain ⟨rfl, retried⟩ := delivers
  obtain ⟨value, ahead, retried'⟩ := takes_read retried
  have queued : InputSource.read (ByteQueue.ofBytes input.ahead) =
      (.ok (ByteQueue.ofBytes input.ahead).read.1, (ByteQueue.ofBytes input.ahead).read.2) := rfl
  rw [queued, ByteQueue.read_ofBytes]
  exact ⟨value, congrArg ByteQueue.ofBytes ahead.symm, retried'⟩

/-! ## Writing -/

/-- A byte is the byte of its value. -/
theorem byteOfInt_toNat (byte : UInt8) : UInt8.ofInt (byte.toNat : Int) = byte := by
  have small : ((byte.toNat : Int) % 2 ^ 8).toNat = byte.toNat := by
    have := byte.toNat_lt
    omega
  rw [UInt8.ofInt, small, UInt8.ofNat_toNat]

/-- Every fault among the answers is retried. -/
def WriteAnswer.Retried (answers : List WriteAnswer) : Prop :=
  ∀ fault, .fault fault ∈ answers → fault.isRetryable = true

theorem WriteAnswer.Retried.tail {answer : WriteAnswer} {answers : List WriteAnswer}
    (retried : Retried (answer :: answers)) : Retried answers :=
  fun fault among => retried fault (List.mem_cons_of_mem _ among)

namespace DescriptorOutput

/-- The bytes taken so far, passed on or not. -/
def taken (output : DescriptorOutput) : List UInt8 :=
  output.delivered ++ output.pending.toList

/-- A writer passes bytes on without a fault, and none is left. -/
def Passes (bytes : List UInt8) (result : Option DeviceFault × DescriptorOutput) : Prop :=
  result.1 = none ∧ result.2.delivered = bytes ∧ result.2.pending = #[] ∧
    WriteAnswer.Retried result.2.answers

theorem passes_deliver {accepted : List (List UInt8)} {calls : Nat} {answers : List WriteAnswer}
    {data : List UInt8} (retried : WriteAnswer.Retried answers) :
    Passes (accepted.reverse.flatten ++ data) (deliver accepted calls answers data) := by
  fun_induction deliver accepted calls answers data with
  | case1 accepted calls answers => exact ⟨rfl, (List.append_nil _).symm, rfl, retried⟩
  | case2 accepted calls data some =>
    refine ⟨rfl, ?_, rfl, retried⟩
    simp [delivered]
  | case3 accepted calls count answers data some ih =>
    have split : (data.take count :: accepted).reverse.flatten ++ data.drop count =
        accepted.reverse.flatten ++ data := by
      simp
    rw [← split]
    exact ih retried.tail
  | case4 accepted calls fault answers data some retry ih => exact ih retried.tail
  | case5 accepted calls fault answers data some fatal =>
    exact absurd (retried fault List.mem_cons_self) fatal

theorem passes_flush {output : DescriptorOutput} (retried : WriteAnswer.Retried output.answers) :
    Passes output.taken output.flush :=
  passes_deliver retried

/-- The writer with one more byte to pass on. -/
def hold (output : DescriptorOutput) (byte : UInt8) : DescriptorOutput :=
  { output with pending := output.pending.push byte }

theorem taken_hold (output : DescriptorOutput) (byte : UInt8) :
    (output.hold byte).taken = output.taken ++ [byte] := by
  unfold taken hold delivered
  rw [Array.toList_push, List.append_assoc]

/-- A line feed or a full buffer is passed on at once. -/
theorem push_eq (output : DescriptorOutput) (value : Int) :
    output.push value =
      if value = 10 ∨ chunkSize ≤ (output.hold (UInt8.ofInt value)).pending.size then
        (output.hold (UInt8.ofInt value)).flush
      else (none, output.hold (UInt8.ofInt value)) := rfl

/-- A byte that is taken is put behind the others. -/
theorem taken_push {output : DescriptorOutput} (retried : WriteAnswer.Retried output.answers)
    (value : Int) :
    (output.push value).1 = none ∧
      (output.push value).2.taken = output.taken ++ [UInt8.ofInt value] ∧
      WriteAnswer.Retried (output.push value).2.answers := by
  have retriedHold : WriteAnswer.Retried (output.hold (UInt8.ofInt value)).answers := retried
  rw [← taken_hold, push_eq]
  split
  · obtain ⟨none, delivered, pending, retried'⟩ := passes_flush retriedHold
    refine ⟨none, ?_, retried'⟩
    rw [← delivered, taken, pending]
    exact List.append_nil _
  · exact ⟨rfl, rfl, retried⟩

/-- A writer and a record have taken the same bytes. -/
def Records (collected : Collected) (output : DescriptorOutput) : Prop :=
  output.taken = collected.bytes.toList ∧ WriteAnswer.Retried output.answers

theorem Records.write {collected : Collected} {output : DescriptorOutput}
    (records : Records collected output) (byte : UInt8) :
    (OutputSink.write output byte).1 = (OutputSink.write collected byte).1 ∧
      Records (OutputSink.write collected byte).2 (OutputSink.write output byte).2 := by
  obtain ⟨same, retried⟩ := records
  obtain ⟨none, taken, retried'⟩ := taken_push retried byte.toNat
  refine ⟨none, ?_, retried'⟩
  show (output.push byte.toNat).2.taken = (collected.bytes.push byte).toList
  rw [taken, same, Array.toList_push, byteOfInt_toNat]

/-- When a writer is flushed, all that was recorded has been passed on. -/
theorem Records.flush {collected : Collected} {output : DescriptorOutput}
    (records : Records collected output) :
    Passes collected.bytes.toList (OutputSink.flush output) := by
  rw [← records.1]
  exact passes_flush records.2

end DescriptorOutput

end TapeMachine
