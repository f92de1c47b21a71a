import TapeMachine.Proofs.Device.Descriptor
import TapeMachine.Proofs.Execution.Lockstep

/-!
# What a reader hands out

The answers of a descriptor up to its end are what a reader has to hand out: the bytes of the
chunks one by one, and each fault that is not retried in its place. `Owes` says that of a reader
between two reads, and a read takes the first of what is owed (`Owes.read`).
-/

namespace TapeMachine

/-- What a read of a source results in. -/
abbrev Reading := Except DeviceFault (Option Int)

/-- The results of some reads in a row, and the source that they leave. -/
def InputSource.reads {ι : Type} [InputSource ι] : Nat → ι → List Reading × ι
  | 0, source => ([], source)
  | count + 1, source =>
    let (result, next) := read source
    let (results, last) := reads count next
    (result :: results, last)

/-- A byte as the result of a read. -/
def Reading.ofByte (byte : UInt8) : Reading :=
  .ok (some byte.toNat)

namespace ReadAnswer

/-- The input is at its end: the call brings no bytes, or a fault that says so. -/
def IsEnd : ReadAnswer → Prop
  | .bytes received => received = []
  | .fault reported => reported.isEnd = true

/-- The input goes on: the call brings some bytes, as many as it can move at most, or a fault
that is not the end. -/
def Continues : ReadAnswer → Prop
  | .bytes received => received ≠ [] ∧ received.length ≤ chunkSize
  | .fault reported => reported.isEnd = false

instance : DecidablePred IsEnd
  | .bytes received => inferInstanceAs (Decidable (received = []))
  | .fault reported => inferInstanceAs (Decidable (reported.isEnd = true))

instance : DecidablePred Continues
  | .bytes received => inferInstanceAs (Decidable (received ≠ [] ∧ received.length ≤ chunkSize))
  | .fault reported => inferInstanceAs (Decidable (reported.isEnd = false))

/-- What an answer gives to hand out. A fault that is retried is not seen. -/
def readings : ReadAnswer → List Reading
  | .bytes received => received.map .ofByte
  | .fault reported => if reported.isRetryable then [] else [.error reported]

/-- The bytes that an answer brings. -/
def chunk : ReadAnswer → List UInt8
  | .bytes received => received
  | .fault _ => []

/-- Where all faults are retried there are only bytes to hand out. -/
theorem Retried.flatMap_readings {answers : List ReadAnswer} (retried : Retried answers) :
    answers.flatMap readings = (answers.flatMap chunk).map .ofByte := by
  induction answers with
  | nil => rfl
  | cons answer answers ih =>
    rw [List.flatMap_cons, List.flatMap_cons, List.map_append, ih retried.tail]
    congr 1
    cases answer with
    | bytes received => rfl
    | fault reported => exact if_pos (retried reported List.mem_cons_self)

end ReadAnswer

/-- A fault that says that the input is at its end is not retried. -/
theorem DeviceFault.isRetryable_of_isEnd {fault : DeviceFault} (ends : fault.isEnd = true) :
    fault.isRetryable = false := by
  unfold isEnd at ends
  unfold isRetryable
  rw [eq_of_beq ends]
  decide

namespace DescriptorInput

open ReadAnswer

/-- A new reader on a descriptor with these answers. -/
def ofAnswers (answers : List ReadAnswer) : DescriptorInput :=
  { answers }

/-- A reader that has come to the end with this number of calls. -/
def finished (later : List ReadAnswer) (total : Nat) : DescriptorInput :=
  ⟨later, [], true, total⟩

/-- What a reader has to hand out before it is at its end, which comes with the last of this
number of calls. -/
inductive Owes (later : List ReadAnswer) (total : Nat) : List Reading → DescriptorInput → Prop
  | done : Owes later total [] (finished later total)
  | ahead (buffer : List UInt8) {answers : List ReadAnswer} {stop : ReadAnswer} {calls : Nat}
      (continues : ∀ answer ∈ answers, answer.Continues) (ends : stop.IsEnd)
      (counted : calls + answers.length + 1 = total) :
      Owes later total (buffer.map .ofByte ++ answers.flatMap readings)
        ⟨answers ++ stop :: later, buffer, false, calls⟩

/-- What reading does: it takes the first result of those owed, and finds the end when there is
none. -/
structure Pays (later : List ReadAnswer) (total : Nat) (results : List Reading)
    (result : Reading × DescriptorInput) : Prop where
  first : result.1 = results.headD (.ok none)
  others : Owes later total results.tail result.2
  finds : results = [] → result.2 = finished later total

theorem pays_stop {stop : ReadAnswer} (ends : stop.IsEnd) (later : List ReadAnswer)
    (calls : Nat) : Pays later (calls + 1) [] (fill calls (stop :: later)) := by
  have found : fill calls (stop :: later) = (.ok none, finished later (calls + 1)) := by
    cases stop with
    | bytes chunk =>
      cases chunk with
      | nil => rfl
      | cons byte rest => cases ends
    | fault fault =>
      have final : fault.isEnd = true := ends
      rw [fill, DeviceFault.isRetryable_of_isEnd final, if_neg Bool.false_ne_true, if_pos final]
      rfl
  rw [found]
  exact ⟨rfl, .done, fun _ => rfl⟩

/-- Calls are made until there is something to hand out: by induction on the answers, of which
those that are retried are passed over. -/
theorem pays_fill {answers : List ReadAnswer} {stop : ReadAnswer}
    (continues : ∀ answer ∈ answers, answer.Continues) (ends : stop.IsEnd)
    (later : List ReadAnswer) (calls : Nat) :
    Pays later (calls + answers.length + 1) (answers.flatMap readings)
      (fill calls (answers ++ stop :: later)) := by
  induction answers generalizing calls with
  | nil => exact pays_stop ends later calls
  | cons answer answers ih =>
    obtain ⟨first, others⟩ := List.forall_mem_cons.1 continues
    have counted : calls + 1 + answers.length + 1 = calls + (answers.length + 1) + 1 := by omega
    rw [List.flatMap_cons, List.length_cons, ← counted]
    cases answer with
    | bytes chunk =>
      obtain ⟨some, fits⟩ := first
      cases chunk with
      | nil => exact absurd rfl some
      | cons byte rest =>
        -- A chunk that one call can move is not cut.
        have whole : rest.take (chunkSize - 1) = rest := by
          apply List.take_of_length_le
          rw [List.length_cons] at fits
          omega
        rw [List.cons_append, fill, whole]
        exact ⟨rfl, .ahead rest others ends rfl, fun none => absurd none (List.cons_ne_nil _ _)⟩
    | fault fault =>
      rw [List.cons_append, fill, readings]
      split
      · exact ih others (calls + 1)
      · rw [show fault.isEnd = false from first, if_neg Bool.false_ne_true]
        exact ⟨rfl, .ahead [] others ends rfl, fun none => absurd none (List.cons_ne_nil _ _)⟩

/-- A read takes the first of what is owed. -/
theorem Owes.read {later : List ReadAnswer} {total : Nat} {results : List Reading}
    {input : DescriptorInput} (owes : Owes later total results input) :
    Pays later total results input.read := by
  cases owes with
  | done => exact ⟨rfl, .done, fun _ => rfl⟩
  | @ahead buffer answers stop calls continues ends counted =>
    cases buffer with
    | nil =>
      rw [← counted]
      exact pays_fill continues ends later calls
    | cons byte rest => exact ⟨rfl, .ahead rest continues ends counted, nofun⟩

theorem reads_succ (count : Nat) (input : DescriptorInput) :
    InputSource.reads (count + 1) input =
      (input.read.1 :: (InputSource.reads count input.read.2).1,
        (InputSource.reads count input.read.2).2) := rfl

theorem reads_finished (later : List ReadAnswer) (total count : Nat) :
    (InputSource.reads count (finished later total)).2 = finished later total := by
  induction count with
  | zero => rfl
  | succ count ih => exact ih

/-- Reads in a row take what is owed in its order, and then find the end each time. -/
theorem Owes.reads {later : List ReadAnswer} {total : Nat} {results : List Reading}
    {input : DescriptorInput} (owes : Owes later total results input) (count : Nat) :
    (InputSource.reads count input).1 =
        results.take count ++ List.replicate (count - results.length) (.ok none) ∧
      (results.length < count → (InputSource.reads count input).2 = finished later total) := by
  induction count generalizing results input with
  | zero => exact ⟨by rw [Nat.zero_sub]; rfl, nofun⟩
  | succ count ih =>
    obtain ⟨first, others, finds⟩ := owes.read
    obtain ⟨rest, last⟩ := ih others
    rw [reads_succ, first, rest]
    cases results with
    | nil =>
      rw [finds rfl]
      refine ⟨?_, fun _ => reads_finished later total count⟩
      simp [List.replicate_succ]
    | cons result results =>
      rw [List.length_cons, Nat.add_sub_add_right]
      exact ⟨rfl, fun enough => last (Nat.lt_of_succ_lt_succ enough)⟩

/-- A reader owes the bytes that a queue holds. -/
def Holds (later : List ReadAnswer) (total : Nat) (queue : ByteQueue) (input : DescriptorInput) :
    Prop :=
  ∃ bytes, queue = .ofBytes bytes ∧ Owes later total (bytes.map .ofByte) input

theorem holds_read (later : List ReadAnswer) (total : Nat) :
    InputSource.Agree (Holds later total) := by
  rintro queue input ⟨bytes, rfl, owes⟩
  obtain ⟨first, others, -⟩ := owes.read
  have queued : InputSource.read (ByteQueue.ofBytes bytes) =
      (.ok (ByteQueue.ofBytes bytes).read.1, (ByteQueue.ofBytes bytes).read.2) := rfl
  rw [queued, ByteQueue.read_ofBytes]
  refine ⟨?_, bytes.tail, rfl, ?_⟩
  · show input.read.1 = _
    rw [first]
    cases bytes <;> rfl
  · rw [List.map_tail]
    exact others

/-- Two runs have ended in the same way and left everything the same, one on a queue of bytes
and the other on a reader. -/
structure SameRun {ο η : Type} (near : Ending × Rig ByteQueue ο η)
    (far : Ending × Rig DescriptorInput ο η) : Prop where
  ending : far.1 = near.1
  machine : far.2.machine = near.2.machine
  output : far.2.output = near.2.output
  hook : far.2.hook = near.2.hook
  unread : ∀ count,
    (InputSource.reads count far.2.input).1 = (InputSource.reads count near.2.input).1

/-- A reader on a descriptor with these answers up to its end. -/
structure HandsOut (answers : List ReadAnswer) (stop : ReadAnswer) (later : List ReadAnswer) :
    Prop where
  /-- Reads in a row give the bytes of the chunks one by one, and each fault that is not retried
  in its place. Then they find the end each time. -/
  results : ∀ count, (InputSource.reads count (ofAnswers (answers ++ stop :: later))).1 =
    (answers.flatMap ReadAnswer.readings).take count ++
      List.replicate (count - (answers.flatMap ReadAnswer.readings).length) (.ok none)
  /-- Once the end has been found no further call is made. -/
  ended : ∀ count, (answers.flatMap ReadAnswer.readings).length < count →
    (InputSource.reads count (ofAnswers (answers ++ stop :: later))).2 =
      ⟨later, [], true, answers.length + 1⟩
  /-- A program runs as it does on a queue of the bytes, if all faults are retried. -/
  executes : Retried answers →
    ∀ {ο η : Type} [OutputSink ο] [AbortHook η] (program : Block) (machine : Machine)
      (output : ο) (hook : η) (fuel : Nat),
    Option.Rel SameRun
      (execute fuel program
        ⟨machine, ByteQueue.ofBytes (answers.flatMap ReadAnswer.chunk), output, hook⟩)
      (execute fuel program ⟨machine, ofAnswers (answers ++ stop :: later), output, hook⟩)

theorem owes_ofAnswers {answers : List ReadAnswer} {stop : ReadAnswer}
    (continues : ∀ answer ∈ answers, answer.Continues) (ends : stop.IsEnd)
    (later : List ReadAnswer) :
    Owes later (answers.length + 1) (answers.flatMap ReadAnswer.readings)
      (ofAnswers (answers ++ stop :: later)) :=
  .ahead [] continues ends (by omega)

/-- What is left to read is the same for a queue and a reader that owes its bytes. -/
theorem Holds.reads {later : List ReadAnswer} {total : Nat} {queue : ByteQueue}
    {input : DescriptorInput} (holds : Holds later total queue input) (count : Nat) :
    (InputSource.reads count input).1 = (InputSource.reads count queue).1 := by
  induction count generalizing queue input with
  | zero => rfl
  | succ count ih =>
    obtain ⟨same, stay⟩ := holds_read later total holds
    show (InputSource.read input).1 :: (InputSource.reads count (InputSource.read input).2).1 =
      (InputSource.read queue).1 :: (InputSource.reads count (InputSource.read queue).2).1
    rw [same, ih stay]

/-- Every byte that a descriptor brings is handed out once and in its turn. -/
theorem hands_out {answers : List ReadAnswer} {stop : ReadAnswer}
    (continues : ∀ answer ∈ answers, answer.Continues) (ends : stop.IsEnd)
    (later : List ReadAnswer) : HandsOut answers stop later where
  results count := ((owes_ofAnswers continues ends later).reads count).1
  ended count := ((owes_ofAnswers continues ends later).reads count).2
  executes retried := by
    intro ο η _ _ program machine output hook fuel
    have owes := owes_ofAnswers continues ends later
    rw [retried.flatMap_readings] at owes
    have alike : Rig.Alike (Holds later (answers.length + 1)) Eq Eq
        ⟨machine, ByteQueue.ofBytes (answers.flatMap ReadAnswer.chunk), output, hook⟩
        ⟨machine, ofAnswers (answers ++ stop :: later), output, hook⟩ :=
      ⟨rfl, ⟨_, rfl, owes⟩, rfl, rfl⟩
    refine rel_imp ?_ (alike.execute (holds_read later _) OutputSink.agree_eq
      OutputSink.agreeOnFlush_eq AbortHook.agree_eq fuel program)
    rintro near far ⟨ending, alike'⟩
    exact ⟨ending, alike'.machine, alike'.output.symm, alike'.hook.symm, alike'.input.reads⟩

/-- A descriptor that asks to be called again, and one that fails between two chunks. -/
theorem hands_out_chunks :
    HandsOut [.bytes [1, 2], .fault ⟨some "EAGAIN", "again"⟩, .bytes [3]]
        (.fault ⟨some "EOF", "end"⟩) [.bytes [4]] ∧
      HandsOut [.bytes [1, 2], .fault ⟨some "EIO", "failed"⟩, .bytes [3]] (.bytes []) [] :=
  ⟨hands_out (by decide) (by decide) _, hands_out (by decide) (by decide) _⟩

end DescriptorInput

end TapeMachine
