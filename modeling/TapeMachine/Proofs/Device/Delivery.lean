import Mathlib.Data.List.Induction
import TapeMachine.Proofs.Device.Descriptor
import TapeMachine.Proofs.Execution.Emission

/-!
# What a writer has delivered

A writer is given bytes and flushed in any order, and its descriptor answers as it likes: it
takes some of the bytes that it is offered, asks to be called again, or fails. Whatever it
answers, a call of the writer sends the first of the bytes that the writer holds, and keeps or
drops the others (`accounts_perform`). So no byte is sent twice, and none before its turn.
-/

namespace TapeMachine

/-! ## Answers -/

namespace WriteAnswer

/-- What the answers that a call uses say of the fault that it reports: all of them are retried,
up to the last one if that is reported. -/
def Reports (used : List WriteAnswer) : Option DeviceFault → Prop
  | none => Retried used
  | some reported =>
    ∃ earlier, used = earlier ++ [.fault reported] ∧ Retried earlier ∧
      reported.isRetryable = false

theorem Retried.cons_accept {count : Nat} {answers : List WriteAnswer}
    (retried : Retried answers) : Retried (.accept count :: answers) := by
  intro fault among
  cases among with
  | tail _ among => exact retried fault among

theorem Retried.cons_fault {fault : DeviceFault} {answers : List WriteAnswer}
    (retry : fault.isRetryable = true) (retried : Retried answers) :
    Retried (.fault fault :: answers) := by
  intro other among
  cases among with
  | head => exact retry
  | tail _ among => exact retried other among

theorem Reports.cons {answer : WriteAnswer} {used : List WriteAnswer} {fault : Option DeviceFault}
    (retried : ∀ {answers}, Retried answers → Retried (answer :: answers))
    (reports : Reports used fault) : Reports (answer :: used) fault := by
  cases fault with
  | none =>
    show Retried (answer :: used)
    exact retried reports
  | some fault =>
    obtain ⟨earlier, rfl, before, fatal⟩ := reports
    exact ⟨answer :: earlier, rfl, retried before, fatal⟩

/-- A descriptor that always goes on: a call that it accepts takes a byte at least, and it does
not ask for ever to be called again. -/
structure Live (writer : Nat → WriteAnswer) : Prop where
  takes : ∀ call, writer call ≠ .accept 0
  goesOn : ∀ call, ∃ later, call ≤ later ∧
    ∀ fault, writer later = .fault fault → fault.isRetryable = false

/-- The answers to some calls in a row. -/
def segment (writer : Nat → WriteAnswer) (start count : Nat) : List WriteAnswer :=
  (List.range' start count).map writer

theorem segment_succ (writer : Nat → WriteAnswer) (start count : Nat) :
    segment writer start (count + 1) = writer start :: segment writer (start + 1) count := rfl

theorem segment_append (writer : Nat → WriteAnswer) (start count more : Nat) :
    segment writer start count ++ segment writer (start + count) more =
      segment writer start (count + more) := by
  unfold segment
  rw [← List.map_append, List.range'_append_1]

end WriteAnswer

namespace DescriptorOutput

open WriteAnswer

/-! ## One delivery -/

/-- What a delivery does with its bytes: it sends the first of them, and drops the others when
it reports a fault. -/
structure Sends (accepted : List (List UInt8)) (answers : List WriteAnswer) (data : List UInt8)
    (result : Option DeviceFault × DescriptorOutput) : Prop where
  emptied : result.2.pending = #[]
  sent : ∃ sent left, data = sent ++ left ∧
    result.2.delivered = accepted.reverse.flatten ++ sent ∧ (result.1 = none → left = [])
  used : ∃ used, answers = used ++ result.2.answers ∧ Reports used result.1

theorem Sends.cons {accepted : List (List UInt8)} {answer : WriteAnswer}
    {answers : List WriteAnswer} {data : List UInt8}
    {result : Option DeviceFault × DescriptorOutput} {taken : Nat}
    (retried : ∀ {answers}, Retried answers → Retried (answer :: answers))
    (sends : Sends (data.take taken :: accepted) answers (data.drop taken) result) :
    Sends accepted (answer :: answers) data result := by
  obtain ⟨emptied, ⟨sent, left, split, delivered, all⟩, used, answered, reports⟩ := sends
  refine ⟨emptied, ⟨data.take taken ++ sent, left, ?_, ?_, all⟩, answer :: used, ?_,
    reports.cons retried⟩
  · rw [List.append_assoc, ← split, List.take_append_drop]
  · rw [delivered, List.reverse_cons, List.flatten_append, List.append_assoc]
    simp
  · exact congrArg (answer :: ·) answered

theorem sends_deliver (accepted : List (List UInt8)) (calls : Nat) (answers : List WriteAnswer)
    (data : List UInt8) : Sends accepted answers data (deliver accepted calls answers data) := by
  fun_induction deliver accepted calls answers data with
  | case1 accepted calls answers =>
    exact ⟨rfl, ⟨[], [], rfl, (List.append_nil _).symm, fun _ => rfl⟩, [], rfl,
      fun _ among => absurd among List.not_mem_nil⟩
  | case2 accepted calls data some =>
    refine ⟨rfl, ⟨data, [], (List.append_nil _).symm, ?_, fun _ => rfl⟩, [], rfl,
      fun _ among => absurd among List.not_mem_nil⟩
    simp [delivered]
  | case3 accepted calls count answers data some ih => exact ih.cons Retried.cons_accept
  | case4 accepted calls fault answers data some retry ih =>
    obtain ⟨emptied, sent, used, answered, reports⟩ := ih
    refine ⟨emptied, sent, .fault fault :: used, ?_, reports.cons (Retried.cons_fault retry)⟩
    exact congrArg (WriteAnswer.fault fault :: ·) answered
  | case5 accepted calls fault answers data some fatal =>
    refine ⟨rfl, ⟨[], data, rfl, (List.append_nil _).symm, ?_⟩, [.fault fault], rfl, [], rfl,
      fun _ among => absurd among List.not_mem_nil, Bool.eq_false_iff.2 fatal⟩
    exact fun none => absurd none (Option.some_ne_none fault)

/-! ## One call -/

/-- What a call that brings some bytes does with all that the writer then holds: it sends the
first of them, and keeps the others. When it reports a fault it drops them. -/
structure Accounts (before : DescriptorOutput) (bytes : List UInt8)
    (result : Option DeviceFault × DescriptorOutput) : Prop where
  moved : ∃ sent left, before.pending.toList ++ bytes = sent ++ left ∧
    result.2.delivered = before.delivered ++ sent ∧
    result.2.pending.toList = if result.1 = none then left else []
  used : ∃ used, before.answers = used ++ result.2.answers ∧ Reports used result.1

theorem accounts_flush (output : DescriptorOutput) : Accounts output [] output.flush := by
  obtain ⟨emptied, ⟨sent, left, split, delivered, all⟩, used⟩ :=
    sends_deliver output.accepted output.calls output.answers output.pending.toList
  refine ⟨⟨sent, left, (List.append_nil _).trans split, delivered, ?_⟩, used⟩
  show output.flush.2.pending.toList = _
  rw [show output.flush.2.pending = #[] from emptied]
  split
  · next whole => exact (all whole).symm
  · rfl

/-- A byte that is put behind the others is brought by the call. -/
theorem Accounts.of_hold {output : DescriptorOutput} {byte : UInt8}
    {result : Option DeviceFault × DescriptorOutput}
    (accounts : Accounts (output.hold byte) [] result) : Accounts output [byte] result := by
  obtain ⟨⟨sent, left, split, moved⟩, used⟩ := accounts
  refine ⟨⟨sent, left, ?_, moved⟩, used⟩
  rw [← split, List.append_nil, hold, Array.toList_push]

/-- A line feed or a byte that fills the buffer is passed on at once. -/
theorem perform_write (output : DescriptorOutput) (byte : UInt8) :
    (SinkCall.write byte).perform output =
      if byte = 10 ∨ chunkSize ≤ output.pending.size + 1 then (output.hold byte).flush
      else (none, output.hold byte) := by
  have newline : ((byte.toNat : Int) = 10) = (byte = 10) := by
    rw [← UInt8.toNat_inj]
    exact propext Int.ofNat_inj
  show output.push byte.toNat = _
  rw [push_eq, byteOfInt_toNat]
  simp only [newline, hold, Array.size_push]

theorem accounts_perform (output : DescriptorOutput) (call : SinkCall) :
    Accounts output call.bytes (call.perform output) := by
  cases call with
  | flush => exact accounts_flush output
  | write byte =>
    apply Accounts.of_hold
    rw [perform_write]
    split
    · exact accounts_flush (output.hold byte)
    · refine ⟨⟨[], (output.hold byte).pending.toList, List.append_nil _, ?_, rfl⟩, [], rfl, ?_⟩
      · exact (List.append_nil _).symm
      · exact fun _ among => absurd among List.not_mem_nil

/-- A writer holds no line feed, and fewer bytes than one call moves. -/
def Held (output : DescriptorOutput) : Prop :=
  10 ∉ output.pending.toList ∧ output.pending.size < chunkSize

/-- A flush leaves nothing pending. -/
theorem pending_flush (output : DescriptorOutput) : output.flush.2.pending = #[] :=
  (sends_deliver output.accepted output.calls output.answers output.pending.toList).emptied

theorem held_of_empty {output : DescriptorOutput} (empty : output.pending = #[]) :
    Held output := by
  unfold Held
  rw [empty]
  exact ⟨List.not_mem_nil, by decide⟩

theorem held_flush (output : DescriptorOutput) : Held output.flush.2 :=
  held_of_empty output.pending_flush

theorem Held.perform {output : DescriptorOutput} (held : Held output) (call : SinkCall) :
    Held (call.perform output).2 := by
  cases call with
  | flush => exact held_flush output
  | write byte =>
    rw [perform_write]
    split
    · exact held_flush (output.hold byte)
    · next stays =>
      obtain ⟨other, room⟩ := not_or.1 stays
      unfold Held hold
      rw [Array.toList_push, List.mem_append, List.mem_singleton, Array.size_push]
      refine ⟨?_, Nat.lt_of_not_le room⟩
      rintro (early | rfl)
      · exact held.1 early
      · exact other rfl

/-- While all faults are retried, a call reports none and loses nothing. -/
theorem taken_perform {output : DescriptorOutput} (retried : Retried output.answers)
    (call : SinkCall) :
    (call.perform output).1 = none ∧
      (call.perform output).2.taken = output.taken ++ call.bytes ∧
      Retried (call.perform output).2.answers := by
  cases call with
  | flush =>
    obtain ⟨none, delivered, pending, retried'⟩ := passes_flush retried
    refine ⟨none, ?_, retried'⟩
    show output.flush.2.taken = output.taken ++ []
    rw [taken, delivered, pending]
  | write byte =>
    obtain ⟨none, taken, retried'⟩ := taken_push retried byte.toNat
    rw [byteOfInt_toNat] at taken
    exact ⟨none, taken, retried'⟩

/-! ## Calls that return -/

/-- A delivery returns after a number of calls, and the answers to later calls do not matter. -/
def Settles (writer : Nat → WriteAnswer) (start : Nat) (accepted : List (List UInt8))
    (calls : Nat) (data : List UInt8) : Prop :=
  ∃ (count : Nat) (fault : Option DeviceFault) (last : DescriptorOutput), ∀ later,
    deliver accepted calls (segment writer start count ++ later) data =
      (fault, { last with answers := later })

section Settles

variable {writer : Nat → WriteAnswer} {start calls : Nat} {accepted : List (List UInt8)}
  {data : List UInt8}

theorem settles_nil : Settles writer start accepted calls [] := by
  refine ⟨0, none, ⟨[], #[], accepted, calls⟩, ?_⟩
  intro later
  rw [deliver]
  rfl

theorem settles_accept {count : Nat} (some : data ≠ []) (accepts : writer start = .accept count)
    (settles : Settles writer (start + 1) (data.take count :: accepted) (calls + 1)
      (data.drop count)) :
    Settles writer start accepted calls data := by
  obtain ⟨more, fault, last, returns⟩ := settles
  refine ⟨more + 1, fault, last, ?_⟩
  intro later
  rw [segment_succ, accepts, List.cons_append, deliver, returns]
  exact some

theorem settles_retry {fault : DeviceFault} (some : data ≠ [])
    (faults : writer start = .fault fault) (retry : fault.isRetryable = true)
    (settles : Settles writer (start + 1) accepted (calls + 1) data) :
    Settles writer start accepted calls data := by
  obtain ⟨more, reported, last, returns⟩ := settles
  refine ⟨more + 1, reported, last, ?_⟩
  intro later
  rw [segment_succ, faults, List.cons_append, deliver, if_pos retry, returns]
  exact some

theorem settles_fatal {fault : DeviceFault} (some : data ≠ [])
    (faults : writer start = .fault fault) (fatal : fault.isRetryable = false) :
    Settles writer start accepted calls data := by
  refine ⟨1, fault, ⟨[], #[], accepted, calls + 1⟩, ?_⟩
  intro later
  rw [segment_succ, faults, List.cons_append, deliver, if_neg (Bool.eq_false_iff.1 fatal)]
  · rfl
  · exact some

end Settles

/-- A delivery to a descriptor that always goes on returns: by induction on the bytes that are
left, and for the same bytes on the calls up to the next that is not retried. -/
theorem settles_deliver {writer : Nat → WriteAnswer} (live : Live writer) (data : List UInt8)
    (start calls : Nat) (accepted : List (List UInt8)) :
    Settles writer start accepted calls data := by
  by_cases some : data = []
  · rw [some]
    exact settles_nil
  -- Whenever bytes are accepted fewer are left, however long that was waited for.
  have accepts : ∀ start calls count, writer start = .accept count →
      Settles writer start accepted calls data := by
    intro start calls count answer
    have progress : count ≠ 0 := fun none => live.takes start (none ▸ answer)
    have shorter : (data.drop count).length < data.length := by
      have := List.length_pos_iff.2 some
      rw [List.length_drop]
      omega
    exact settles_accept some answer (settles_deliver live (data.drop count) _ _ _)
  obtain ⟨target, ahead, productive⟩ := live.goesOn start
  obtain ⟨gap, rfl⟩ := Nat.exists_eq_add_of_le ahead
  clear ahead
  induction gap generalizing start calls with
  | zero =>
    cases answer : writer start with
    | accept count => exact accepts start calls count answer
    | fault fault => exact settles_fatal some answer (productive fault answer)
  | succ gap ih =>
    cases answer : writer start with
    | accept count => exact accepts start calls count answer
    | fault fault =>
      cases retry : fault.isRetryable with
      | false => exact settles_fatal some answer retry
      | true =>
        refine settles_retry some answer retry (ih (start + 1) (calls + 1) ?_)
        rwa [Nat.add_right_comm]
termination_by data.length

/-- So does every call of a writer whose descriptor always goes on. -/
theorem returns_perform {writer : Nat → WriteAnswer} (live : Live writer)
    (output : DescriptorOutput) (start : Nat) (call : SinkCall) :
    ∃ (count : Nat) (fault : Option DeviceFault) (last : DescriptorOutput), ∀ later,
      call.perform { output with answers := segment writer start count ++ later } =
        (fault, { last with answers := later }) := by
  cases call with
  | flush => exact settles_deliver live output.pending.toList start output.calls output.accepted
  | write byte =>
    by_cases passed : byte = 10 ∨ chunkSize ≤ output.pending.size + 1
    · simp only [perform_write, if_pos passed]
      exact settles_deliver live (output.hold byte).pending.toList start output.calls
        output.accepted
    · simp only [perform_write, if_neg passed]
      exact ⟨0, none, output.hold byte, fun later => rfl⟩

/-! ## Calls in a row -/

/-- A new writer after some calls. -/
def ofCalls (answers : List WriteAnswer) (calls : List SinkCall) : DescriptorOutput :=
  OutputSink.afterCalls { answers } calls

theorem ofCalls_concat (answers : List WriteAnswer) (calls : List SinkCall) (call : SinkCall) :
    ofCalls answers (calls ++ [call]) = (call.perform (ofCalls answers calls)).2 :=
  OutputSink.afterCalls_append _ calls [call]

theorem held_ofCalls (answers : List WriteAnswer) (calls : List SinkCall) :
    Held (ofCalls answers calls) := by
  induction calls using List.reverseRecOn with
  | nil => exact held_of_empty rfl
  | append_singleton calls call ih =>
    rw [ofCalls_concat]
    exact ih.perform call

theorem taken_ofCalls {answers : List WriteAnswer} (retried : Retried answers)
    (calls : List SinkCall) :
    (ofCalls answers calls).taken = SinkCall.written calls ∧
      Retried (ofCalls answers calls).answers := by
  induction calls using List.reverseRecOn with
  | nil => exact ⟨rfl, retried⟩
  | append_singleton calls call ih =>
    obtain ⟨-, taken, retried'⟩ := taken_perform ih.2 call
    rw [ofCalls_concat, SinkCall.written_append, SinkCall.written_singleton]
    exact ⟨taken.trans (congrArg (· ++ call.bytes) ih.1), retried'⟩

/-- A call sends bytes that the writer held, in their order. -/
theorem Accounts.sublist {before : DescriptorOutput} {bytes : List UInt8}
    {result : Option DeviceFault × DescriptorOutput} (accounts : Accounts before bytes result) :
    result.2.taken.Sublist (before.taken ++ bytes) := by
  obtain ⟨sent, left, split, delivered, pending⟩ := accounts.moved
  unfold taken
  rw [delivered, pending, List.append_assoc, List.append_assoc, split]
  refine (List.Sublist.refl _).append ((List.Sublist.refl _).append ?_)
  split
  · exact .refl left
  · exact List.nil_sublist left

theorem sublist_ofCalls (answers : List WriteAnswer) (calls : List SinkCall) :
    (ofCalls answers calls).taken.Sublist (SinkCall.written calls) := by
  induction calls using List.reverseRecOn with
  | nil => exact .refl []
  | append_singleton calls call ih =>
    rw [ofCalls_concat, SinkCall.written_append, SinkCall.written_singleton]
    exact (accounts_perform _ call).sublist.trans (ih.append (.refl call.bytes))

theorem returns_ofCalls {writer : Nat → WriteAnswer} (live : Live writer)
    (calls : List SinkCall) :
    ∃ (count : Nat) (last : DescriptorOutput), ∀ later,
      ofCalls (segment writer 0 count ++ later) calls = { last with answers := later } := by
  induction calls using List.reverseRecOn with
  | nil => exact ⟨0, { answers := [] }, fun later => rfl⟩
  | append_singleton calls call ih =>
    obtain ⟨count, middle, reaches⟩ := ih
    obtain ⟨more, fault, last, returns⟩ := returns_perform live middle count call
    refine ⟨count + more, last, ?_⟩
    intro later
    have joined := segment_append writer 0 count more
    rw [Nat.zero_add] at joined
    rw [ofCalls_concat, ← joined, List.append_assoc, reaches, returns]

/-- A writer after any calls, whatever its descriptor answers. -/
structure DeliversInOrder (calls : List SinkCall) : Prop where
  /-- A descriptor that always goes on lets every call return. -/
  returns : ∀ writer, Live writer → ∃ (count : Nat) (last : DescriptorOutput), ∀ later,
    ofCalls ((List.range count).map writer ++ later) calls = { last with answers := later }
  /-- While all faults are retried none is reported, and what was accepted and what is pending
  are the bytes written. -/
  whole : ∀ answers, Retried answers →
    (ofCalls answers calls).delivered ++ (ofCalls answers calls).pending.toList =
        SinkCall.written calls ∧
      ∀ call : SinkCall, (call.perform (ofCalls answers calls)).1 = none
  held : ∀ answers, 10 ∉ (ofCalls answers calls).pending.toList ∧
    (ofCalls answers calls).pending.size < 4096
  flushed : ∀ answers, (ofCalls answers (calls ++ [.flush])).pending = #[]
  /-- The next call sends the first of the bytes held and keeps the others, or reports the
  first fault that is not retried and drops them. -/
  accounts : ∀ answers (call : SinkCall),
    Accounts (ofCalls answers calls) call.bytes (call.perform (ofCalls answers calls))
  sublist : ∀ answers,
    ((ofCalls answers calls).delivered ++ (ofCalls answers calls).pending.toList).Sublist
      (SinkCall.written calls)
  /-- A run goes on with such calls: one for each byte that it writes, and a flush. -/
  executed : ∀ {ι η : Type} [InputSource ι] [AbortHook η] (answers : List WriteAnswer)
    (program : Block) (rig after : Rig ι DescriptorOutput η) (fuel : Nat) (ending : Ending),
    rig.output = ofCalls answers calls → execute fuel program rig = some (ending, after) →
    ∃ bytes, WritesByEnd program rig bytes ∧
      after.output = ofCalls answers (calls ++ bytes.map .write ++ [.flush]) ∧
      after.output.pending = #[] ∧
      after.output.delivered.Sublist (SinkCall.written calls ++ bytes)

/-- Every byte is delivered at most once and in its turn, and exactly once as long as the
descriptor fails only in ways that are retried. -/
theorem delivers_in_order (calls : List SinkCall) : DeliversInOrder calls where
  returns writer live := by
    simp only [List.range_eq_range']
    exact returns_ofCalls live calls
  whole answers retried := by
    obtain ⟨taken, retried'⟩ := taken_ofCalls retried calls
    exact ⟨taken, fun call => (taken_perform retried' call).1⟩
  held answers := held_ofCalls answers calls
  flushed answers := by
    rw [ofCalls_concat]
    exact pending_flush (ofCalls answers calls)
  accounts answers call := accounts_perform (ofCalls answers calls) call
  sublist answers := sublist_ofCalls answers calls
  executed answers program rig after fuel ending connected executed := by
    obtain ⟨bytes, writes, flushed⟩ := output_of_execute executed
    have called : after.output = ofCalls answers (calls ++ bytes.map .write ++ [.flush]) := by
      rw [flushed, connected, List.append_assoc]
      exact (OutputSink.afterCalls_append _ calls _).symm
    have pending : after.output.pending = #[] := by
      rw [called, ofCalls_concat]
      exact pending_flush _
    have sublist := sublist_ofCalls answers (calls ++ bytes.map .write ++ [.flush])
    rw [← called, taken, pending] at sublist
    simp only [SinkCall.written_append, SinkCall.written_map_write, SinkCall.written_singleton,
      SinkCall.bytes, List.append_nil] at sublist
    exact ⟨bytes, writes, called, pending, sublist⟩

end DescriptorOutput

end TapeMachine
