import TapeMachine.Proofs.Execution.Matching
import TapeMachine.Proofs.Execution.Steps
import TapeMachine.Proofs.Execution.Termination
import TapeMachine.Proofs.Machine.Addressing
import TapeMachine.Proofs.Strip.Basic

/-!
# Strips and rigs

A machine that keeps `count` binary digits does on its first `2 ^ count` cells
what a strip does, as far as its tape can grow. So every program runs on a rig as
it does on a strip, up to the first address beyond the strip
(`Strip.refines_self`).
-/

namespace TapeMachine

/-- A machine with devices in memory and a step limit. -/
abbrev Bench := Rig ByteQueue Collected StepLimit

namespace Bench

/-- The bytes written so far. -/
def written (bench : Bench) : List UInt8 :=
  bench.output.bytes.toList

theorem write_eq (bench : Bench) (offset : Int) :
    bench.write offset =
      bench.access offset fun cell =>
        .went { bench with
          output := { bench.output with
            bytes := bench.output.bytes.push (bench.machine.tape.get cell) } } := by
  rfl

theorem receive_eq (bench : Bench) (offset : Int) :
    bench.receive offset =
      bench.access offset fun cell =>
        Rig.store { bench with input := bench.input.read.2 } cell
          (UInt8.ofInt (bench.input.read.1.getD 0)) := by
  rfl

/-- Storing a byte takes nothing back, whether it succeeds or not. -/
theorem written_of_store (bench : Bench) (cell : Nat) (value : UInt8) :
    bench.written <+: Bench.written (bench.store cell value).fate.state := by
  rw [Rig.store_eq]
  split
  · exact List.prefix_rfl
  · exact List.prefix_rfl

theorem written_of_access {bench : Bench} (offset : Int)
    {use : Nat → Outcome ByteQueue Collected StepLimit}
    (grows : ∀ cell, bench.written <+: Bench.written (use cell).fate.state) :
    bench.written <+: Bench.written (bench.access offset use).fate.state := by
  rw [Rig.access]
  cases bench.machine.address offset with
  | error cell => exact List.prefix_rfl
  | ok cell => exact grows cell

/-- An action adds to the output, at most. -/
theorem written_of_act (node : Node) (bench : Bench) :
    bench.written <+: Bench.written (bench.act node).fate.state := by
  cases node with
  | addAt offset | setAt offset =>
    rw [Rig.act, Rig.update_eq]
    exact written_of_access offset fun _ => written_of_store bench _ _
  | inputAt offset =>
    rw [Rig.act, receive_eq]
    exact written_of_access offset fun _ =>
      written_of_store { bench with input := bench.input.read.2 } _ _
  | move offset => exact written_of_access offset fun _ => List.prefix_rfl
  | mulAt offset into factor =>
    rw [Rig.act, Rig.multiply_eq]
    refine written_of_access offset fun source => ?_
    split
    · exact List.prefix_rfl
    · exact written_of_access _ fun _ => written_of_store bench _ _
  | outputAt offset =>
    rw [Rig.act, write_eq]
    refine written_of_access offset fun cell => ?_
    simp [written, Outcome.fate, Fate.state]
  | loop | scanLoop => exact List.prefix_rfl

/-- A poll writes nothing. -/
theorem written_of_poll (bench : Bench) : Bench.written bench.poll.fate.state = bench.written := by
  rw [Rig.poll_stepLimit]
  split <;> rfl

end Bench

/-! ## The correspondence -/

/-- The run ended at an address beyond the strip. -/
def Ending.Escapes (last : Nat) : Ending → Prop
  | .underflow cell => (last : Int) < cell
  | _ => False

/-- Endings of the same kind, and at the same pointer if a poll ended the run. -/
inductive Ending.Like : Ending → Ending → Prop
  | underflow (cell other : Int) : Like (.underflow cell) (.underflow other)
  | aborted (pointer : Int) : Like (.aborted pointer) (.aborted pointer)

namespace Strip

variable {last : Nat} {allowed : Option Nat} {count : Nat}

/-- A rig with the cells, pointer, input, output and polls of a strip. -/
structure Shows (count : Nat) (allowed : Option Nat) (s : Strip last) (bench : Bench) : Prop where
  cells : ∀ index, bench.machine.tape.get index = s.cells index
  pointer : bench.machine.pointer = s.pointer
  precision : bench.machine.precision = .digits count
  input : bench.input = s.input
  output : bench.output = s.output
  hook : bench.hook = ⟨allowed, s.polls⟩

/-- What a rig may do once the strip's run has ended. If that was at an address beyond
the strip, the rig has written at least as much; otherwise the rig's run has ended
in the same way and has written the same. -/
def Covers (ending : Ending) (s : Strip last) (fate : Fate Bench) : Prop :=
  (ending.Escapes last ∧ s.written <+: Bench.written fate.state) ∨
    ∃ other bench, fate = .ended other bench ∧ ending.Like other ∧ Bench.written bench = s.written

theorem Covers.written {ending : Ending} {s : Strip last} {fate : Fate Bench}
    (covers : Covers ending s fate) : s.written <+: Bench.written fate.state := by
  rcases covers with ⟨_, front⟩ | ⟨other, bench, rfl, _, same⟩
  · exact front
  · rw [← same]
    exact List.prefix_rfl

/-- What is in order stays so while nothing is taken back from the output. -/
private theorem covers_of_went {ending : Ending} {s : Strip last} {bench : Bench}
    {fate : Fate Bench} (covers : Covers ending s (.went bench))
    (grows : bench.written <+: Bench.written fate.state) : Covers ending s fate := by
  rcases covers with ⟨escapes, front⟩ | ⟨other, ended, same, _⟩
  · exact .inl ⟨escapes, front.trans grows⟩
  · cases same

namespace Shows

variable {s : Strip last} {bench : Bench}

theorem written (shown : Shows count allowed s bench) : bench.written = s.written := by
  rw [Bench.written, shown.output, Strip.written]

theorem current (shown : Shows count allowed s bench) :
    bench.machine.current = s.cells s.pointer := by
  rw [Machine.current, shown.pointer]
  exact shown.cells s.pointer

/-- A poll shows a poll. -/
theorem poll (shown : Shows count allowed s bench) :
    (∃ t next, Strip.poll allowed s = .went t ∧ bench.poll = .went next ∧
      Shows count allowed t next) ∨
    ∃ t next, Strip.poll allowed s = .ended (.aborted s.pointer) t ∧
      bench.poll = .ended (.aborted s.pointer) next ∧ Shows count allowed t next := by
  have polled : Shows count allowed { s with polls := s.polls + 1 }
      { bench with hook := { bench.hook with taken := bench.hook.taken + 1 } } :=
    { shown with hook := by rw [shown.hook] }
  rw [Strip.poll, Rig.poll_stepLimit, shown.pointer]
  rw [shown.hook] at polled ⊢
  by_cases fires : allowed.any (fun allowed => decide (allowed < s.polls + 1)) = true
  · rw [if_pos fires, if_pos fires]
    exact .inr ⟨_, _, rfl, rfl, polled⟩
  · rw [if_neg fires, if_neg fires]
    exact .inl ⟨_, _, rfl, rfl, polled⟩

theorem put (shown : Shows count allowed s bench) {value value' : UInt8} (same : value' = value)
    (cell : Nat) : Shows count allowed (s.put cell value) (bench.put cell value') :=
  { shown with
    cells := by
      intro index
      show (bench.machine.tape.set cell value').get index = Function.update s.cells cell value index
      rw [Tape.get_set, Function.update_apply, shown.cells, same] }

end Shows

/-- Strips and rigs that show them, and what rigs may do once the strip's run has
ended. -/
def correspondence (last count : Nat) (allowed : Option Nat) :
    Matching (interpretation last allowed) (Rig.interpretation : Interpretation Bench) where
  near := Shows count allowed
  covers := Covers
  zero_iff := by
    intro s bench shown
    rw [interpretation_zero, Rig.interpretation_zero, shown.current]
  poll_went := by
    intro s bench t shown polled
    rw [interpretation_poll] at polled
    rcases shown.poll with ⟨t', next, polled', went, kept⟩ | ⟨t', next, polled', _⟩
    · rw [polled] at polled'
      cases polled'
      exact ⟨next, by simpa using went, kept⟩
    · rw [polled] at polled'
      cases polled'
  poll_ended := by
    intro s bench t ending shown polled
    rw [interpretation_poll] at polled
    rcases shown.poll with ⟨t', next, polled', _⟩ | ⟨t', next, polled', ended, kept⟩
    · rw [polled] at polled'
      cases polled'
    · rw [polled] at polled'
      cases polled'
      rw [Rig.interpretation_poll, ended]
      exact .inr ⟨_, next, rfl, .aborted _, kept.written⟩
  poll_stable := by
    intro ending s bench covers
    refine covers_of_went covers ⟨[], ?_⟩
    rw [List.append_nil, Rig.interpretation_poll, Bench.written_of_poll]
  act_stable := fun node covers => covers_of_went covers (Bench.written_of_act node _)

section Actions

variable {s : Strip last} {bench : Bench}

/-- An offset of the rig leads where an offset of the strip does, unless that is
beyond the strip. -/
structure Leads (s : Strip last) (offset : Int) (bench : Bench) (offset' : Int) : Prop where
  found : s.Holds offset → bench.machine.address offset' = .ok (s.cell offset)
  lost : (s.pointer : Int) + offset < 0 → ∃ cell, bench.machine.address offset' = .error cell

/-- Uses of a cell match if they do so wherever the offset leads to a cell of the
strip. -/
private theorem matched_access (shown : Shows count allowed s bench) {offset offset' : Int}
    {use : s.Holds offset → Fate (Strip last)}
    {use' : Nat → Outcome ByteQueue Collected StepLimit} (leads : Leads s offset bench offset')
    (grows : ∀ cell, bench.written <+: Bench.written (use' cell).fate.state)
    (next : ∀ holds, (correspondence last count allowed).Matched (use holds)
      (use' (s.cell offset)).fate) :
    (correspondence last count allowed).Matched (s.access offset use)
      (bench.access offset' use').fate := by
  by_cases holds : s.Holds offset
  · rw [access_of_holds holds, Rig.access, leads.found holds]
    exact next holds
  -- To the left of the strip both runs end, beyond it the rig's may go on.
  rw [access_of_not_holds holds]
  by_cases negative : (s.pointer : Int) + offset < 0
  · obtain ⟨cell, lost⟩ := leads.lost negative
    rw [Rig.access, lost]
    exact .inr ⟨_, bench, rfl, .underflow _ _, shown.written⟩
  · refine .inl ⟨?_, ?_⟩
    · rw [Holds] at holds
      show (last : Int) < s.pointer + offset
      omega
    · rw [← shown.written]
      exact Bench.written_of_access offset' grows

variable (positive : 0 < count) (fits : last < 2 ^ count)

section

include positive fits

theorem Shows.leads (shown : Shows count allowed s bench) (offset : Int) :
    Leads s offset bench offset where
  found := by
    rintro ⟨low, high⟩
    rw [← shown.pointer] at low high
    rw [Machine.address_of_lt shown.precision low (by omega), shown.pointer]
    rfl
  lost := by
    intro negative
    rw [← shown.pointer] at negative
    exact Machine.address_of_neg shown.precision positive negative

/-- A rounded offset still leads where the offset does. -/
theorem Shows.leads_round (shown : Shows count allowed s bench) (offset : Int) :
    Leads s offset bench (bench.machine.precision.round offset) := by
  have within := s.within
  have pointer : 0 ≤ bench.machine.pointer ∧ bench.machine.pointer < (2 ^ count : Nat) := by
    rw [shown.pointer]
    omega
  constructor
  · rintro ⟨low, high⟩
    rw [← shown.pointer] at low high
    rw [Machine.address_round_of_lt shown.precision pointer low (by omega), shown.pointer]
    rfl
  · intro negative
    rw [← shown.pointer] at negative
    exact Machine.address_round_of_neg shown.precision positive pointer negative

end

variable (room : last < Tape.limit)

include room in
/-- A byte finds its place on the strip. -/
theorem store_of_holds {offset : Int} (holds : s.Holds offset) (bench : Bench) (value : UInt8) :
    bench.store (s.cell offset) value = .went (bench.put (s.cell offset) value) :=
  Rig.store_of_lt (Nat.lt_of_le_of_lt (Int.toNat_le.2 holds.2) room) bench value

include positive fits room

/-- A node does to a rig what it does to the strip that the rig shows. -/
theorem matched_act (shown : Shows count allowed s bench) (node : Node) :
    (correspondence last count allowed).Matched (act node s) (bench.act node).fate := by
  have leads := shown.leads positive fits
  have grows := bench.written_of_store
  cases node with
  | addAt offset delta =>
    rw [act, Rig.act, Rig.update_eq]
    refine matched_access shown (leads offset) (fun _ => grows _ _) fun holds => ?_
    rw [store_of_holds room holds]
    exact ⟨_, rfl, shown.put (by rw [shown.cells]) _⟩
  | setAt offset value =>
    rw [act, Rig.act, Rig.update_eq]
    refine matched_access shown (leads offset) (fun _ => grows _ _) fun holds => ?_
    rw [store_of_holds room holds]
    exact ⟨_, rfl, shown.put rfl _⟩
  | mulAt offset into factor =>
    rw [act, Rig.act, Rig.multiply_eq]
    refine matched_access shown (leads offset) (fun source => ?_) fun holds => ?_
    · split
      · exact List.prefix_rfl
      · exact Bench.written_of_access _ fun _ => grows _ _
    · rw [shown.cells]
      split
      · exact ⟨_, rfl, shown⟩
      · -- The sum of the two offsets is rounded before it is used.
        refine matched_access shown (shown.leads_round positive fits _)
          (fun _ => grows _ _) fun holds => ?_
        rw [store_of_holds room holds]
        exact ⟨_, rfl, shown.put (by rw [shown.cells]) _⟩
  | move delta =>
    rw [act, Rig.act, Rig.move_eq]
    refine matched_access shown (leads delta) (fun _ => List.prefix_rfl) fun holds => ?_
    exact ⟨_, rfl, { shown with pointer := rfl }⟩
  | outputAt offset =>
    rw [act, Rig.act, Bench.write_eq]
    refine matched_access shown (leads offset) (fun cell => ?_) fun holds => ?_
    · simp [Bench.written, Outcome.fate, Fate.state]
    · refine ⟨_, rfl, { shown with output := ?_ }⟩
      rw [shown.output, shown.cells]
      rfl
  | inputAt offset =>
    rw [act, Rig.act, Bench.receive_eq]
    refine matched_access shown (leads offset) (fun _ =>
      Bench.written_of_store { bench with input := bench.input.read.2 } _ _) fun holds => ?_
    rw [store_of_holds room holds]
    refine ⟨_, rfl, { shown.put (show UInt8.ofInt _ = UInt8.ofInt _ from ?_) _ with input := ?_ }⟩
    · rw [shown.input]
    · rw [shown.input]
      rfl
  | loop | scanLoop => exact ⟨bench, rfl, shown⟩

/-- Every program does to a rig what it does to the strip that the rig shows. -/
theorem refines_self (block : Block) :
    (correspondence last count allowed).Refines block block :=
  Matching.refines_same (fun node _ _ shown => matched_act positive fits room shown node) block

end Actions

end Strip

end TapeMachine
