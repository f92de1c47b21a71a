import Mathlib.Logic.Function.Basic
import TapeMachine.Device.Abort
import TapeMachine.Device.Memory
import TapeMachine.Proofs.Execution.Unrounded

/-!
# A strip of tape

A machine with whole numbers of any size on a tape that ends on both sides: a
run ends when it addresses a cell below zero or beyond `last`. Up to there this
is what a machine with numbers of a fixed size does; the end on the right keeps
apart the runs in which such a machine would round. Input, output and polls are
those of the devices in memory.
-/

namespace TapeMachine

/-- A tape of cells up to `last` with a pointer to one of them, the input that is
left, the output so far, and the number of polls so far. -/
@[ext] structure Strip (last : Nat) where
  cells : Nat → UInt8
  pointer : Nat
  within : pointer ≤ last
  input : ByteQueue
  output : Collected
  polls : Nat

namespace Strip

variable {last : Nat}

/-- An offset leads to a cell of the strip. -/
def Holds (s : Strip last) (offset : Int) : Prop :=
  0 ≤ (s.pointer : Int) + offset ∧ (s.pointer : Int) + offset ≤ last

instance (s : Strip last) (offset : Int) : Decidable (s.Holds offset) :=
  inferInstanceAs (Decidable (_ ∧ _))

/-- The cell that an offset leads to. -/
def cell (s : Strip last) (offset : Int) : Nat :=
  ((s.pointer : Int) + offset).toNat

/-- The byte at an offset, and zero if there is no cell. -/
def byte (s : Strip last) (offset : Int) : UInt8 :=
  if s.Holds offset then s.cells (s.cell offset) else 0

/-- The bytes written so far. -/
def written (s : Strip last) : List UInt8 :=
  s.output.bytes.toList

/-- Uses an offset if it leads to a cell of the strip. Otherwise the run ends. -/
def access (s : Strip last) (offset : Int) (use : s.Holds offset → Fate (Strip last)) :
    Fate (Strip last) :=
  if holds : s.Holds offset then use holds
  else .ended (.underflow (s.pointer + offset)) s

/-- Stores a byte. -/
def put (s : Strip last) (cell : Nat) (value : UInt8) : Strip last :=
  { s with cells := Function.update s.cells cell value }

/-- Moves the pointer. -/
def moved (s : Strip last) (delta : Int) (holds : s.Holds delta) : Strip last :=
  { s with pointer := s.cell delta, within := Int.toNat_le.2 holds.2 }

/-- Writes a byte. -/
def emit (s : Strip last) (value : UInt8) : Strip last :=
  { s with output := { s.output with bytes := s.output.bytes.push value } }

/-- Reads the input into a cell; its end reads as zero. -/
def feed (s : Strip last) (cell : Nat) : Strip last :=
  { s.put cell (UInt8.ofInt (s.input.read.1.getD 0)) with input := s.input.read.2 }

/-- What a node that is neither a loop nor a scan does to a strip. -/
def act : Node → Strip last → Fate (Strip last)
  | .addAt offset delta, s =>
    s.access offset fun _ => .went (s.put (s.cell offset) (s.cells (s.cell offset) + delta.toUInt8))
  | .setAt offset value, s => s.access offset fun _ => .went (s.put (s.cell offset) value)
  | .mulAt offset into factor, s =>
    s.access offset fun _ =>
      if s.cells (s.cell offset) = 0 then .went s
      else s.access (offset + into) fun _ =>
        .went (s.put (s.cell (offset + into))
          (s.cells (s.cell (offset + into)) + s.cells (s.cell offset) * factor.toUInt8))
  | .move delta, s => s.access delta fun holds => .went (s.moved delta holds)
  | .outputAt offset, s => s.access offset fun _ => .went (s.emit (s.cells (s.cell offset)))
  | .inputAt offset, s => s.access offset fun _ => .went (s.feed (s.cell offset))
  | .loop _, s | .scanLoop _, s => .went s

/-- Counts a poll, which ends the run if it is one more than allowed. -/
def poll (allowed : Option Nat) (s : Strip last) : Fate (Strip last) :=
  if allowed.any (fun allowed => decide (allowed < s.polls + 1)) then
    .ended (.aborted s.pointer) { s with polls := s.polls + 1 }
  else .went { s with polls := s.polls + 1 }

/-- Programs run on strips, with so many polls allowed. -/
def interpretation (last : Nat) (allowed : Option Nat) : Interpretation (Strip last) where
  zero s := s.cells s.pointer = 0
  poll := poll allowed
  act := act

variable {allowed : Option Nat}

@[simp] theorem interpretation_zero (s : Strip last) :
    (interpretation last allowed).zero s ↔ s.cells s.pointer = 0 := Iff.rfl

@[simp] theorem interpretation_poll (s : Strip last) :
    (interpretation last allowed).poll s = poll allowed s := rfl

@[simp] theorem interpretation_act (node : Node) (s : Strip last) :
    (interpretation last allowed).act node s = act node s := rfl

/-! ## Addresses -/

theorem access_of_holds {s : Strip last} {offset : Int}
    {use : s.Holds offset → Fate (Strip last)} (holds : s.Holds offset) :
    s.access offset use = use holds := dif_pos holds

theorem access_of_not_holds {s : Strip last} {offset : Int}
    {use : s.Holds offset → Fate (Strip last)} (off : ¬ s.Holds offset) :
    s.access offset use = .ended (.underflow (s.pointer + offset)) s := dif_neg off

/-- The pointer is on the strip. -/
theorem holds_zero (s : Strip last) : s.Holds 0 := by
  have := s.within
  constructor <;> omega

@[simp] theorem cell_zero (s : Strip last) : s.cell 0 = s.pointer := by
  simp [cell]

theorem coe_cell {s : Strip last} {offset : Int} (holds : s.Holds offset) :
    (s.cell offset : Int) = s.pointer + offset :=
  Int.toNat_of_nonneg holds.1

/-- An action either goes through or fails to address a cell, and then changes
nothing. -/
theorem act_went_or_underflow (node : Node) (s : Strip last) :
    (∃ t, act node s = .went t) ∨
      ∃ offset ∈ node.offsets s.byte, act node s = .ended (.underflow (s.pointer + offset)) s := by
  have direct : ∀ (offset : Int) (use : s.Holds offset → Strip last),
      (∃ t, (s.access offset fun holds => .went (use holds)) = .went t) ∨
        (s.access offset fun holds => .went (use holds)) =
          .ended (.underflow (s.pointer + offset)) s := by
    intro offset use
    by_cases holds : s.Holds offset
    · exact .inl ⟨_, access_of_holds holds⟩
    · exact .inr (access_of_not_holds holds)
  cases node with
  | mulAt offset into factor =>
    by_cases holds : s.Holds offset
    · simp only [act, access_of_holds holds]
      split
      · exact .inl ⟨s, rfl⟩
      · rename_i nonzero
        exact (direct (offset + into) _).imp_right fun ended =>
          ⟨offset + into, by simp [Node.offsets, byte, holds, nonzero], ended⟩
    · exact .inr ⟨offset, by simp [Node.offsets], access_of_not_holds holds⟩
  | addAt offset | setAt offset | outputAt offset | inputAt offset | move offset =>
    exact (direct offset _).imp_right fun ended => ⟨offset, by simp [Node.offsets], ended⟩
  | loop | scanLoop => exact .inl ⟨s, rfl⟩

/-! ## What runs keep -/

/-- An action adds to the output, at most. -/
theorem written_of_act (node : Node) (s : Strip last) :
    s.written <+: (act node s).state.written := by
  rcases act_went_or_underflow node s with ⟨t, acted⟩ | ⟨offset, _, acted⟩
  · rw [acted]
    cases node with
    | outputAt offset =>
      simp only [act, access] at acted
      split at acted
      · cases acted
        simp [written, emit, Fate.state]
      · cases acted
    | _ =>
      simp only [act, access] at acted
      (repeat' split at acted) <;> first | (cases acted; exact List.prefix_rfl) | cases acted
  · rw [acted]
    exact List.prefix_rfl

/-- An action does not poll. -/
theorem polls_of_act (node : Node) (s : Strip last) : (act node s).state.polls = s.polls := by
  rcases act_went_or_underflow node s with ⟨t, acted⟩ | ⟨offset, _, acted⟩
  · rw [acted]
    cases node <;> simp only [act, access] at acted <;>
      (repeat' split at acted) <;> first | (cases acted; rfl) | cases acted
  · rw [acted]
    rfl

/-- Whether a poll ends the run or not, it is counted and that is all. -/
theorem state_of_poll (s : Strip last) :
    (poll allowed s).state = { s with polls := s.polls + 1 } := by
  rw [poll]
  split <;> rfl

theorem written_of_poll (s : Strip last) : (poll allowed s).state.written = s.written := by
  rw [state_of_poll]
  rfl

/-- Runs add to the output, at most. -/
theorem written_of_runs {block : Block} {s : Strip last} {fate : Fate (Strip last)}
    (ran : (interpretation last allowed).runs block s fate) :
    s.written <+: fate.state.written :=
  Interpretation.runs_preserves (R := fun s t => s.written <+: t.written) _
    (fun _ => List.prefix_rfl) (fun _ _ _ => List.IsPrefix.trans)
    (fun s => ⟨[], by rw [List.append_nil, interpretation_poll, written_of_poll]⟩)
    written_of_act ran

/-- Runs add to the number of polls, at most. -/
theorem polls_of_runs {block : Block} {s : Strip last} {fate : Fate (Strip last)}
    (ran : (interpretation last allowed).runs block s fate) : s.polls ≤ fate.state.polls :=
  Interpretation.runs_preserves (R := fun s t => s.polls ≤ t.polls) _
    (fun _ => Nat.le_refl _) (fun _ _ _ => Nat.le_trans)
    (fun s => by rw [interpretation_poll, state_of_poll]; exact Nat.le_succ s.polls)
    (fun node s => Nat.le_of_eq (polls_of_act node s).symm) ran

/-- Without a limit a run ends at an address, if it ends early. -/
theorem ended_of_unlimited {block : Block} {s u : Strip last} {ending : Ending}
    (ran : (interpretation last none).runs block s (.ended ending u)) :
    ∃ cell, ending = .underflow cell := by
  refine Interpretation.runs_ended (P := fun ending => ∃ cell, ending = .underflow cell) _
    (fun s ending t polled => ?_) (fun node s ending t acted => ?_) ran
  · cases polled
  · rw [interpretation_act] at acted
    rcases act_went_or_underflow node s with ⟨_, went⟩ | ⟨offset, _, off⟩
    · rw [went] at acted
      cases acted
    · rw [off] at acted
      cases acted
      exact ⟨_, rfl⟩

/-! ## Other limits -/

/-- The run did not end at a poll. -/
def Unaborted : Fate (Strip last) → Prop
  | .ended (.aborted _) _ => False
  | _ => True

/-- A poll is the same with any other limit that allows it. -/
theorem poll_of_allowed {more : Option Nat} {s : Strip last} (free : Unaborted (poll allowed s))
    (enough : ∀ n, more = some n → (poll allowed s).state.polls ≤ n) :
    poll more s = poll allowed s := by
  have quiet : ¬ more.any (fun n => decide (n < s.polls + 1)) := by
    intro fires
    obtain ⟨n, limit, few⟩ := (Option.any_eq_true _ _).1 fires
    have le := enough n limit
    rw [state_of_poll] at le
    have lt := of_decide_eq_true few
    exact absurd le (Nat.not_le.2 lt)
  rw [poll, if_neg quiet]
  rw [poll] at free ⊢
  split
  · rename_i fires
    rw [if_pos fires] at free
    exact free.elim
  · rfl

/-- A run that does not end at a poll is the same with any other limit that allows
its polls. -/
theorem runs_of_allowed {more : Option Nat} {block : Block} {s : Strip last}
    {fate : Fate (Strip last)} (ran : (interpretation last allowed).runs block s fate)
    (free : Unaborted fate) (enough : ∀ n, more = some n → fate.state.polls ≤ n) :
    (interpretation last more).runs block s fate := by
  have agrees : Interpretation.Agrees (interpretation last allowed) (interpretation last more)
      (fun s t => s.polls ≤ t.polls)
      fun fate => Unaborted fate ∧ ∀ n, more = some n → fate.state.polls ≤ n :=
    { zero := fun _ => Iff.rfl
      act := fun _ _ _ => rfl
      poll := fun s ⟨free, enough⟩ => poll_of_allowed free enough
      back := fun le ⟨_, enough⟩ => ⟨trivial, fun n limit => Nat.le_trans le (enough n limit)⟩
      refl := fun _ => Nat.le_refl _
      trans := fun _ _ _ => Nat.le_trans
      keptPoll := fun s => by rw [interpretation_poll, state_of_poll]; exact Nat.le_succ s.polls
      keptAct := fun node s => Nat.le_of_eq (polls_of_act node s).symm }
  exact agrees.runs ran ⟨free, enough⟩

end Strip

end TapeMachine
