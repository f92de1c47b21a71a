import Mathlib.Logic.Function.Basic
import Mathlib.Order.Bounds.Basic
import TapeMachine.Proofs.Machine.Addressing

/-!
# Tapes without an end

What is done with a tape is answered as by a byte for every number, however the tape grows, as
long as the numbers are within reach (`actsAsMap`). Its size is the first that doubling reaches
with all the cells that were ever written (`isLeast_grownSize`), so reading and clearing leave it
as it is. Only a sum that is too large for its precision is not stored modulo 256: it is rounded
first.
-/

namespace TapeMachine.Tape

/-! ## Actions -/

/-- What can be done with a tape. -/
inductive Action where
  | set (index : Nat) (value : Int)
  | add (index : Nat) (delta : Int)
  | get (index : Nat)
  | slice (start stop : Nat)
  | clear
  deriving DecidableEq, Repr

namespace Action

/-- The tape after an action, with sums at the given precision, and the bytes that the action
reads. None if the action fails or has no end. -/
def perform (precision : Precision) (tape : Tape) : Action → Option (Tape × List UInt8)
  | .set index value => (tape.store index (UInt8.ofInt value)).toOption.map (·, [])
  | .add index delta => (tape.add precision index delta).toOption.map (·, [])
  | .get index => some (tape, [tape.get index])
  | .slice start stop => (tape.slice precision start stop).map (tape, ·)
  | .clear => some (tape.clear, [])

/-- The same action on a byte for every number. -/
def performOn (precision : Precision) (cells : Nat → UInt8) : Action → Nat → UInt8
  | .set index value => Function.update cells index (UInt8.ofInt value)
  | .add index delta =>
    Function.update cells index (UInt8.ofInt (precision.add (cells index).toNat delta))
  | .get _ | .slice _ _ => cells
  | .clear => fun _ => 0

/-- The bytes that an action reads, one after the other. -/
def answerOn (cells : Nat → UInt8) : Action → List UInt8
  | .get index => [cells index]
  | .slice start stop => (List.range' start (stop - start)).map cells
  | .set _ _ | .add _ _ | .clear => []

/-- The cell that an action writes. -/
def written? : Action → Option Nat
  | .set index _ | .add index _ => some index
  | .get _ | .slice _ _ | .clear => none

/-- An action writes a cell that a tape can grow to, and reads cells that can be counted. -/
def InReach : Action → Prop
  | .set index _ | .add index _ => index < limit
  | .slice start stop => stop ≤ 2 ^ 53 ∨ stop ≤ start
  | .get _ | .clear => True

/-- An action does not form a sum that has too many digits to be kept. -/
def IsSmall (cells : Nat → UInt8) : Action → Prop
  | .add index delta => ((cells index).toNat + delta : Int).natAbs < 2 ^ 53
  | .set _ _ | .get _ | .slice _ _ | .clear => True

end Action

open Tape.Action

/-- The tape after actions in a row, and their answers. None if one of them fails or has no
end. -/
def performAll (precision : Precision) : Tape → List Action → Option (Tape × List (List UInt8))
  | tape, [] => some (tape, [])
  | tape, action :: rest => do
    let (next, answer) ← action.perform precision tape
    let (last, answers) ← performAll precision next rest
    return (last, answer :: answers)

/-- The answers to actions in a row on a byte for every number. -/
def answersOn (precision : Precision) : (Nat → UInt8) → List Action → List (List UInt8)
  | _, [] => []
  | cells, action :: rest =>
    action.answerOn cells :: answersOn precision (action.performOn precision cells) rest

/-- No action forms a sum that has too many digits, if sums are exact before it. -/
def Unrounded : (Nat → UInt8) → List Action → Prop
  | _, [] => True
  | cells, action :: rest =>
    action.IsSmall cells ∧ Unrounded (performOn .exact cells action) rest

/-! ## Cells -/

/-- The tape holds these bytes. -/
def Holds (tape : Tape) (cells : Nat → UInt8) : Prop :=
  ∀ index, tape.get index = cells index

theorem Holds.set {tape : Tape} {cells : Nat → UInt8} (holds : tape.Holds cells) (index : Nat)
    (value : UInt8) : (tape.set index value).Holds (Function.update cells index value) := by
  intro other
  rw [get_set, Function.update_apply, holds other]

/-- A tape answers an action within reach like the bytes that it holds. -/
theorem Holds.perform {tape : Tape} {cells : Nat → UInt8} (holds : tape.Holds cells)
    {action : Action} (inReach : action.InReach) :
    ∃ next, action.perform .double tape = some (next, action.answerOn cells) ∧
      next.Holds (action.performOn .double cells) := by
  cases action with
  | set index value =>
    refine ⟨_, ?_, holds.set index _⟩
    rw [Action.perform, store_of_lt inReach]
    rfl
  | add index delta =>
    refine ⟨_, ?_, holds.set index _⟩
    rw [Action.perform, Tape.add, store_of_lt inReach, holds index]
    rfl
  | get index =>
    refine ⟨tape, ?_, holds⟩
    rw [Action.perform, holds index]
    rfl
  | slice start stop =>
    refine ⟨tape, ?_, holds⟩
    rw [Action.perform, tape.slice_of_countable inReach, funext holds]
    rfl
  | clear => exact ⟨tape.clear, rfl, fun index => tape.get_clear index⟩

/-- So it does for actions in a row. -/
theorem Holds.performAll {tape : Tape} {cells : Nat → UInt8} (holds : tape.Holds cells)
    {actions : List Action} (inReach : ∀ action ∈ actions, action.InReach) :
    ∃ last, performAll .double tape actions = some (last, answersOn .double cells actions) ∧
      last.Holds (actions.foldl (performOn .double) cells) := by
  induction actions generalizing tape cells with
  | nil => exact ⟨tape, rfl, holds⟩
  | cons action rest ih =>
    obtain ⟨here, later⟩ := List.forall_mem_cons.1 inReach
    obtain ⟨next, performed, holds'⟩ := holds.perform here
    obtain ⟨last, performed', holds''⟩ := ih holds' later
    refine ⟨last, ?_, holds''⟩
    rw [Tape.performAll, performed]
    simp only [Option.bind_eq_bind, Option.bind_some, performed']
    rfl

/-! ### Exact sums -/

theorem performOn_of_small {cells : Nat → UInt8} {action : Action} (small : action.IsSmall cells) :
    performOn .double cells action = performOn .exact cells action := by
  cases action with
  | add index delta =>
    have kept : Precision.double.add (cells index).toNat delta = (cells index).toNat + delta :=
      Precision.round_of_lt small
    simp only [performOn, kept, Precision.add_exact]
  | _ => rfl

theorem of_unrounded {cells : Nat → UInt8} {actions : List Action}
    (unrounded : Unrounded cells actions) :
    answersOn .double cells actions = answersOn .exact cells actions ∧
      actions.foldl (performOn .double) cells = actions.foldl (performOn .exact) cells := by
  induction actions generalizing cells with
  | nil => exact ⟨rfl, rfl⟩
  | cons action rest ih =>
    obtain ⟨small, later⟩ := unrounded
    obtain ⟨same, same'⟩ := ih later
    rw [answersOn, answersOn, List.foldl_cons, List.foldl_cons, performOn_of_small small, same,
      same']
    exact ⟨rfl, rfl⟩

/-! ## Size -/

/-- The sizes that doubling leads to from a first one and that have room for certain cells. -/
def roomFor (first : Nat) (written : List Nat) : Set Nat :=
  { size | (∃ doublings, size = first * 2 ^ doublings) ∧ ∀ index ∈ written, index < size }

theorem exists_grownSize_eq (size index : Nat) (positive : 0 < size) :
    ∃ doublings, grownSize size index positive = size * 2 ^ doublings := by
  fun_induction grownSize size index positive with
  | case1 size positive within => exact ⟨0, by simp⟩
  | case2 size positive beyond ih =>
    obtain ⟨doublings, same⟩ := ih
    refine ⟨doublings + 1, ?_⟩
    rw [same, Nat.pow_succ, Nat.mul_comm 2 size, Nat.mul_assoc, Nat.mul_comm 2]

/-- No earlier doubling goes past the index. -/
theorem grownSize_le (size index : Nat) (positive : 0 < size) {doublings : Nat}
    (past : index < size * 2 ^ doublings) :
    grownSize size index positive ≤ size * 2 ^ doublings := by
  fun_induction grownSize size index positive generalizing doublings with
  | case1 size positive within => exact Nat.le_mul_of_pos_right _ (Nat.two_pow_pos _)
  | case2 size positive beyond ih =>
    cases doublings with
    | zero =>
      rw [Nat.pow_zero, Nat.mul_one] at past
      exact absurd past beyond
    | succ doublings =>
      have twice : size * 2 ^ (doublings + 1) = 2 * size * 2 ^ doublings := by
        rw [Nat.pow_succ, Nat.mul_comm 2 size, Nat.mul_assoc, Nat.mul_comm 2]
      rw [twice] at past ⊢
      exact ih past

/-- Growing goes from the least size with room for some cells to the least with room for one
more. -/
theorem isLeast_grownSize {first size : Nat} {written : List Nat}
    (least : IsLeast (roomFor first written) size) (index : Nat) (positive : 0 < size) :
    IsLeast (roomFor first (written ++ [index])) (grownSize size index positive) := by
  obtain ⟨⟨⟨doublings, rfl⟩, room⟩, least⟩ := least
  obtain ⟨more, grown⟩ := exists_grownSize_eq (first * 2 ^ doublings) index positive
  refine ⟨⟨⟨doublings + more, ?_⟩, ?_⟩, ?_⟩
  · rw [grown, Nat.pow_add, Nat.mul_assoc]
  · intro other among
    rcases List.mem_append.1 among with before | last
    · exact Nat.lt_of_lt_of_le (room other before) (le_grownSize _ _ _)
    · rw [List.mem_singleton.1 last]
      exact lt_grownSize _ _ _
  · rintro other ⟨⟨wanted, rfl⟩, room'⟩
    have bound : first * 2 ^ doublings ≤ first * 2 ^ wanted :=
      least ⟨⟨wanted, rfl⟩, fun cell among => room' cell (List.mem_append_left _ among)⟩
    have past : index < first * 2 ^ wanted := room' index (by simp)
    -- The size wanted is reached by doubling the one there is.
    have some : 0 < first := Nat.pos_of_mul_pos_right positive
    have order : doublings ≤ wanted :=
      (Nat.pow_le_pow_iff_right (by decide)).1 (Nat.le_of_mul_le_mul_left bound some)
    have split : first * 2 ^ wanted = first * 2 ^ doublings * 2 ^ (wanted - doublings) := by
      rw [Nat.mul_assoc, ← Nat.pow_add, Nat.add_sub_cancel' order]
    rw [split] at past ⊢
    exact grownSize_le _ _ _ past

theorem size_set (tape : Tape) (index : Nat) (value : UInt8) :
    (tape.set index value).size = grownSize tape.size index tape.nonempty := by
  have grows := le_grownSize tape.cells.size index tape.nonempty
  unfold set size reserve
  rw [Array.size_setIfInBounds]
  split
  · next within => rw [grownSize, if_pos within]
  · rw [Array.size_append, Array.size_replicate]
    omega

theorem size_ofSize (size : Int) : (ofSize size).size = (max 1 size).toNat := by
  simp [ofSize, Tape.size]

theorem size_clear (tape : Tape) : tape.clear.size = tape.size := by
  simp [clear, size]

/-- Storing a byte grows the tape to its cell, and no further. -/
theorem size_store {tape next : Tape} {index : Nat} {value : UInt8}
    (stored : tape.store index value = .ok next) :
    next.size = grownSize tape.size index tape.nonempty := by
  rw [store] at stored
  split at stored
  · cases stored
    exact tape.size_set _ _
  · cases stored

theorem eq_ok_of_toOption {ε α : Type} {result : Except ε α} {value : α}
    (some : result.toOption = .some value) : result = .ok value := by
  cases result with
  | error fault => cases some
  | ok other =>
    cases some
    rfl

section Performing

variable {precision : Precision} {tape next : Tape} {action : Action} {answer : List UInt8}

/-- A tape that is not written keeps its size. -/
theorem size_perform_of_read (performed : action.perform precision tape = some (next, answer))
    (reads : action.written? = none) : next.size = tape.size := by
  cases action with
  | set index value => cases reads
  | add index delta => cases reads
  | get index =>
    cases performed
    rfl
  | slice start stop =>
    obtain ⟨_, _, same⟩ := Option.map_eq_some_iff.1 performed
    cases same
    rfl
  | clear =>
    cases performed
    exact tape.size_clear

theorem size_perform_of_written (performed : action.perform precision tape = some (next, answer))
    {index : Nat} (writes : action.written? = some index) :
    next.size = grownSize tape.size index tape.nonempty := by
  cases action with
  | set place value =>
    cases writes
    obtain ⟨_, stored, same⟩ := Option.map_eq_some_iff.1 performed
    cases same
    exact size_store (eq_ok_of_toOption stored)
  | add place delta =>
    cases writes
    obtain ⟨_, stored, same⟩ := Option.map_eq_some_iff.1 performed
    cases same
    exact size_store (eq_ok_of_toOption stored)
  | get place => cases writes
  | slice start stop => cases writes
  | clear => cases writes

theorem size_le_perform (performed : action.perform precision tape = some (next, answer)) :
    tape.size ≤ next.size := by
  cases writes : action.written? with
  | none => exact Nat.le_of_eq (size_perform_of_read performed writes).symm
  | some index =>
    rw [size_perform_of_written performed writes]
    exact le_grownSize _ _ _

end Performing

theorem isLeast_size_performAll {precision : Precision} {first : Nat} {tape last : Tape}
    {written : List Nat} {answers : List (List UInt8)}
    (least : IsLeast (roomFor first written) tape.size) {actions : List Action}
    (performed : performAll precision tape actions = some (last, answers)) :
    IsLeast (roomFor first (written ++ actions.filterMap written?)) last.size := by
  induction actions generalizing tape written answers with
  | nil =>
    cases performed
    simpa using least
  | cons action rest ih =>
    rw [performAll] at performed
    obtain ⟨⟨next, answer⟩, here, others⟩ := Option.bind_eq_some_iff.1 performed
    obtain ⟨⟨final, answers⟩, later, same⟩ := Option.bind_eq_some_iff.1 others
    cases same
    rw [List.filterMap_cons]
    cases writes : action.written? with
    | none =>
      refine ih ?_ later
      rwa [size_perform_of_read here writes]
    | some index =>
      have split : written ++ index :: rest.filterMap written? =
          (written ++ [index]) ++ rest.filterMap written? := by simp
      show IsLeast (roomFor first (written ++ index :: rest.filterMap written?)) _
      rw [split]
      refine ih ?_ later
      rw [size_perform_of_written here writes]
      exact isLeast_grownSize least index tape.nonempty

theorem isLeast_size_ofSize (size : Int) :
    IsLeast (roomFor (max 1 size).toNat []) (ofSize size).size := by
  rw [size_ofSize]
  refine ⟨⟨⟨0, by simp⟩, by simp⟩, ?_⟩
  rintro other ⟨⟨doublings, rfl⟩, _⟩
  exact Nat.le_mul_of_pos_right _ (Nat.two_pow_pos _)

/-! ## The tape as a map -/

/-- A tape of some size does what a byte for every number does, all of them zero at first; sums
are taken at one precision on the tape and at another in the map. -/
structure ActsAsMap (precision other : Precision) (initial : Int) (actions : List Action) :
    Prop where
  /-- All actions come to an end, and read what the map has. -/
  answers : ∃ last, performAll precision (ofSize initial) actions =
    some (last, answersOn other (fun _ => 0) actions)
  cells : ∀ {last : Tape} {answers : List (List UInt8)},
    performAll precision (ofSize initial) actions = some (last, answers) →
      ∀ index, last.get index = actions.foldl (performOn other) (fun _ => 0) index
  /-- The size is the least that doubling leads to and that has room for all cells written. -/
  size : ∀ {last : Tape} {answers : List (List UInt8)},
    performAll precision (ofSize initial) actions = some (last, answers) →
      IsLeast (roomFor (max 1 initial).toNat (actions.filterMap written?)) last.size
  /-- Whatever is done next, the tape does not shrink, and it is left as it is by what does not
  write. -/
  grows : ∀ {last next : Tape} {answers : List (List UInt8)} {answer : List UInt8}
    {action : Action}, performAll precision (ofSize initial) actions = some (last, answers) →
      action.perform precision last = some (next, answer) →
        last.size ≤ next.size ∧ (action.written? = none → next.size = last.size)

/-- A tape acts as a map in which sums are rounded as on the tape, within reach. It acts as the
map with exact sums as long as none of them has too many digits. -/
theorem actsAsMap (initial : Int) {actions : List Action}
    (inReach : ∀ action ∈ actions, action.InReach) :
    ActsAsMap .double .double initial actions ∧
      (Unrounded (fun _ => 0) actions → ActsAsMap .double .exact initial actions) := by
  have holds : (ofSize initial).Holds fun _ => 0 := get_ofSize initial
  obtain ⟨last, performed, holds'⟩ := holds.performAll inReach
  have rounded : ActsAsMap .double .double initial actions := by
    refine ⟨⟨last, performed⟩, ?_, ?_, ?_⟩
    · intro other answers performed'
      rw [performed] at performed'
      cases performed'
      exact holds'
    · intro other answers performed'
      have least := isLeast_size_performAll (isLeast_size_ofSize initial) performed'
      rwa [List.nil_append] at least
    · intro other next answers answer action _ performed'
      exact ⟨size_le_perform performed', size_perform_of_read performed'⟩
  refine ⟨rounded, ?_⟩
  intro unrounded
  obtain ⟨same, same'⟩ := of_unrounded unrounded
  refine ⟨?_, ?_, rounded.size, rounded.grows⟩
  · rw [← same]
    exact rounded.answers
  · rw [← same']
    exact rounded.cells

/-- A tape without cells to begin with, written past its end, wrapped and cleared. -/
theorem actsAsMap_wrapping :
    (∀ action ∈ [Action.set 5 250, .add 5 (-1000), .clear, .add 2 (-1), .slice 0 9],
      action.InReach) ∧
    Unrounded (fun _ => 0) [.set 5 250, .add 5 (-1000), .clear, .add 2 (-1), .slice 0 9] ∧
      ActsAsMap .double .exact 0
        [.set 5 250, .add 5 (-1000), .clear, .add 2 (-1), .slice 0 9] := by
  have inReach : ∀ action ∈ [Action.set 5 250, .add 5 (-1000), .clear, .add 2 (-1), .slice 0 9],
      action.InReach := by
    simp [InReach, limit]
  have unrounded : Unrounded (fun _ => 0)
      [.set 5 250, .add 5 (-1000), .clear, .add 2 (-1), .slice 0 9] :=
    ⟨trivial, by unfold IsSmall; decide, trivial, by unfold IsSmall; decide, trivial, trivial⟩
  exact ⟨inReach, unrounded, (actsAsMap 0 inReach).2 unrounded⟩

/-- A sum with one digit too many is rounded to an even number before it is stored. And no tape
grows to the limit, nor does counting get past the last number that can be counted to. -/
theorem not_actsAsMap_largeDelta :
    ¬ ActsAsMap .double .exact 4 [.set 0 2, .add 0 9007199254740991, .get 0] ∧
      ¬ ActsAsMap .double .exact 4 [.set limit 1] ∧
        ¬ ActsAsMap .double .exact 4 [.slice (2 ^ 53) (2 ^ 53 + 2)] := by
  refine ⟨?_, ?_, ?_⟩
  · rintro ⟨⟨last, performed⟩, -, -, -⟩
    have differ : (performAll .double (ofSize 4)
        [.set 0 2, .add 0 9007199254740991, .get 0]).map Prod.snd ≠
          some (answersOn .exact (fun _ => 0) [.set 0 2, .add 0 9007199254740991, .get 0]) := by
      decide +kernel
    rw [performed] at differ
    exact differ rfl
  · rintro ⟨⟨last, performed⟩, -, -, -⟩
    have fails : performAll .double (ofSize 4) [.set limit 1] = none := by
      decide +kernel
    rw [fails] at performed
    cases performed
  · rintro ⟨⟨last, performed⟩, -, -, -⟩
    -- One more than the first number with too many digits is rounded back to it.
    have same : (Precision.double.add (2 ^ 53 : Nat) 1).toNat = 2 ^ 53 := by decide +kernel
    have sticks : Precision.double.countUp (2 ^ 53) (2 ^ 53 + 2) = none := by
      rw [Precision.countUp, if_pos (by decide)]
      simp only [same]
      rw [if_neg (Nat.lt_irrefl _)]
    rw [performAll, Action.perform, slice, sticks] at performed
    cases performed

end TapeMachine.Tape
