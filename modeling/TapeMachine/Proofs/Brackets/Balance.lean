import TapeMachine.Brackets

/-!
# Balanced text

Scanning for unmatched brackets accepts exactly the balanced texts, and the jumps
between brackets go from each to the one that it matches.
-/

namespace TapeMachine.Brackets

theorem Balanced.append {front back : List Instruction} (first : Balanced front)
    (second : Balanced back) : Balanced (front ++ back) := by
  induction first with
  | nil => exact second
  | plain notOpen notClose _ ih => exact .plain notOpen notClose ih
  | @loop body rest inner _ _ ih =>
    rw [List.append_assoc, List.cons_append]
    exact .loop inner ih

/-! ## Scanning -/

theorem scanFrom_append (left : Unmatched) (position : Nat) (front back : List Instruction) :
    scanFrom left position (front ++ back) =
      scanFrom (scanFrom left position front) (position + front.length) back := by
  induction front generalizing left position with
  | nil => rfl
  | cons instruction rest ih =>
    rw [List.cons_append, scanFrom, scanFrom, ih, List.length_cons, Nat.add_right_comm,
      Nat.add_assoc]

theorem Unmatched.take_plain {instruction : Instruction} (left : Unmatched) (position : Nat)
    (notOpen : instruction ≠ .loopOpen) (notClose : instruction ≠ .loopClose) :
    left.take position instruction = left := by
  cases instruction with
  | loopOpen => exact absurd rfl notOpen
  | loopClose => exact absurd rfl notClose
  | _ => rfl

/-- Balanced text leaves nothing unmatched and matches nothing before it. -/
theorem scanFrom_of_balanced {text : List Instruction} (balanced : Balanced text)
    (left : Unmatched) (position : Nat) : scanFrom left position text = left := by
  induction balanced generalizing left position with
  | nil => rfl
  | plain notOpen notClose _ ih => rw [scanFrom, left.take_plain position notOpen notClose, ih]
  | loop _ _ inner ih =>
    rw [List.cons_append, scanFrom, scanFrom_append, inner, scanFrom]
    exact ih left _

/-- Text with so many closes too many, and balanced text around them. -/
def Closing : Nat → List Instruction → Prop
  | 0, text => Balanced text
  | count + 1, text => ∃ body rest, text = body ++ .loopClose :: rest ∧ Balanced body ∧
      Closing count rest

theorem Closing.plain {instruction : Instruction} (notOpen : instruction ≠ .loopOpen)
    (notClose : instruction ≠ .loopClose) {count : Nat} {text : List Instruction}
    (closing : Closing count text) : Closing count (instruction :: text) := by
  cases count with
  | zero => exact Balanced.plain notOpen notClose closing
  | succ count =>
    obtain ⟨body, rest, rfl, balanced, more⟩ := closing
    exact ⟨instruction :: body, rest, rfl, .plain notOpen notClose balanced, more⟩

/-- An open takes up the first close. -/
theorem Closing.opened {count : Nat} {text : List Instruction}
    (closing : Closing (count + 1) text) : Closing count (.loopOpen :: text) := by
  obtain ⟨body, rest, rfl, inner, more⟩ := closing
  cases count with
  | zero => exact Balanced.loop inner more
  | succ count =>
    obtain ⟨body', rest', rfl, outer, more⟩ := more
    exact ⟨.loopOpen :: body ++ .loopClose :: body', rest', by simp, .loop inner outer, more⟩

theorem length_closes_le (left : Unmatched) (position : Nat) (text : List Instruction) :
    left.closes.length ≤ (scanFrom left position text).closes.length := by
  induction text generalizing left position with
  | nil => exact Nat.le_refl _
  | cons instruction rest ih =>
    refine Nat.le_trans ?_ (ih (left.take position instruction) (position + 1))
    cases instruction with
    | loopClose =>
      obtain ⟨_ | _, closes⟩ := left
      · exact Nat.le_succ _
      · exact Nat.le_refl _
    | _ => exact Nat.le_refl _

/-- A scan that matches all that is open, and has no close left over, has read as many
closes too many as there were opens. -/
theorem closing_of_scanFrom {left : Unmatched} {position : Nat} {text : List Instruction}
    (opens : (scanFrom left position text).opens = [])
    (closes : (scanFrom left position text).closes.length = left.closes.length) :
    Closing left.opens.length text := by
  induction text generalizing left position with
  | nil =>
    rw [show left.opens = [] from opens]
    exact Balanced.nil
  | cons instruction rest ih =>
    rw [scanFrom] at opens closes
    by_cases isOpen : instruction = .loopOpen
    · subst isOpen
      exact (ih opens closes).opened
    by_cases isClose : instruction = .loopClose
    · subst isClose
      obtain ⟨_ | ⟨opening, outer⟩, stray⟩ := left
      · -- A close without an open is never taken back.
        have grown := length_closes_le (Unmatched.take ⟨[], stray⟩ position .loopClose)
          (position + 1) rest
        rw [closes] at grown
        exact absurd grown (Nat.not_succ_le_self _)
      · exact ⟨[], rest, rfl, .nil, ih opens closes⟩
    · rw [left.take_plain position isOpen isClose] at opens closes
      exact (ih opens closes).plain isOpen isClose

theorem balanced_eq_true_iff (program : List Instruction) :
    balanced program = true ↔ Balanced program := by
  rw [balanced, strayCloses, unclosedOpens, Bool.and_eq_true, List.isEmpty_iff, List.isEmpty_iff,
    List.reverse_eq_nil_iff, List.reverse_eq_nil_iff]
  constructor
  · rintro ⟨closes, opens⟩
    exact closing_of_scanFrom opens (by rw [closes])
  · intro balanced
    rw [scanFrom_of_balanced balanced]
    exact ⟨rfl, rfl⟩

/-- What follows balanced text in balanced text is balanced. -/
theorem Balanced.behind {front back : List Instruction} (whole : Balanced (front ++ back))
    (first : Balanced front) : Balanced back := by
  have scanned := scanFrom_of_balanced whole {} 0
  rw [scanFrom_append, scanFrom_of_balanced first] at scanned
  have nothing : Closing (Unmatched.opens {}).length back :=
    closing_of_scanFrom (by rw [scanned]) (by rw [scanned])
  exact nothing

/-- No close in the first part of balanced text is unmatched. -/
theorem Balanced.closes_front {front back : List Instruction} (whole : Balanced (front ++ back)) :
    (scanFrom {} 0 front).closes = [] := by
  have scanned := scanFrom_of_balanced whole {} 0
  rw [scanFrom_append] at scanned
  have few := length_closes_le (scanFrom {} 0 front) (0 + front.length) back
  rw [scanned] at few
  exact List.length_eq_zero_iff.1 (Nat.le_zero.1 few)

/-! ## Jumps -/

/-- Text that the search for a bracket passes over, whatever is nested around it. -/
def Passed (toward away : Instruction) (text : List Instruction) : Prop :=
  ∀ nested rest, distance toward away nested (text ++ rest) =
    (distance toward away nested rest).map (text.length + ·)

section Passed

variable {toward away : Instruction}

theorem distance_away (nested : Nat) (rest : List Instruction) :
    distance toward away nested (away :: rest) =
      (distance toward away (nested + 1) rest).map (· + 1) := by
  cases nested <;> simp [distance]

theorem distance_toward (different : toward ≠ away) (nested : Nat) (rest : List Instruction) :
    distance toward away (nested + 1) (toward :: rest) =
      (distance toward away nested rest).map (· + 1) := by
  simp [distance, different]

theorem passed_nil : Passed toward away [] := by
  intro nested rest
  simp

theorem Passed.append {front back : List Instruction} (first : Passed toward away front)
    (second : Passed toward away back) : Passed toward away (front ++ back) := by
  intro nested rest
  rw [List.append_assoc, first, second, Option.map_map, List.length_append]
  congr 1
  funext count
  show front.length + (back.length + count) = front.length + back.length + count
  omega

theorem passed_plain {instruction : Instruction} (notToward : instruction ≠ toward)
    (notAway : instruction ≠ away) : Passed toward away [instruction] := by
  intro nested rest
  cases nested <;> simp [distance, notToward, notAway, Nat.add_comm]

/-- A pair of brackets with such text between them. -/
theorem Passed.pair {inner : List Instruction} (passed : Passed toward away inner)
    (different : toward ≠ away) : Passed toward away (away :: inner ++ [toward]) := by
  intro nested rest
  rw [List.append_assoc, List.cons_append, distance_away, passed, List.singleton_append,
    distance_toward different]
  simp only [Option.map_map]
  congr 1
  funext count
  simp only [Function.comp_apply, List.length_append, List.length_cons, List.length_nil]
  omega

end Passed

theorem Balanced.passed {text : List Instruction} (balanced : Balanced text) :
    Passed .loopClose .loopOpen text := by
  induction balanced with
  | nil => exact passed_nil
  | plain notOpen notClose _ ih => exact (passed_plain notClose notOpen).append ih
  | @loop body rest _ _ inner ih =>
    have split : Instruction.loopOpen :: body ++ .loopClose :: rest =
        (.loopOpen :: body ++ [.loopClose]) ++ rest := by simp
    rw [split]
    exact (inner.pair (by decide)).append ih

theorem Balanced.passed_reverse {text : List Instruction} (balanced : Balanced text) :
    Passed .loopOpen .loopClose text.reverse := by
  induction balanced with
  | nil => exact passed_nil
  | @plain instruction rest notOpen notClose _ ih =>
    rw [List.reverse_cons]
    exact ih.append (passed_plain notOpen notClose)
  | @loop body rest _ _ inner ih =>
    have split : (Instruction.loopOpen :: body ++ .loopClose :: rest).reverse =
        rest.reverse ++ (.loopClose :: body.reverse ++ [.loopOpen]) := by simp
    rw [split]
    exact ih.append (inner.pair (by decide))

/-- Brackets match exactly where the program is cut into text before the open, balanced
text between the two, and text behind the close. -/
theorem matches_iff (program : List Instruction) (opening closing : Nat) :
    Matches program opening closing ↔ ∃ before inner behind,
      program = before ++ .loopOpen :: inner ++ .loopClose :: behind ∧ Balanced inner ∧
        opening = before.length ∧ closing = before.length + 1 + inner.length := by
  constructor
  · rintro ⟨order, isOpen, isClose, balanced⟩
    obtain ⟨inside, isOpen⟩ := List.getElem?_eq_some_iff.1 isOpen
    obtain ⟨inside', isClose⟩ := List.getElem?_eq_some_iff.1 isClose
    refine ⟨program.take opening, (program.take closing).drop (opening + 1),
      program.drop (closing + 1), ?_, balanced, ?_, ?_⟩
    · -- Up to the close, the program is cut at the open; the cuts fit together again.
      have front : (program.take closing).take opening = program.take opening := by
        rw [List.take_take, Nat.min_eq_left (Nat.le_of_lt order)]
      have mid : (program.take closing).drop opening =
          .loopOpen :: (program.take closing).drop (opening + 1) := by
        rw [List.drop_eq_getElem_cons (by rw [List.length_take]; omega), List.getElem_take, isOpen]
      have back : program.drop closing = .loopClose :: program.drop (closing + 1) := by
        rw [List.drop_eq_getElem_cons inside', isClose]
      rw [← mid, ← back, ← front, List.take_append_drop, List.take_append_drop]
    · rw [List.length_take]
      omega
    · rw [List.length_drop, List.length_take, List.length_take]
      omega
  · rintro ⟨before, inner, behind, rfl, balanced, rfl, rfl⟩
    refine ⟨by omega, by simp, ?_, ?_⟩
    · rw [List.getElem?_append_right (by simp; omega)]
      simp [Nat.add_assoc, Nat.add_comm 1]
    · have cut : (before ++ Instruction.loopOpen :: inner ++ .loopClose :: behind).take
          (before.length + 1 + inner.length) = before ++ .loopOpen :: inner := by
        rw [List.take_left' (by simp; omega)]
      have tail : (before ++ Instruction.loopOpen :: inner).drop (before.length + 1) = inner := by
        rw [List.drop_append]
        simp
      rw [cut, tail]
      exact balanced

theorem closeOf_of_matches {program : List Instruction} {opening closing : Nat}
    (matched : Matches program opening closing) : closeOf program opening = some closing := by
  obtain ⟨before, inner, behind, rfl, balanced, rfl, rfl⟩ :=
    (matches_iff program opening closing).1 matched
  have tail : (before ++ Instruction.loopOpen :: inner ++ .loopClose :: behind).drop
      (before.length + 1) = inner ++ .loopClose :: behind := by
    rw [List.append_assoc, List.drop_append]
    simp
  rw [closeOf, tail, balanced.passed 0]
  simp [distance]

theorem openOf_of_matches {program : List Instruction} {opening closing : Nat}
    (matched : Matches program opening closing) : openOf program closing = some opening := by
  obtain ⟨before, inner, behind, rfl, balanced, rfl, rfl⟩ :=
    (matches_iff program opening closing).1 matched
  have front : ((before ++ Instruction.loopOpen :: inner ++ .loopClose :: behind).take
      (before.length + 1 + inner.length)).reverse =
        inner.reverse ++ .loopOpen :: before.reverse := by
    rw [List.take_left' (by simp; omega)]
    simp
  rw [openOf, front, balanced.passed_reverse 0]
  simp [distance]

end TapeMachine.Brackets
