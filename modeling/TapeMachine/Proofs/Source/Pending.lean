import Mathlib.Data.List.Induction
import TapeMachine.Proofs.Brackets.Balance
import TapeMachine.Source.Pending

/-!
# Pending lines

The lines of interactive source are counted by the rule that brackets are matched by. So
the first lines of balanced source are complete exactly where they are balanced
themselves (`Pending.isComplete_ofLines`), and then so are the others.
-/

namespace TapeMachine

/-! ## Lines -/

/-- The instructions of lines in order. -/
def Source.instructions (lines : List String) : List Instruction :=
  lines.flatMap fun line => Instruction.ofChars line.toList

theorem Instruction.ofChars_append (front back : List Char) :
    ofChars (front ++ back) = ofChars front ++ ofChars back :=
  List.filterMap_append

/-- The end of a line is not an instruction. -/
theorem Source.ofChars_intercalate (lines : List String) :
    Instruction.ofChars ("\n".intercalate lines).toList = instructions lines := by
  induction lines with
  | nil => rfl
  | cons line rest ih =>
    cases rest with
    | nil => simp [instructions]
    | cons next rest =>
      have lineEnd : Instruction.ofChars "\n".toList = [] := rfl
      rw [String.intercalate_cons_cons, String.toList_append, String.toList_append,
        Instruction.ofChars_append, Instruction.ofChars_append, lineEnd, ih]
      simp [instructions]

theorem Source.instructions_append (front back : List String) :
    instructions (front ++ back) = instructions front ++ instructions back :=
  List.flatMap_append

namespace Source.Pending

open Brackets

/-- What is pending after these lines. -/
def ofLines (lines : List String) : Pending :=
  lines.foldl append {}

theorem ofLines_concat (lines : List String) (line : String) :
    ofLines (lines ++ [line]) = (ofLines lines).append line := by
  simp [ofLines]

theorem lines_foldl_count (instructions : List Instruction) (pending : Pending) :
    (instructions.foldl count pending).lines = pending.lines := by
  induction instructions generalizing pending with
  | nil => rfl
  | cons instruction rest ih =>
    rw [List.foldl_cons, ih]
    cases instruction with
    | loopClose =>
      obtain ⟨lines, _ | outer, stray⟩ := pending
      · rfl
      · rfl
    | _ => rfl

theorem lines_ofLines (lines : List String) : (ofLines lines).lines = lines.reverse := by
  induction lines using List.reverseRecOn with
  | nil => rfl
  | append_singleton front line ih =>
    rw [ofLines_concat, append, lines_foldl_count, ih, List.reverse_append]
    rfl

theorem text_ofLines (lines : List String) : (ofLines lines).text = "\n".intercalate lines := by
  rw [text, lines_ofLines, List.reverse_reverse]

/-! ## Counting -/

/-- The number of loops that are open, and whether a close is unmatched. -/
def Tracks (pending : Pending) (left : Unmatched) : Prop :=
  pending.depth = left.opens.length ∧ pending.stray = !left.closes.isEmpty

theorem Tracks.count {pending : Pending} {left : Unmatched} (tracks : pending.Tracks left)
    (position : Nat) (instruction : Instruction) :
    (pending.count instruction).Tracks (left.take position instruction) := by
  obtain ⟨depth, stray⟩ := tracks
  cases instruction with
  | loopOpen =>
    refine ⟨?_, stray⟩
    simp [Pending.count, Unmatched.take, depth]
  | loopClose =>
    obtain ⟨_ | ⟨opening, outer⟩, closes⟩ := left
    · obtain ⟨lines, _ | deeper, strays⟩ := pending
      · exact ⟨rfl, rfl⟩
      · cases depth
    · obtain ⟨lines, _ | deeper, strays⟩ := pending
      · cases depth
      · exact ⟨Nat.succ.inj depth, stray⟩
  | _ => exact ⟨depth, stray⟩

theorem Tracks.foldl {pending : Pending} {left : Unmatched} (tracks : pending.Tracks left)
    (position : Nat) (instructions : List Instruction) :
    (instructions.foldl Pending.count pending).Tracks (scanFrom left position instructions) := by
  induction instructions generalizing pending left position with
  | nil => exact tracks
  | cons instruction rest ih =>
    rw [List.foldl_cons, scanFrom]
    exact ih (tracks.count position instruction) (position + 1)

/-- Pending lines are scanned for brackets as one text. -/
theorem tracks_ofLines (lines : List String) :
    (ofLines lines).Tracks (scanFrom {} 0 (instructions lines)) := by
  induction lines using List.reverseRecOn with
  | nil => exact ⟨rfl, rfl⟩
  | append_singleton front line ih =>
    have more : instructions [line] = Instruction.ofChars line.toList := by simp [instructions]
    rw [ofLines_concat, instructions_append, scanFrom_append, more]
    -- The counts do not depend on the lines themselves.
    have held : Tracks { ofLines front with lines := line :: (ofLines front).lines } _ := ih
    exact held.foldl _ _

/-- The first lines of balanced source are complete exactly if they are balanced. -/
theorem isComplete_ofLines {lines more : List String}
    (whole : Balanced (instructions (lines ++ more))) :
    (ofLines lines).isComplete = true ↔ Balanced (instructions lines) := by
  obtain ⟨depth, stray⟩ := tracks_ofLines lines
  rw [instructions_append] at whole
  have closes := whole.closes_front
  rw [isComplete, depth, stray, ← balanced_eq_true_iff, balanced, strayCloses, unclosedOpens,
    closes]
  simp

end Source.Pending

end TapeMachine
