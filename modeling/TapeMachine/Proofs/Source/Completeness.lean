import TapeMachine.Proofs.Compile.RoundTrip
import TapeMachine.Proofs.Source.Pending

/-!
# Pending lines and the parser

Pending lines count brackets one line at a time, and the parser finds the unmatched ones
in the whole text. Both scan by the same rule, so what is counted as open is what parsing
would report (`judges`), however the text is cut into lines.
-/

namespace TapeMachine

/-! ## Diagnostics -/

namespace ParseTree

open Diagnostic (Report)

/-- What parsing reports about tokens. -/
def diagnostics (tokens : Tokens) : List Report :=
  match parse tokens with
  | .error (.faulty reports) => reports
  | _ => []

theorem diagnostics_eq (tokens : Tokens) : diagnostics tokens = unmatchedReports tokens := by
  unfold diagnostics
  by_cases balanced : Brackets.Balanced tokens.instructions
  · obtain ⟨trees, grown⟩ := exists_grown balanced 0
    rw [parse_of_grown balanced grown, (unmatchedReports_eq_nil_iff tokens).2 balanced]
  · rw [parse_of_not_balanced balanced]

theorem countP_diagnostics (tokens : Tokens) :
    (diagnostics tokens).countP (fun report => report.code == .unmatchedClose) =
        (Brackets.strayCloses tokens.instructions).length ∧
      (diagnostics tokens).countP (fun report => report.code == .unclosedOpen) =
        (Brackets.unclosedOpens tokens.instructions).length := by
  rw [diagnostics_eq, unmatchedReports, List.countP_append, List.countP_append]
  simp [List.countP_map, Function.comp_def, reportAbout]

end ParseTree

/-! ## Closing what is open -/

/-- So many closes match all that is open. -/
theorem Brackets.scanFrom_replicate_close (opens : List Nat) (position : Nat) :
    scanFrom ⟨opens, []⟩ position (List.replicate opens.length .loopClose) = {} := by
  induction opens generalizing position with
  | nil => rfl
  | cons opening outer ih =>
    rw [List.length_cons, List.replicate_succ, scanFrom]
    exact ih (position + 1)

namespace Source.Pending

open Diagnostic (Report)

/-- Only the instructions of lines matter to what is open at their end. -/
theorem count_of_instructions {lines other : List String}
    (same : instructions other = instructions lines) :
    (ofLines other).depth = (ofLines lines).depth ∧
      (ofLines other).stray = (ofLines lines).stray := by
  obtain ⟨depth, stray⟩ := tracks_ofLines lines
  obtain ⟨depth', stray'⟩ := tracks_ofLines other
  rw [same] at depth' stray'
  exact ⟨depth'.trans depth.symm, stray'.trans stray.symm⟩

theorem instructions_join (lines : List String) :
    Instruction.ofChars (String.join lines).toList = instructions lines := by
  rw [String.toList_join, Source.instructions]
  induction lines with
  | nil => rfl
  | cons line rest ih =>
    rw [List.flatMap_cons, List.flatMap_cons, Instruction.ofChars_append, ih]

theorem instructions_text (lines : List String) :
    (Tokens.ofSource ("\n".intercalate lines)).instructions = instructions lines := by
  rw [Tokens.instructions_ofSource, ofChars_intercalate]

/-- The depth is the number of loops that the parser reports. -/
theorem depth_eq_countP (lines : List String) : (ofLines lines).depth =
    (ParseTree.diagnostics (.ofSource ("\n".intercalate lines))).countP
      fun report => report.code == .unclosedOpen := by
  obtain ⟨depth, _⟩ := tracks_ofLines lines
  rw [(ParseTree.countP_diagnostics _).2, instructions_text, Brackets.unclosedOpens,
    List.length_reverse, depth]

/-- There is a stray close if the parser reports one. -/
theorem stray_iff_exists_report (lines : List String) : (ofLines lines).stray = true ↔
    ∃ report ∈ ParseTree.diagnostics (.ofSource ("\n".intercalate lines)),
      report.code = .unmatchedClose := by
  obtain ⟨_, stray⟩ := tracks_ofLines lines
  have reported := (ParseTree.countP_diagnostics (.ofSource ("\n".intercalate lines))).1
  rw [instructions_text, Brackets.strayCloses, List.length_reverse] at reported
  rw [stray, Bool.not_eq_true', List.isEmpty_eq_false_iff, ← List.length_pos_iff, ← reported,
    List.countP_pos_iff]
  simp only [beq_iff_eq]

/-- Nothing is unmatched exactly in balanced lines. -/
theorem balanced_instructions_iff (lines : List String) :
    Brackets.Balanced (instructions lines) ↔
      (ofLines lines).depth = 0 ∧ (ofLines lines).stray = false := by
  obtain ⟨depth, stray⟩ := tracks_ofLines lines
  rw [← Brackets.balanced_eq_true_iff, Brackets.balanced, Brackets.strayCloses,
    Brackets.unclosedOpens, depth, stray]
  simp [and_comm]

/-- Closing what is open makes balanced text of lines without a stray close. -/
theorem balanced_closed {lines : List String} (stray : (ofLines lines).stray = false) :
    Brackets.Balanced
      (instructions lines ++ List.replicate (ofLines lines).depth .loopClose) := by
  obtain ⟨depth, none⟩ := tracks_ofLines lines
  rw [stray] at none
  rw [← Brackets.balanced_eq_true_iff, Brackets.balanced, Brackets.strayCloses,
    Brackets.unclosedOpens, Brackets.scanFrom_append, depth]
  -- The closes are scanned from what the lines leave, which is nothing but opens.
  cases left : Brackets.scanFrom {} 0 (instructions lines) with
  | mk opens closes =>
    rw [left] at none
    obtain rfl : closes = [] := by simpa using none
    rw [Brackets.scanFrom_replicate_close]
    rfl

/-- The lines count as the parser reports them. -/
structure Judges (lines : List String) : Prop where
  /-- As many loops are open as are reported to be unclosed. -/
  depth : (ofLines lines).depth =
    (ParseTree.diagnostics (.ofSource ("\n".intercalate lines))).countP
      fun report => report.code == .unclosedOpen
  /-- A close among them is stray if one is reported to be unmatched. -/
  stray : (ofLines lines).stray = true ↔
    ∃ report ∈ ParseTree.diagnostics (.ofSource ("\n".intercalate lines)),
      report.code = .unmatchedClose
  /-- The lines are complete if no loop is reported, or some close is. -/
  complete : (ofLines lines).isComplete = true ↔
    (∀ report ∈ ParseTree.diagnostics (.ofSource ("\n".intercalate lines)),
      report.code ≠ .unclosedOpen) ∨
    ∃ report ∈ ParseTree.diagnostics (.ofSource ("\n".intercalate lines)),
      report.code = .unmatchedClose
  /-- What is taken is the lines as one text, and it compiles if nothing is unmatched. -/
  taken : (ofLines lines).take.1 = "\n".intercalate lines ∧
    ∀ name options, (∃ compiled,
      compile { text := (ofLines lines).take.1, name } options = .ok compiled) ↔
        (ofLines lines).depth = 0 ∧ (ofLines lines).stray = false
  /-- While the lines are not complete, closing the open loops makes a source of them. -/
  closed : (ofLines lines).isComplete = false → ∀ name options, ∃ compiled,
    compile { text := "\n".intercalate lines ++
      String.ofList (List.replicate (ofLines lines).depth ']'), name } options = .ok compiled
  /-- Other lines of the same text count alike, be it cut at the ends of its lines or
  anywhere else. -/
  cut : ∀ other : List String, "\n".intercalate other = "\n".intercalate lines ∨
      String.join other = String.join lines →
    (ofLines other).depth = (ofLines lines).depth ∧
      (ofLines other).isComplete = (ofLines lines).isComplete
  /-- When the lines have been taken, more lines count as if there had been none before. -/
  fresh : ∀ more : List String, more.foldl append (ofLines lines).take.2 = ofLines more

theorem judges (lines : List String) : Judges lines := by
  refine {
    depth := depth_eq_countP lines
    stray := stray_iff_exists_report lines
    complete := ?complete
    taken := ?taken
    closed := ?closed
    cut := ?cut
    fresh := fun _ => rfl }
  case complete =>
    rw [isComplete, Bool.or_eq_true, beq_iff_eq, depth_eq_countP, stray_iff_exists_report,
      List.countP_eq_zero]
    simp only [beq_iff_eq, ne_eq]
  case taken =>
    refine ⟨text_ofLines lines, ?_⟩
    intro name options
    rw [exists_compile_iff_balanced, ← balanced_instructions_iff]
    show Brackets.Balanced (Instruction.ofChars (ofLines lines).text.toList) ↔ _
    rw [text_ofLines, ofChars_intercalate]
  case closed =>
    intro incomplete name options
    rw [isComplete, Bool.or_eq_false_iff] at incomplete
    rw [exists_compile_iff_balanced, String.toList_append, String.toList_ofList,
      Instruction.ofChars_append, ofChars_intercalate, ofChars_closes]
    exact balanced_closed incomplete.2
  case cut =>
    intro other same
    have same : instructions other = instructions lines := by
      rcases same with same | same
      · rw [← ofChars_intercalate, same, ofChars_intercalate]
      · rw [← instructions_join, same, instructions_join]
    obtain ⟨depth, stray⟩ := count_of_instructions same
    rw [isComplete, isComplete, depth, stray]
    exact ⟨rfl, rfl⟩

end Source.Pending

end TapeMachine
