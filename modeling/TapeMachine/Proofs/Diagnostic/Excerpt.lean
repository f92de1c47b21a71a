import TapeMachine.Proofs.Compile.Acceptance
import TapeMachine.Proofs.Token.Places

/-!
# What an excerpt points at

Tokens count lines by line feeds, while an excerpt takes its line from a source cut at line
feeds and at carriage returns before them. The two agree: the line that a token names holds the
token's own character at its column (`Report.exists_pointsAt`), because neither kind of line
end can stand between the last line feed before a character and the character. So a report
about an unmatched bracket points at the bracket, wherever it can be written at all.
-/

namespace TapeMachine

/-! ## Lines -/

namespace Text.Lines

theorem split_cons {c : Char} {rest : List Char} (notFeed : c ≠ '\n')
    (alone : c = '\r' → rest.head? ≠ some '\n') : split (c :: rest) = extend c (split rest) := by
  rw [split]
  · intro behind isReturn feed
    exact alone isReturn (by simp [feed])
  · exact notFeed

theorem extend_append {lines : List (List Char)} (some : lines ≠ []) (c : Char)
    (more : List (List Char)) : extend c (lines ++ more) = extend c lines ++ more := by
  cases lines with
  | nil => exact absurd rfl some
  | cons line lines => rfl

theorem length_extend {lines : List (List Char)} (some : lines ≠ []) (c : Char) :
    (extend c lines).length = lines.length := by
  cases lines with
  | nil => exact absurd rfl some
  | cons line lines => rfl

/-- Text up to a line feed has one line more than it has line feeds before. -/
theorem exists_split_append_feed (front back : List Char) :
    ∃ lines, lines.length = front.count '\n' + 1 ∧
      split (front ++ '\n' :: back) = lines ++ split back := by
  induction front with
  | nil => exact ⟨[[]], rfl, rfl⟩
  | cons c rest ih =>
    obtain ⟨lines, length, cut⟩ := ih
    have some : lines ≠ [] := by
      rintro rfl
      simp at length
    by_cases feed : c = '\n'
    · subst feed
      refine ⟨[] :: lines, by simp [length], ?_⟩
      show [] :: split (rest ++ '\n' :: back) = _
      rw [cut]
      rfl
    · have count : (c :: rest).count '\n' = rest.count '\n' := by simp [feed]
      rw [count]
      by_cases ending : c = '\r' ∧ (rest ++ '\n' :: back).head? = Option.some '\n'
      · -- A carriage return before a line feed leaves no trace.
        obtain ⟨rfl, next⟩ := ending
        obtain ⟨behind, whole⟩ := List.head?_eq_some_iff.1 next
        refine ⟨lines, length, ?_⟩
        rw [← cut, List.cons_append, whole]
        rfl
      · refine ⟨extend c lines, by rw [length_extend some, length], ?_⟩
        rw [List.cons_append, split_cons feed (fun isReturn next => ending ⟨isReturn, next⟩), cut,
          extend_append some]

/-- A line begins with what stands in it before a character that cannot end it. -/
theorem exists_split_of_plain {front : List Char} (noFeed : '\n' ∉ front) {c : Char}
    (notFeed : c ≠ '\n') (notReturn : c ≠ '\r') (back : List Char) :
    ∃ rest others, split (front ++ c :: back) = (front ++ c :: rest) :: others := by
  induction front with
  | nil =>
    rw [List.nil_append, split_cons notFeed (fun isReturn => absurd isReturn notReturn)]
    cases split back with
    | nil => exact ⟨[], [], rfl⟩
    | cons line lines => exact ⟨line, lines, rfl⟩
  | cons first front ih =>
    obtain ⟨notFirst, noFeed⟩ := not_or.1 (mt List.mem_cons.2 noFeed)
    obtain ⟨rest, others, cut⟩ := ih noFeed
    refine ⟨rest, others, ?_⟩
    have alone : first = '\r' → (front ++ c :: back).head? ≠ some '\n' := by
      intro _ next
      cases front with
      | nil => exact notFeed (Option.some.inj next)
      | cons second front => exact noFeed (by simp [Option.some.inj next])
    rw [List.cons_append, split_cons (Ne.symm notFirst) alone, cut]
    rfl

/-- Behind the last line feed of a text. -/
theorem rtakeWhile_append_feed (front : List Char) {back : List Char} (noFeed : '\n' ∉ back) :
    (front ++ '\n' :: back).rtakeWhile (· != '\n') = back := by
  induction back using List.reverseRecOn with
  | nil => simp
  | append_singleton back c ih =>
    have others : '\n' ∉ back ∧ c ≠ '\n' := by
      simp only [List.mem_append, List.mem_singleton, not_or] at noFeed
      exact ⟨noFeed.1, Ne.symm noFeed.2⟩
    have whole : front ++ '\n' :: (back ++ [c]) = (front ++ '\n' :: back) ++ [c] := by simp
    rw [whole, List.rtakeWhile_concat, ih others.1]
    simp [others.2]

theorem rtakeWhile_of_not_mem {text : List Char} (noFeed : '\n' ∉ text) :
    text.rtakeWhile (· != '\n') = text := by
  rw [List.rtakeWhile_eq_self_iff]
  intro c among
  have other : c ≠ '\n' := by
    rintro rfl
    exact noFeed among
  simpa using other

/-- Text without a line feed, or cut at its last one. -/
theorem cases_last_feed (text : List Char) :
    '\n' ∉ text ∨ ∃ front back, text = front ++ '\n' :: back ∧ '\n' ∉ back := by
  by_cases feed : '\n' ∈ text
  · obtain ⟨back, front, whole, noFeed⟩ := List.eq_append_cons_of_mem (List.mem_reverse.2 feed)
    refine .inr ⟨front.reverse, back.reverse, ?_, by simpa using noFeed⟩
    rw [← List.reverse_reverse text, whole]
    simp
  · exact .inl feed

/-- The characters of a line that columns count. A byte order mark in front of the first line
is not one of them. -/
def counted (number : Int) (line : List Char) : List Char :=
  if number = 1 then Source.withoutMark line else line

theorem counted_first (before : List Char) {c : Char} (notMark : c ≠ Utf8.byteOrderMark)
    (rest : List Char) : counted 1 (before ++ c :: rest) = Source.withoutMark before ++ c :: rest := by
  rw [counted, if_pos rfl]
  cases before with
  | nil => simp [Source.withoutMark, notMark]
  | cons first before => exact Source.withoutMark_append (by simp) _

theorem lastLine_append_feed (front : List Char) {back : List Char} (noFeed : '\n' ∉ back) :
    lastLine (front ++ '\n' :: back) = back := by
  have notMark : '\n' ≠ Utf8.byteOrderMark := by decide
  have dropped := counted_first front notMark back
  rw [counted, if_pos rfl] at dropped
  rw [lastLine, dropped, rtakeWhile_append_feed _ noFeed]

theorem lastLine_of_not_mem {text : List Char} (noFeed : '\n' ∉ text) :
    lastLine text = Source.withoutMark text := by
  have noFeed' : '\n' ∉ Source.withoutMark text := fun feed =>
    noFeed ((Source.withoutMark_suffix text).mem feed)
  rw [lastLine, rtakeWhile_of_not_mem noFeed']

/-- The lines of a text are numbered from one. -/
theorem line?_succ (text : List Char) (number : Nat) :
    line? text (1 + number) = (split text)[number]? := by
  have index : (1 + (number : Int) - 1).toNat = number := by omega
  rw [line?, if_neg (by omega), index]

/-- The line of a character that cannot end it, and the character in it. -/
theorem exists_line_of_plain (before : List Char) {c : Char} (notFeed : c ≠ '\n')
    (notReturn : c ≠ '\r') (notMark : c ≠ Utf8.byteOrderMark) (behind : List Char) :
    ∃ line rest, line? (before ++ c :: behind) (1 + before.count '\n') = some line ∧
      counted (1 + before.count '\n') line = lastLine before ++ c :: rest := by
  rw [line?_succ]
  rcases cases_last_feed before with noFeed | ⟨front, back, rfl, noFeed⟩
  · -- The first line, where a byte order mark is not counted.
    obtain ⟨rest, others, cut⟩ := exists_split_of_plain noFeed notFeed notReturn behind
    have first : before.count '\n' = 0 := List.count_eq_zero.2 noFeed
    refine ⟨before ++ c :: rest, rest, by rw [cut, first]; rfl, ?_⟩
    rw [first, lastLine_of_not_mem noFeed]
    exact counted_first before notMark rest
  · obtain ⟨lines, length, cut⟩ := exists_split_append_feed front (back ++ c :: behind)
    obtain ⟨rest, others, cut'⟩ := exists_split_of_plain noFeed notFeed notReturn behind
    have count : (front ++ '\n' :: back).count '\n' = lines.length := by
      rw [length]
      simp [List.count_eq_zero.2 noFeed]
    have whole : front ++ '\n' :: back ++ c :: behind = front ++ '\n' :: (back ++ c :: behind) := by
      simp
    refine ⟨back ++ c :: rest, rest, ?_, ?_⟩
    · rw [whole, cut, cut', count]
      simp
    · rw [lastLine_append_feed front noFeed, counted, if_neg (by omega)]

end Text.Lines

/-! ## Reports -/

theorem Instruction.symbol_plain (instruction : Instruction) : instruction.symbol ≠ '\n' ∧
    instruction.symbol ≠ '\r' ∧ instruction.symbol ≠ Text.Utf8.byteOrderMark := by
  cases instruction <;> decide

namespace Diagnostic

/-- The bracket that a report of some code is about. -/
def Code.bracket? : Code → Option Char
  | .unmatchedClose => some ']'
  | .unclosedOpen => some '['
  | _ => none

namespace Report

variable {file : SourceFile}

/-- A report that shows a line of the file and points at a character in it. -/
structure PointsAt (report : Report) (file : SourceFile) (symbol : Char) (line : String) :
    Prop where
  shown : file.line? report.line = some line
  column : 1 ≤ report.column
  /-- The character stands at the column, the first being 1. -/
  symbol : (Text.Lines.counted report.line line.toList)[(report.column - 1).toNat]? = some symbol
  /-- The caret is below the line, as many blanks from the margin as there are columns before. -/
  excerpt : [" " ++ toString report.line ++ " | " ++ line,
      gutter report.line ++ blanks (report.column - 1).toNat ++ "^"] <:+: report.lines file

/-- A report at the place of a token points at the token. -/
theorem exists_pointsAt (report : Report) {token : Token} {place : Nat}
    (placed : token.PlacedAt file.text.toList place) (line : report.line = token.line)
    (column : report.column = token.column) :
    ∃ shown, report.PointsAt file token.instruction.symbol shown := by
  obtain ⟨inside, here⟩ := List.getElem?_eq_some_iff.1 placed.symbol
  have split : file.text.toList = file.text.toList.take place ++
      token.instruction.symbol :: file.text.toList.drop (place + 1) := by
    rw [← here, ← List.drop_eq_getElem_cons inside, List.take_append_drop]
  obtain ⟨notFeed, notReturn, notMark⟩ := token.instruction.symbol_plain
  obtain ⟨shown, rest, found, counted⟩ := Text.Lines.exists_line_of_plain
    (file.text.toList.take place) notFeed notReturn notMark (file.text.toList.drop (place + 1))
  rw [← split, ← placed.line, ← line] at found
  rw [← placed.line, ← line] at counted
  rw [placed.column] at column
  have showing : file.line? report.line = some (String.ofList shown) := by
    rw [SourceFile.line?, found, Option.map_some]
  refine ⟨String.ofList shown, showing, by omega, ?_, ?_⟩
  · have width : (report.column - 1).toNat =
        (Text.lastLine (file.text.toList.take place)).length := by omega
    rw [String.toList_ofList, counted, width]
    simp
  · rw [lines, showing]
    refine ⟨report.headline file ++ [gutter report.line], [gutter report.line, "   = help: " ++
      Text.Template.interpolate report.code.entry.suggestion report.args], ?_⟩
    simp [excerpt, indent]

/-- The report is about a bracket and points at it. -/
def PointsOut (report : Report) (file : SourceFile) : Prop :=
  ∃ bracket line, report.code.bracket? = some bracket ∧ report.PointsAt file bracket line

/-- A report at a column that exists is written, unless it is longer than a text can be. -/
theorem format_eq {report : Report} (column : 1 ≤ report.column) (file : SourceFile) :
    report.format file =
      if Text.Units.maxLength < Text.Units.length ("\n".intercalate (report.lines file)).toList then
        .error .excessiveWidth
      else .ok ("\n".intercalate (report.lines file)) := by
  have size : Text.Units.length ("\n".intercalate (report.lines file)).toList =
      report.size file file.widths := unitsOf_lines report file
  rw [format, fault?_of_column column, size]
  by_cases long : Text.Units.maxLength < report.size file file.widths
  · rw [if_pos long, if_pos long]
  · rw [if_neg long, if_neg long]

end Report

end Diagnostic

/-! ## Rejected sources -/

open Diagnostic (Report)

/-- A report about the token of a bracket points it out. -/
theorem ParseTree.pointsOut_reportAbout {file : SourceFile} {code : Diagnostic.Code}
    {bracket : Instruction} (about : code.bracket? = some bracket.symbol) {id : Nat}
    (found : (Tokens.ofSource file.text).instructions[id]? = some bracket) :
    (reportAbout (.ofSource file.text) code id).PointsOut file := by
  unfold Tokens.instructions at found
  rw [List.getElem?_map] at found
  obtain ⟨token, read, rfl⟩ := Option.map_eq_some_iff.1 found
  have taken : (Tokens.ofSource file.text).toList.getD id default = token := by
    rw [List.getD_eq_getElem?_getD, read]
    rfl
  obtain ⟨place, placed⟩ := Token.exists_placedAt read
  obtain ⟨line, points⟩ := Report.exists_pointsAt (reportAbout (.ofSource file.text) code id) placed
    (by rw [reportAbout, taken]) (by rw [reportAbout, taken])
  exact ⟨_, line, about, points⟩

/-- Every report about a source points out its bracket. -/
theorem SourceFile.pointsOut_of_mem {file : SourceFile} {report : Report}
    (among : report ∈ file.reports) : report.PointsOut file := by
  rcases List.mem_append.1 among with close | opening
  · obtain ⟨id, stray, rfl⟩ := List.mem_map.1 close
    exact ParseTree.pointsOut_reportAbout rfl (Brackets.mem_strayCloses_iff.1 stray).1
  · obtain ⟨id, unclosed, rfl⟩ := List.mem_map.1 opening
    exact ParseTree.pointsOut_reportAbout rfl (Brackets.mem_unclosedOpens_iff.1 unclosed).1

/-- If the file does not compile it is rejected with reports that point out their brackets, and
each of them can be written. -/
def SourceFile.PointsOutBrackets (file : SourceFile) (options : Optimize.Options) : Prop :=
  (¬ ∃ compiled, compile file options = .ok compiled) →
    ∃ reports text, compile file options = .error (.rejected reports text) ∧
      ∀ report ∈ reports, report.PointsOut file ∧
        report.format file = .ok ("\n".intercalate (report.lines file))

/-- Reports point out their brackets, also where they cannot be written. That happens only if all
of them together are longer than a text can be. -/
theorem pointsOutBrackets_or_overlong (file : SourceFile) (options : Optimize.Options) :
    (∀ report ∈ file.reports, report.PointsOut file) ∧
      (file.PointsOutBrackets options ∨
        (¬ Brackets.Balanced (Instruction.ofChars file.text.toList) ∧
          Text.Units.maxLength < Text.Units.length (Report.writeAll file.reports file).toList ∧
            compile file options = .error (.broken .excessiveWidth))) := by
  refine ⟨fun _ => SourceFile.pointsOut_of_mem, ?_⟩
  by_cases balanced : Brackets.Balanced (Instruction.ofChars file.text.toList)
  · exact .inl fun failed => absurd ((exists_compile_iff_balanced file options).2 balanced) failed
  have failure := compile_of_not_balanced balanced options
  split at failure
  · next overlong => exact .inr ⟨balanced, overlong, failure⟩
  · next short =>
    refine .inl fun _ => ⟨_, _, failure, ?_⟩
    intro report among
    obtain ⟨bracket, line, about, points⟩ := SourceFile.pointsOut_of_mem among
    refine ⟨⟨bracket, line, about, points⟩, ?_⟩
    -- A single report is no longer than all of them.
    have whole := Report.size_le_totalSize among file file.widths
    rw [← Report.length_writeAll, ← Report.unitsOf_lines, Report.unitsOf] at whole
    rw [Report.format_eq points.column, if_neg (by omega)]

theorem not_pointsOutBrackets_closesOnly : ¬ (closesOnly 19000).PointsOutBrackets {} := by
  have failure : compile (closesOnly 19000) {} = .error (.broken .excessiveWidth) :=
    compile_closesOnly rfl (by decide) {}
  intro pointsOut
  obtain ⟨reports, text, rejected, _⟩ := pointsOut (by
    rintro ⟨compiled, success⟩
    rw [failure] at success
    cases success)
  rw [failure] at rejected
  cases rejected

end TapeMachine
