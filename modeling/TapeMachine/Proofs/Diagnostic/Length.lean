import TapeMachine.Diagnostic.Report

/-!
# The length of reports

The size of a report is the length of what is written for it, although neither the line
of source nor the blanks below it are written to find it out. So reports whose columns
are in order can be written exactly if all of them together are short enough for a text
(`formatAll_eq`).
-/

namespace TapeMachine

theorem SourceFile.entry?_widths (file : SourceFile) (number : Int) :
    Text.Lines.entry? file.widths number =
      (file.line? number).map fun line => Text.Units.length line.toList := by
  unfold Text.Lines.entry? SourceFile.line? Text.Lines.line? SourceFile.widths
  split
  · rfl
  · simp [Function.comp_def]

namespace Diagnostic.Report

open Text

variable {file : SourceFile}

/-! ## One report -/

theorem unitsOf_append {front back : List String} (some : front ≠ []) (more : back ≠ []) :
    unitsOf (front ++ back) = unitsOf front + 1 + unitsOf back := by
  unfold unitsOf
  rw [String.intercalate_append_of_ne_nil some more]
  simp only [String.toList_append, Units.length_append]
  rfl

theorem unitsOf_excerpt (report : Report) (sourceLine : String) (indent : Nat) :
    unitsOf (report.excerpt sourceLine indent) =
      unitsOf (report.excerpt "" 0) + Units.length sourceLine.toList + indent := by
  have blank : Units.ofChar ' ' = 1 := by decide
  simp only [unitsOf, excerpt, blanks, String.intercalate_cons_cons, String.intercalate_singleton,
    String.toList_append, Units.length_append, String.toList_ofList, Units.length_replicate, blank]
  simp only [String.toList_empty, Units.length]
  omega

/-- The size of a report is the length of its lines. -/
theorem unitsOf_lines (report : Report) (file : SourceFile) :
    unitsOf (report.lines file) = report.size file file.widths := by
  unfold lines size
  rw [SourceFile.entry?_widths]
  cases file.line? report.line with
  | none => rfl
  | some sourceLine =>
    have headline : report.headline file ≠ [] := by simp [Report.headline]
    have excerpt : ∀ shown indent, report.excerpt shown indent ≠ [] := by
      intro shown indent
      simp [Report.excerpt]
    simp only [Option.map_some]
    rw [unitsOf_append headline (excerpt _ _), unitsOf_append headline (excerpt _ _),
      unitsOf_excerpt report sourceLine]
    omega

/-- With a column that exists, only its length keeps a report from being written. -/
theorem fault?_of_column {report : Report} (column : 1 ≤ report.column) (widths : Array Nat) :
    report.fault? file widths =
      if Text.Units.maxLength < report.size file widths then some .excessiveWidth else none := by
  unfold fault?
  rw [if_neg (by omega)]

/-! ## Several reports -/

private theorem foldl_size (reports : List Report) (widths : Array Nat) (start : Nat) :
    reports.foldl (fun total report => total + report.size file widths) start =
      start + reports.foldl (fun total report => total + report.size file widths) 0 := by
  induction reports generalizing start with
  | nil => rfl
  | cons report rest ih =>
    rw [List.foldl_cons, List.foldl_cons, ih, ih (0 + report.size file widths)]
    omega

theorem totalSize_singleton (report : Report) (file : SourceFile) (widths : Array Nat) :
    totalSize [report] file widths = report.size file widths := by
  simp [totalSize]

theorem totalSize_cons_cons (report next : Report) (rest : List Report) (widths : Array Nat) :
    totalSize (report :: next :: rest) file widths =
      report.size file widths + 2 + totalSize (next :: rest) file widths := by
  unfold totalSize
  rw [List.foldl_cons, foldl_size, foldl_size (next :: rest) widths (2 * _)]
  simp only [List.length_cons]
  omega

/-- The sizes of reports add up to the length of all that is written for them. -/
theorem length_writeAll (reports : List Report) (file : SourceFile) :
    Units.length (writeAll reports file).toList = totalSize reports file file.widths := by
  unfold writeAll
  induction reports with
  | nil => rfl
  | cons report rest ih =>
    have first : Units.length ("\n".intercalate (report.lines file)).toList =
        report.size file file.widths := unitsOf_lines report file
    cases rest with
    | nil => rw [totalSize_singleton, List.map_singleton, String.intercalate_singleton, first]
    | cons next rest =>
      rw [totalSize_cons_cons, ← ih]
      simp only [List.map_cons, String.intercalate_cons_cons, String.toList_append,
        Units.length_append, first]
      rfl

theorem size_le_totalSize {reports : List Report} {report : Report} (among : report ∈ reports)
    (file : SourceFile) (widths : Array Nat) :
    report.size file widths ≤ totalSize reports file widths := by
  induction reports with
  | nil => cases among
  | cons first rest ih =>
    cases rest with
    | nil =>
      obtain rfl := List.mem_singleton.1 among
      exact Nat.le_of_eq (totalSize_singleton report file widths).symm
    | cons next rest =>
      rw [totalSize_cons_cons]
      rcases List.mem_cons.1 among with rfl | later
      · omega
      · have := ih later
        omega

/-- Reports of a bounded size are together no longer than there are of them. -/
theorem totalSize_le {reports : List Report} {widths : Array Nat} {bound : Nat}
    (short : ∀ report ∈ reports, report.size file widths ≤ bound) :
    totalSize reports file widths ≤ reports.length * (bound + 2) := by
  induction reports with
  | nil => simp [totalSize]
  | cons report rest ih =>
    obtain ⟨first, others⟩ := List.forall_mem_cons.1 short
    rw [List.length_cons, Nat.succ_mul]
    cases rest with
    | nil =>
      rw [totalSize_singleton]
      omega
    | cons next rest =>
      have := ih others
      rw [totalSize_cons_cons]
      omega

/-- Reports whose columns are in order are written, unless that takes more than a text
can hold. -/
theorem formatAll_eq {reports : List Report} (columns : ∀ report ∈ reports, 1 ≤ report.column)
    (file : SourceFile) : formatAll reports file =
      if Text.Units.maxLength < Units.length (writeAll reports file).toList then .error .excessiveWidth
      else .ok (writeAll reports file) := by
  unfold formatAll faultOfAll?
  rw [length_writeAll]
  cases found : reports.findSome? (·.fault? file file.widths) with
  | some fault =>
    -- A report that is too long by itself is too long together with the others.
    obtain ⟨report, among, faulty⟩ := List.exists_of_findSome?_eq_some found
    rw [fault?_of_column (columns report among)] at faulty
    split at faulty
    · have := size_le_totalSize among file file.widths
      cases faulty
      simp only [found]
      rw [if_pos (by omega)]
    · cases faulty
  | none =>
    simp only [found]
    by_cases long : Text.Units.maxLength < totalSize reports file file.widths
    · rw [if_pos long, if_pos long]
    · rw [if_neg long, if_neg long]

end Diagnostic.Report

end TapeMachine
