import Mathlib.Data.Nat.Digits.Defs
import TapeMachine.Proofs.ParseTree.Nodes
import TapeMachine.Proofs.Program.Walk

/-!
# What compilation keeps of a source

Of a source only its instructions matter: what it compiles to is determined by them
(`exists_compiled_of_instructions`), and so are the brackets that it is rejected for
(`about_reports`). The canonical text is a source with the same instructions, so that
it compiles to the same. Two sources with the same instructions can still fail in
different ways if the reports about one of them are too long to be written.
-/

namespace TapeMachine

/-! ## Text of instructions -/

namespace Instruction

/-- Instructions written out are read back. -/
theorem ofChars_render (program : List Instruction) :
    ofChars (render program).toList = program := by
  rw [render, String.toList_ofList, ofChars, List.filterMap_map]
  induction program with
  | nil => rfl
  | cons instruction rest ih =>
    have read : (ofChar? ∘ symbol) instruction = some instruction := ofChar?_symbol instruction
    rw [List.filterMap_cons_some read, ih]

/-- Reading and writing instructions leaves out the other characters. -/
theorem render_ofChars (text : List Char) :
    render (ofChars text) = String.ofList (text.filter fun c => (ofChar? c).isSome) := by
  rw [render]
  congr 1
  induction text with
  | nil => rfl
  | cons c rest ih =>
    cases read : ofChar? c with
    | none => rw [ofChars, List.filterMap_cons_none read, List.filter_cons_of_neg (by simp [read]),
        ← ih, ofChars]
    | some instruction =>
      rw [ofChars, List.filterMap_cons_some read, List.map_cons, symbol_of_ofChar? read,
        List.filter_cons_of_pos (by simp [read]), ← ih, ofChars]

end Instruction

/-! ## Sizes -/

namespace Program

theorem kind_of_node? {instruction : Instruction} {node : Node}
    (becomes : instruction.node? = some node) : (node.kind == .loop) = false := by
  cases instruction <;> cases becomes <;> rfl

/-- A program has a node for each instruction that is not a close, and a loop for each that
is one. -/
theorem size_of_spell? {block : Block} : ∀ {text : List Instruction}, spell? block = some text →
    size block + text.count .loopClose = text.length ∧
      countKind block .loop = text.count .loopClose := by
  induction block using Node.block_induction with
  | nil =>
    intro text spelled
    rw [spell?_nil] at spelled
    cases spelled
    simp
  | loop body rest ihBody ihRest =>
    intro text spelled
    rcases spell?_cons_cases spelled with
      ⟨instruction, _, becomes, _, _⟩ | ⟨_, inner, others, same, within, later, rfl⟩
    · cases instruction <;> cases becomes
    · cases same
      obtain ⟨sizeBody, loopsBody⟩ := ihBody within
      obtain ⟨sizeRest, loopsRest⟩ := ihRest later
      have notClose : Instruction.loopOpen ≠ .loopClose := by decide
      have isLoop : (Node.Kind.loop == Node.Kind.loop) = true := rfl
      simp only [size_loop, countKind_loop, isLoop, if_true, List.cons_append, List.length_cons,
        List.length_append, List.count_append, List.count_cons_self, List.count_cons_of_ne notClose]
      omega
  | single node rest single ih =>
    intro text spelled
    rcases spell?_cons_cases spelled with
      ⟨instruction, others, becomes, later, rfl⟩ | ⟨body, _, _, same, _, _, _⟩
    · obtain ⟨sizeRest, loopsRest⟩ := ih later
      have notClose := (Instruction.not_bracket_of_node? becomes).2
      rw [size_single single, countKind_single single, kind_of_node? becomes,
        List.count_cons_of_ne notClose, List.length_cons, loopsRest]
      refine ⟨?_, rfl⟩
      omega
    · exact absurd same (single body)

end Program

/-! ## The same instructions -/

theorem Tokens.count_eq_length (tokens : Tokens) : tokens.count = tokens.instructions.length := by
  rw [ParseTree.length_instructions]
  rfl

theorem ParseTree.Grown.count_ofTree {text : List Instruction} {trees : List Tree}
    (grown : Grown 0 text trees) :
    (Table.ofTree (.node .program 0 trees)).count + text.count .loopClose = text.length + 1 := by
  have nodes := grown.perm_nodeTokens.length_eq
  have counted := length_nodeTokens 0 text
  rw [List.length_map, Tree.length_postorders] at nodes
  rw [Table.count_ofTree, Tree.size]
  omega

/-- Balanced instructions compile to the same in every source. -/
theorem exists_compiled_of_instructions {program : List Instruction}
    (balanced : Brackets.Balanced program) (options : Optimize.Options) :
    ∃ compiled : Compiled,
      (∀ file : SourceFile, Instruction.ofChars file.text.toList = program →
        compile file options = .ok compiled) ∧
      Program.spell? compiled.unoptimized = some program ∧
      compiled.canonical = Instruction.render program ∧
      compiled.stats.tokens = program.length ∧
      compiled.stats.parseNodes + program.count .loopClose = program.length + 1 ∧
      compiled.stats.programNodes = Program.size compiled.unoptimized := by
  obtain ⟨trees, grown⟩ := ParseTree.exists_grown balanced 0
  obtain ⟨unoptimized, folded, spelled⟩ := Program.exists_folded grown
  let compiled : Compiled := {
    program := Optimize.optimize options unoptimized
    unoptimized
    canonical := Instruction.render program
    stats := {
      tokens := program.length
      parseNodes := (ParseTree.Table.ofTree (.node .program 0 trees)).count
      programNodes := Program.size unoptimized
      optimizedNodes := Program.size (Optimize.optimize options unoptimized) } }
  refine ⟨compiled, ?_, spelled, rfl, rfl, grown.count_ofTree, rfl⟩
  intro file same
  rw [← Tokens.instructions_ofSource] at same
  have made := Compiled.ofTable_eq (Tokens.ofSource file.text) options
    (Program.ofTable_ofTree folded) (ParseTree.render_of_grown grown)
  rw [Tokens.count_eq_length, same] at made
  rw [← same] at balanced grown
  exact compile_of_parse (ParseTree.parse_of_grown balanced grown) made

/-- What a compiled source keeps of its text. -/
structure SourceFile.KeptBy (file : SourceFile) (options : Optimize.Options)
    (compiled : Compiled) : Prop where
  /-- The canonical text is the text without all characters that are not instructions. -/
  canonical : compiled.canonical =
    String.ofList (file.text.toList.filter fun c => (Instruction.ofChar? c).isSome)
  /-- The program before any pass is written as the canonical text. -/
  spelled : (Program.spell? compiled.unoptimized).map Instruction.render = some compiled.canonical
  /-- The canonical text compiles to the same, under every name. -/
  again : ∀ name, compile { text := compiled.canonical, name } options = .ok compiled
  /-- The parse tree has one node more than the program, its root. -/
  root : compiled.stats.parseNodes = compiled.stats.programNodes + 1
  /-- Every token is a node of the program, or closes one of its loops. -/
  closes : compiled.stats.tokens =
    compiled.stats.programNodes + Program.countKind compiled.unoptimized .loop

theorem keptBy_of_compile {file : SourceFile} {options : Optimize.Options} {compiled : Compiled}
    (success : compile file options = .ok compiled) : file.KeptBy options compiled := by
  have balanced := (exists_compile_iff_balanced file options).1 ⟨compiled, success⟩
  obtain ⟨other, compiles, spelled, canonical, tokens, parseNodes, programNodes⟩ :=
    exists_compiled_of_instructions balanced options
  rw [compiles file rfl] at success
  cases success
  obtain ⟨size, loops⟩ := Program.size_of_spell? spelled
  refine {
    canonical := ?canonical
    spelled := ?spelled
    again := ?again
    root := ?root
    closes := ?closes }
  case canonical => rw [canonical, Instruction.render_ofChars]
  case spelled => rw [spelled, canonical, Option.map_some]
  case again =>
    intro name
    apply compiles
    rw [canonical, Instruction.ofChars_render]
  case root => omega
  case closes => omega

/-! ## Sources that fail alike -/

open Diagnostic (Report)

/-- What a report is about, without the place of it. -/
def Diagnostic.Report.about (report : Report) : Diagnostic.Code × Option Int :=
  (report.code, report.token)

/-- The brackets that a source is rejected for are those of its instructions. -/
theorem about_reports (file : SourceFile) : file.reports.map Report.about =
    (Brackets.strayCloses (Instruction.ofChars file.text.toList)).map
        (fun (id : Nat) => (.unmatchedClose, some (id : Int))) ++
      (Brackets.unclosedOpens (Instruction.ofChars file.text.toList)).map
        (fun (id : Nat) => (.unclosedOpen, some (id : Int))) := by
  rw [SourceFile.reports, ParseTree.unmatchedReports, Tokens.instructions_ofSource,
    List.map_append, List.map_map, List.map_map]
  rfl

/-- Two files compile to the same, or are rejected for the same brackets. -/
def CompileAlike (file other : SourceFile) (options : Optimize.Options) : Prop :=
  (∃ compiled, compile file options = .ok compiled ∧ compile other options = .ok compiled) ∨
    ∃ reports text reports' text', compile file options = .error (.rejected reports text) ∧
      compile other options = .error (.rejected reports' text') ∧
        reports.map Report.about = reports'.map Report.about

/-- Only the instructions of a file matter to what it compiles to or fails for. -/
def KeepsInstructions (file : SourceFile) (options : Optimize.Options) : Prop :=
  (∀ compiled, compile file options = .ok compiled → file.KeptBy options compiled) ∧
    ∀ other : SourceFile,
      Instruction.ofChars other.text.toList = Instruction.ofChars file.text.toList →
        CompileAlike file other options

/-- Files whose reports can be written are rejected with them. -/
theorem compile_of_not_balanced_of_le {file : SourceFile}
    (unbalanced : ¬ Brackets.Balanced (Instruction.ofChars file.text.toList))
    (fits : Text.Units.length (Report.writeAll file.reports file).toList ≤ Text.Units.maxLength)
    (options : Optimize.Options) : compile file options =
      .error (.rejected file.reports (Report.writeAll file.reports file)) := by
  rw [compile_of_not_balanced unbalanced, if_neg (Nat.not_lt.2 fits)]

/-- Files with the same instructions compile alike. The only exception are unbalanced
files one of which has reports that are together longer than a text can be: all that fails
for it is to put them together, and the reports are about the same brackets. -/
theorem keepsInstructions_or_overlong (file : SourceFile) (options : Optimize.Options) :
    (∀ compiled, compile file options = .ok compiled → file.KeptBy options compiled) ∧
      ∀ other : SourceFile,
        Instruction.ofChars other.text.toList = Instruction.ofChars file.text.toList →
          CompileAlike file other options ∨
            (¬ Brackets.Balanced (Instruction.ofChars file.text.toList) ∧
              file.reports.map Report.about = other.reports.map Report.about ∧
                ∃ long, (long = file ∨ long = other) ∧
                  Text.Units.maxLength <
                    Text.Units.length (Report.writeAll long.reports long).toList ∧
                  compile long options = .error (.broken .excessiveWidth)) := by
  refine ⟨fun _ => keptBy_of_compile, ?_⟩
  intro other same
  have about : file.reports.map Report.about = other.reports.map Report.about := by
    rw [about_reports, about_reports, same]
  by_cases balanced : Brackets.Balanced (Instruction.ofChars file.text.toList)
  · obtain ⟨compiled, compiles, _⟩ := exists_compiled_of_instructions balanced options
    exact .inl (.inl ⟨compiled, compiles file rfl, compiles other same⟩)
  have unbalanced : ¬ Brackets.Balanced (Instruction.ofChars other.text.toList) := by
    rwa [same]
  by_cases long : Text.Units.maxLength < Text.Units.length (Report.writeAll file.reports file).toList
  · refine .inr ⟨balanced, about, file, .inl rfl, long, ?_⟩
    rw [compile_of_not_balanced balanced, if_pos long]
  by_cases long' :
      Text.Units.maxLength < Text.Units.length (Report.writeAll other.reports other).toList
  · refine .inr ⟨balanced, about, other, .inr rfl, long', ?_⟩
    rw [compile_of_not_balanced unbalanced, if_pos long']
  · have rejected := compile_of_not_balanced_of_le balanced (Nat.not_lt.1 long) options
    have rejected' := compile_of_not_balanced_of_le unbalanced (Nat.not_lt.1 long') options
    exact .inl (.inr ⟨_, _, _, _, rejected, rejected', about⟩)

/-- A program that copies its input, with and without words around it. -/
theorem keepsInstructions_or_overlong_echo :
    Instruction.ofChars ",[.\n,]".toList = Instruction.ofChars "echo: ,[.,]".toList ∧
      ∃ compiled, compile { text := "echo: ,[.,]" } {} = .ok compiled ∧
        compile { text := ",[.\n,]" } {} = .ok compiled ∧
          SourceFile.KeptBy { text := "echo: ,[.,]" } {} compiled := by
  have same : Instruction.ofChars ",[.\n,]".toList = Instruction.ofChars "echo: ,[.,]".toList := by
    decide
  have balanced : Brackets.Balanced (Instruction.ofChars "echo: ,[.,]".toList) :=
    (Brackets.balanced_eq_true_iff _).1 (by decide)
  refine ⟨same, ?_⟩
  obtain ⟨kept, alike⟩ := keepsInstructions_or_overlong { text := "echo: ,[.,]" } {}
  rcases alike { text := ",[.\n,]" } same with (⟨compiled, success, success'⟩ | rejected) | overlong
  · exact ⟨compiled, success, success', kept compiled success⟩
  · obtain ⟨_, _, _, _, failure, _, _⟩ := rejected
    obtain ⟨compiled, success⟩ :=
      (exists_compile_iff_balanced { text := "echo: ,[.,]" } {}).2 balanced
    rw [success] at failure
    cases failure
  · exact absurd balanced overlong.1

/-! ### Closes on lines of their own -/

theorem ofChars_closes (count : Nat) :
    Instruction.ofChars (List.replicate count ']') = List.replicate count .loopClose := by
  induction count with
  | zero => rfl
  | succ count ih =>
    rw [List.replicate_succ, List.replicate_succ, ← ih]
    rfl

/-- Closes, each followed by the end of its line. -/
def closesInLines (count : Nat) : List Char :=
  (List.replicate count [']', '\n']).flatten

/-- A source of closes, each on a line of its own. -/
def closesApart (count : Nat) : SourceFile :=
  { text := String.ofList (closesInLines count) }

theorem closesInLines_succ (count : Nat) :
    closesInLines (count + 1) = ']' :: '\n' :: closesInLines count := rfl

theorem ofChars_closesInLines (count : Nat) :
    Instruction.ofChars (closesInLines count) = List.replicate count .loopClose := by
  induction count with
  | zero => rfl
  | succ count ih =>
    rw [closesInLines_succ, List.replicate_succ, ← ih]
    rfl

theorem Token.mem_scanFrom_closesInLines {line offset count : Nat} {token : Token}
    (among : token ∈ scanFrom ⟨line, 1, offset⟩ (closesInLines count)) :
    token.column = 1 ∧ (line : Int) ≤ token.line ∧ token.line < line + count := by
  induction count generalizing line offset with
  | zero => cases among
  | succ count ih =>
    have scanned : scanFrom ⟨line, 1, offset⟩ (closesInLines (count + 1)) =
        ⟨.loopClose, line, 1, offset⟩ ::
          scanFrom ⟨line + 1, 1, offset + 2⟩ (closesInLines count) := rfl
    rw [scanned] at among
    rcases List.mem_cons.1 among with rfl | later
    · exact ⟨rfl, Int.le_refl _, by simp⟩
    · obtain ⟨column, above, below⟩ := ih later
      exact ⟨column, by omega, by omega⟩

theorem length_le_of_mem_split {count : Nat} {line : List Char}
    (among : line ∈ Text.Lines.split (closesInLines count)) : Text.Units.length line ≤ 1 := by
  induction count with
  | zero =>
    obtain rfl := List.mem_singleton.1 among
    exact Nat.zero_le 1
  | succ count ih =>
    have split : Text.Lines.split (closesInLines (count + 1)) =
        [']'] :: Text.Lines.split (closesInLines count) := rfl
    rw [split] at among
    rcases List.mem_cons.1 among with rfl | later
    · exact Nat.le_refl 1
    · exact ih later

/-- Without the line that it shows, a report is as long as the number of its line makes it. -/
theorem length_bare (report : Report) (line : Int) (file : SourceFile) :
    ("\n".intercalate (Report.headline { report with line } file ++
        Report.excerpt { report with line } "" 0)).length + 5 * (toString report.line).length =
      ("\n".intercalate (report.headline file ++ report.excerpt "" 0)).length +
        5 * (toString line).length := by
  simp only [Report.headline, Report.excerpt, Report.gutter, Report.blanks, Report.message,
    String.intercalate_cons_cons, String.intercalate_singleton, List.cons_append,
    List.nil_append, String.length_append, String.length_ofList, List.length_replicate]
  omega

/-- The lines of a report about a close in the first column of a line, without the line. -/
def bareLines (line : Int) : List String :=
  Report.headline { code := .unmatchedClose, line, column := 1 } (closesApart 0) ++
    Report.excerpt { code := .unmatchedClose, line, column := 1 } "" 0

theorem unitsOf_bareLines_le {line : Int} (short : (toString line).length ≤ 5) :
    Report.unitsOf (bareLines line) ≤ 400 := by
  have first : ("\n".intercalate (bareLines 1)).length = 169 := by decide +kernel
  have one : (toString (1 : Int)).length = 1 := by decide
  have other : ("\n".intercalate (bareLines line)).length + 5 * (toString (1 : Int)).length =
      ("\n".intercalate (bareLines 1)).length + 5 * (toString line).length :=
    length_bare { code := .unmatchedClose, line := 1, column := 1 } line (closesApart 0)
  have units := Text.Units.length_le ("\n".intercalate (bareLines line)).toList
  rw [String.length_toList] at units
  rw [Report.unitsOf]
  omega

theorem reports_closesApart (count : Nat) : (closesApart count).reports =
    (List.range' 0 count).map
      (ParseTree.reportAbout (.ofSource (closesApart count).text) .unmatchedClose) := by
  have instructions : (Tokens.ofSource (closesApart count).text).instructions =
      List.replicate count .loopClose := by
    rw [Tokens.instructions_ofSource, closesApart, String.toList_ofList, ofChars_closesInLines]
  rw [SourceFile.reports, ParseTree.unmatchedReports, instructions, Brackets.strayCloses,
    Brackets.unclosedOpens, scanFrom_closes, List.append_nil, List.reverse_reverse]
  simp

theorem mem_tokens_closesApart {count : Nat} {token : Token}
    (among : token ∈ (Tokens.ofSource (closesApart count).text).toList) :
    token.column = 1 ∧ 1 ≤ token.line ∧ token.line < 1 + count := by
  have scanned : (Tokens.ofSource (closesApart count).text).toList =
      Token.scanFrom {} (closesInLines count) := by
    show Token.scan (String.ofList (closesInLines count)).toList = _
    rw [String.toList_ofList]
    cases count <;> rfl
  rw [scanned] at among
  exact Token.mem_scanFrom_closesInLines among

theorem width_le_of_entry? {count width : Nat} {number : Int}
    (shown : Text.Lines.entry? (closesApart count).widths number = some width) : width ≤ 1 := by
  unfold Text.Lines.entry? at shown
  split at shown
  · cases shown
  · rw [← Array.getElem?_toList] at shown
    have among := List.mem_of_getElem? shown
    rw [SourceFile.widths, closesApart, String.toList_ofList] at among
    obtain ⟨line, listed, rfl⟩ := List.mem_map.1 among
    exact length_le_of_mem_split listed

/-- A report about a close in the first column shows no more than the close. -/
theorem size_le_of_column {report : Report} (code : report.code = .unmatchedClose)
    (args : report.args = none) (column : report.column = 1)
    (short : (toString report.line).length ≤ 5) (count : Nat) :
    report.size (closesApart count) (closesApart count).widths ≤ 401 := by
  obtain ⟨_, line, _, token, _⟩ := report
  subst code args column
  have bare : Report.unitsOf (bareLines line) ≤ 400 := unitsOf_bareLines_le short
  unfold Report.size
  cases shown : Text.Lines.entry? (closesApart count).widths line with
  | none =>
    have split : Report.unitsOf (bareLines line) = _ :=
      Report.unitsOf_append (by simp [Report.headline]) (by simp [Report.excerpt])
    rw [split] at bare
    exact Nat.le_trans (Nat.le_trans (Nat.le_add_right _ _) (Nat.le_add_right _ _))
      (Nat.le_succ_of_le bare)
  | some width =>
    have narrow := width_le_of_entry? shown
    show Report.unitsOf (bareLines line) + width + 0 ≤ 401
    omega

/-- So few closes can all be reported. -/
theorem compile_closesApart {count : Nat} (some : 0 < count) (few : count < 99999)
    (options : Optimize.Options) : ∃ text, compile (closesApart count) options =
      .error (.rejected (closesApart count).reports text) := by
  have listed := reports_closesApart count
  have unbalanced :
      ¬ Brackets.Balanced (Instruction.ofChars (closesApart count).text.toList) := by
    intro balanced
    rw [← Tokens.instructions_ofSource, ← ParseTree.unmatchedReports_eq_nil_iff] at balanced
    have none : (closesApart count).reports = [] := balanced
    rw [listed, List.map_eq_nil_iff, List.range'_eq_nil_iff] at none
    omega
  have short : ∀ report ∈ (closesApart count).reports,
      report.size (closesApart count) (closesApart count).widths ≤ 401 := by
    intro report among
    obtain ⟨code, id, rfl, inside, _⟩ := ParseTree.mem_unmatchedReports among
    obtain ⟨column, above, below⟩ :=
      mem_tokens_closesApart (ParseTree.getD_mem_toList inside)
    rw [listed] at among
    obtain ⟨_, _, same⟩ := List.mem_map.1 among
    obtain rfl : Diagnostic.Code.unmatchedClose = code := congrArg Report.code same
    refine size_le_of_column rfl rfl column ?_ count
    obtain ⟨line, isLine⟩ := Int.eq_ofNat_of_zero_le (Int.le_trans Int.one_nonneg above)
    rw [isLine] at below
    have digits : (toString line).length ≤ 5 := Nat.repr_length line 5 (by decide) (by omega)
    show (toString (Token.line _)).length ≤ 5
    rw [isLine]
    exact digits
  have total := Report.totalSize_le short
  rw [← Report.length_writeAll] at total
  have number : (closesApart count).reports.length = count := by
    rw [listed, List.length_map, List.length_range']
  rw [number] at total
  refine ⟨_, compile_of_not_balanced_of_le unbalanced ?_ options⟩
  show _ ≤ 536870888
  omega

/-- Closes on one line are too many to be reported, and on lines of their own they are
not, so that the same instructions fail in two ways. -/
theorem not_keepsInstructions_closesOnly :
    Instruction.ofChars (closesApart 19000).text.toList =
        Instruction.ofChars (closesOnly 19000).text.toList ∧
      compile (closesOnly 19000) {} = .error (.broken .excessiveWidth) ∧
        (∃ text, compile (closesApart 19000) {} =
          .error (.rejected (closesApart 19000).reports text)) ∧
          ¬ KeepsInstructions (closesOnly 19000) {} := by
  have same : Instruction.ofChars (closesApart 19000).text.toList =
      Instruction.ofChars (closesOnly 19000).text.toList := by
    rw [closesApart, closesOnly, String.toList_ofList, String.toList_ofList,
      ofChars_closesInLines, ofChars_closes]
  have overlong : compile (closesOnly 19000) {} = .error (.broken .excessiveWidth) :=
    compile_closesOnly rfl (by decide) {}
  refine ⟨same, overlong, compile_closesApart (by decide) (by decide) {}, ?_⟩
  rintro ⟨_, alike⟩
  rcases alike (closesApart 19000) same with ⟨_, success, _⟩ | ⟨_, _, _, _, rejected, _, _⟩
  · rw [overlong] at success
    cases success
  · rw [overlong] at rejected
    cases rejected

end TapeMachine
