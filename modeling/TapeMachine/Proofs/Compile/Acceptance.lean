import Mathlib.Tactic.Linarith
import TapeMachine.Compile
import TapeMachine.Proofs.Brackets.Unmatched
import TapeMachine.Proofs.Diagnostic.Length
import TapeMachine.Proofs.Program.Spelling

/-!
# What compiles

A source compiles exactly if its brackets match, and no fault of the tables is ever
met. A source that does not compile is rejected with a report for each unmatched
bracket, provided that all of these reports fit into one text: each of them shows a
whole line of the source, so their length grows with the square of its length.
-/

namespace TapeMachine

/-! ## Balanced sources -/

namespace ParseTree

/-- How an entry is put in front of instructions, given how its contents are. -/
def spellEntry (entry : Entry) (contents : List (List Instruction → List Instruction)) :
    List Instruction → List Instruction :=
  entry.kind.spell fun rest => contents.foldr (fun child later => child later) rest

theorem Kind.spell_of_ofInstruction? {instruction : Instruction} {kind : Kind}
    (isLeaf : ofInstruction? instruction = some kind)
    (contents : List Instruction → List Instruction) (rest : List Instruction) :
    kind.spell contents rest = instruction :: rest := by
  cases instruction <;> cases isLeaf <;> rfl

/-- Folding the trees of a text gives back the text. -/
theorem exists_spelling {token : Nat} {text : List Instruction} {trees : List Tree}
    (grown : Grown token text trees) :
    ∃ spellings, Table.Folded (fun entry values => .ok (spellEntry entry values)) trees spellings ∧
      ∀ rest, spellings.foldr (fun child later => child later) rest = text ++ rest := by
  induction grown with
  | nil => exact ⟨[], .nil, fun _ => rfl⟩
  | @leaf token instruction kind rest trees isLeaf _ ih =>
    obtain ⟨later, folded, spelled⟩ := ih
    refine ⟨_, .cons .nil rfl folded, ?_⟩
    intro behind
    rw [List.foldr_cons, spelled]
    exact Kind.spell_of_ofInstruction? isLeaf _ _
  | @loop token body rest inner trees _ _ ihBody ihRest =>
    obtain ⟨contents, foldedBody, spelledBody⟩ := ihBody
    obtain ⟨later, folded, spelled⟩ := ihRest
    refine ⟨_, .cons foldedBody rfl folded, ?_⟩
    intro behind
    rw [List.foldr_cons, spelled]
    show Instruction.loopOpen :: contents.foldr _ (.loopClose :: (rest ++ behind)) = _
    rw [spelledBody]
    simp

/-- The table of a text is written out as the text. -/
theorem render_of_grown {text : List Instruction} {trees : List Tree} {token : Nat}
    (grown : Grown token text trees) :
    (Table.ofTree (.node .program 0 trees)).render (Table.ofTree (.node .program 0 trees)).root =
      .ok (Instruction.render text) := by
  obtain ⟨spellings, folded, spelled⟩ := exists_spelling grown
  have has := Table.hasAt_ofTree (.node .program 0 trees)
  have found := Table.foldM_of_hasAt has (.cons folded rfl .nil)
  rw [← Table.root_ofTree] at found
  have found : (Table.ofTree (.node .program 0 trees)).fold spellEntry
      (Table.ofTree (.node .program 0 trees)).root = .ok _ := found
  have whole : spellEntry (Tree.node .program 0 trees).rootEntry spellings [] = text := by
    show spellings.foldr _ [] = text
    rw [spelled, List.append_nil]
  unfold spellEntry at found
  rw [Table.render, Table.instructions, found]
  show Except.ok (Instruction.render (spellEntry _ spellings [])) = _
  rw [whole]

end ParseTree

theorem Compiled.ofTable_eq (tokens : Tokens) {table : ParseTree.Table}
    (options : Optimize.Options) {unoptimized : Block} {canonical : String}
    (built : Program.ofTable table table.root = .ok unoptimized)
    (rendered : table.render table.root = .ok canonical) :
    Compiled.ofTable tokens table options = .ok {
      program := Optimize.optimize options unoptimized, unoptimized, canonical
      stats := {
        tokens := tokens.count
        parseNodes := table.count
        programNodes := Program.size unoptimized
        optimizedNodes := Program.size (Optimize.optimize options unoptimized) } } := by
  rw [Compiled.ofTable, built, rendered]
  rfl

theorem compile_of_parse {file : SourceFile} {options : Optimize.Options}
    {table : ParseTree.Table} {compiled : Compiled}
    (parsed : ParseTree.parse (.ofSource file.text) = .ok table)
    (made : Compiled.ofTable (.ofSource file.text) table options = .ok compiled) :
    compile file options = .ok compiled := by
  rw [compile, parsed]
  show Except.mapError _ (Compiled.ofTable _ _ _) = _
  rw [made]
  rfl

theorem compile_of_rejection {file : SourceFile} {rejection : ParseTree.Rejection}
    (rejected : ParseTree.parse (.ofSource file.text) = .error rejection)
    (options : Optimize.Options) : compile file options = .error (.ofRejection file rejection) := by
  rw [compile, rejected]
  rfl

/-- A source whose brackets match compiles to a program that spells it. -/
theorem exists_compiled (file : SourceFile)
    (balanced : Brackets.Balanced (Instruction.ofChars file.text.toList))
    (options : Optimize.Options) :
    ∃ compiled, compile file options = .ok compiled ∧
      Program.spell? compiled.unoptimized = some (Instruction.ofChars file.text.toList) ∧
        compiled.program = Optimize.optimize options compiled.unoptimized ∧
          compiled.canonical = Instruction.render (Instruction.ofChars file.text.toList) := by
  rw [← Tokens.instructions_ofSource] at balanced ⊢
  obtain ⟨trees, grown⟩ := ParseTree.exists_grown balanced 0
  obtain ⟨program, folded, spelled⟩ := Program.exists_folded grown
  have made := Compiled.ofTable_eq (Tokens.ofSource file.text) options
    (Program.ofTable_ofTree folded) (ParseTree.render_of_grown grown)
  exact ⟨_, compile_of_parse (ParseTree.parse_of_grown balanced grown) made, spelled, rfl, rfl⟩

/-- What compiles is a program that spells the source, and its optimized form. -/
theorem eq_of_compile {file : SourceFile} {options : Optimize.Options} {compiled : Compiled}
    (compiles : compile file options = .ok compiled) {program : Block}
    (spelled : Program.spell? program = some (Instruction.ofChars file.text.toList)) :
    compiled.unoptimized = program ∧ compiled.program = Optimize.optimize options program := by
  obtain ⟨other, compiles', spelled', optimized, _⟩ :=
    exists_compiled file (Program.balanced_of_spell? spelled) options
  rw [compiles] at compiles'
  cases compiles'
  have same := Program.eq_of_spell? spelled spelled'
  exact ⟨same, by rw [optimized, same]⟩

/-! ## Rejected sources -/

namespace ParseTree

open Diagnostic

/-- The report about a numbered token. -/
def reportAbout (tokens : Tokens) (code : Code) (id : Nat) : Report :=
  let token := tokens.toList.getD id default
  { code, line := token.line, column := token.column, token := some (id : Int) }

/-- The reports about all unmatched brackets: first the closes, then the opens. -/
def unmatchedReports (tokens : Tokens) : List Report :=
  (Brackets.strayCloses tokens.instructions).map (reportAbout tokens .unmatchedClose) ++
    (Brackets.unclosedOpens tokens.instructions).map (reportAbout tokens .unclosedOpen)

theorem length_instructions (tokens : Tokens) : tokens.instructions.length = tokens.toList.length :=
  List.length_map ..

theorem getD_mem_toList {tokens : Tokens} {id : Nat} (inside : id < tokens.toList.length) :
    tokens.toList.getD id default ∈ tokens.toList := by
  rw [List.getD_eq_getElem?_getD, List.getElem?_eq_getElem inside]
  exact List.getElem_mem inside

theorem atToken_eq {tokens : Tokens} {id : Nat} (inside : id < tokens.toList.length)
    (code : Code) : Report.atToken tokens code id = .ok (reportAbout tokens code id) := by
  have found : tokens.entries[id]? = some (tokens.toList.getD id default) := by
    rw [← Array.getElem?_toList, List.getD_eq_getElem?_getD]
    show tokens.toList[id]? = _
    rw [List.getElem?_eq_getElem inside]
    rfl
  have read : tokens.get id = .ok (tokens.toList.getD id default) := by
    show tokens.get (Int.ofNat id) = _
    simp only [Tokens.get, found]
  rw [Report.atToken, read]
  rfl

theorem mapM_atToken {tokens : Tokens} {ids : List Nat}
    (inside : ∀ id ∈ ids, id < tokens.toList.length) (code : Code) :
    ids.mapM (fun (id : Nat) => Report.atToken tokens code id) =
      .ok (ids.map (reportAbout tokens code)) := by
  induction ids with
  | nil => rfl
  | cons id rest ih =>
    obtain ⟨first, others⟩ := List.forall_mem_cons.1 inside
    rw [List.mapM_cons, atToken_eq first, ih others]
    rfl

theorem lt_of_stray {tokens : Tokens} {id : Nat}
    (stray : id ∈ Brackets.strayCloses tokens.instructions) : id < tokens.toList.length := by
  rw [← length_instructions]
  exact Brackets.lt_of_mem_strayCloses stray

theorem lt_of_unclosed {tokens : Tokens} {id : Nat}
    (unclosed : id ∈ Brackets.unclosedOpens tokens.instructions) : id < tokens.toList.length := by
  rw [← length_instructions]
  exact Brackets.lt_of_mem_unclosedOpens unclosed

/-- No bracket is reported that is not a token. -/
theorem bracketReports_eq (tokens : Tokens) :
    bracketReports tokens = .ok (unmatchedReports tokens) := by
  rw [bracketReports, mapM_atToken (fun _ => lt_of_stray), mapM_atToken (fun _ => lt_of_unclosed)]
  rfl

theorem unmatchedReports_eq_nil_iff (tokens : Tokens) :
    unmatchedReports tokens = [] ↔ Brackets.Balanced tokens.instructions := by
  rw [← Brackets.balanced_eq_true_iff, Brackets.balanced, unmatchedReports]
  simp

theorem mem_unmatchedReports {tokens : Tokens} {report : Report}
    (among : report ∈ unmatchedReports tokens) :
    ∃ code id, report = reportAbout tokens code id ∧ id < tokens.toList.length ∧
      (code = .unmatchedClose ∨ code = .unclosedOpen) := by
  rcases List.mem_append.1 among with close | opening
  · obtain ⟨id, stray, rfl⟩ := List.mem_map.1 close
    exact ⟨_, id, rfl, lt_of_stray stray, .inl rfl⟩
  · obtain ⟨id, unclosed, rfl⟩ := List.mem_map.1 opening
    exact ⟨_, id, rfl, lt_of_unclosed unclosed, .inr rfl⟩

theorem parse_of_not_balanced {tokens : Tokens}
    (unbalanced : ¬ Brackets.Balanced tokens.instructions) :
    parse tokens = .error (.faulty (unmatchedReports tokens)) := by
  have some : (unmatchedReports tokens).isEmpty = false := by
    rw [List.isEmpty_eq_false_iff]
    exact mt (unmatchedReports_eq_nil_iff tokens).1 unbalanced
  rw [parse, bracketReports_eq]
  show (if (unmatchedReports tokens).isEmpty then _ else _) = _
  rw [some]
  rfl

end ParseTree

/-! ### Columns -/

theorem Token.one_le_column_of_mem_scanFrom {place : Place} (column : 1 ≤ place.column)
    {text : List Char} {token : Token} (among : token ∈ scanFrom place text) :
    1 ≤ token.column := by
  induction text generalizing place with
  | nil => cases among
  | cons c rest ih =>
    have next : 1 ≤ (place.after c).column := by
      unfold Place.after
      split
      · exact Nat.le_refl 1
      · exact Nat.le_succ_of_le column
    rw [scanFrom] at among
    split at among
    · rcases List.mem_cons.1 among with rfl | later
      · exact Int.ofNat_le.2 column
      · exact ih next later
    · exact ih next among

theorem Tokens.one_le_column {source : String} {token : Token}
    (among : token ∈ (ofSource source).toList) : 1 ≤ token.column := by
  have among : token ∈ Token.scan source.toList := among
  unfold Token.scan at among
  split at among
  · exact Token.one_le_column_of_mem_scanFrom (Nat.le_refl 1) among
  · exact Token.one_le_column_of_mem_scanFrom (Nat.le_refl 1) among

/-- The reports about a source stand at columns that exist. -/
theorem ParseTree.one_le_column_of_mem {source : String} {report : Diagnostic.Report}
    (among : report ∈ unmatchedReports (.ofSource source)) : 1 ≤ report.column := by
  obtain ⟨code, id, rfl, inside, _⟩ := mem_unmatchedReports among
  exact Tokens.one_le_column (getD_mem_toList inside)

/-! ## Acceptance -/

section Acceptance

open Diagnostic (Report)

/-- The reports about the unmatched brackets of a file. -/
def SourceFile.reports (file : SourceFile) : List Report :=
  ParseTree.unmatchedReports (.ofSource file.text)

theorem compile_of_not_balanced {file : SourceFile}
    (unbalanced : ¬ Brackets.Balanced (Instruction.ofChars file.text.toList))
    (options : Optimize.Options) :
    compile file options = .error
      (if Text.Units.maxLength < Text.Units.length (Report.writeAll file.reports file).toList then
        .broken .excessiveWidth
      else .rejected file.reports (Report.writeAll file.reports file)) := by
  rw [← Tokens.instructions_ofSource] at unbalanced
  have columns : ∀ report ∈ file.reports, 1 ≤ report.column :=
    fun _ => ParseTree.one_le_column_of_mem
  have written := Report.formatAll_eq columns file
  rw [compile_of_rejection (ParseTree.parse_of_not_balanced unbalanced) options]
  unfold SourceFile.reports at written ⊢
  rw [CompileError.ofRejection, written]
  by_cases overlong : Text.Units.maxLength < Text.Units.length
      (Report.writeAll (ParseTree.unmatchedReports (.ofSource file.text)) file).toList
  · rw [if_pos overlong, if_pos overlong]
  · rw [if_neg overlong, if_neg overlong]

/-- A file compiles exactly if its brackets match. -/
theorem exists_compile_iff_balanced (file : SourceFile) (options : Optimize.Options) :
    (∃ compiled, compile file options = .ok compiled) ↔
      Brackets.Balanced (Instruction.ofChars file.text.toList) := by
  constructor
  · rintro ⟨compiled, success⟩
    by_contra unbalanced
    rw [compile_of_not_balanced unbalanced] at success
    split at success <;> cases success
  · intro balanced
    obtain ⟨compiled, success, _⟩ := exists_compiled file balanced options
    exact ⟨compiled, success⟩

/-- The file compiles if its brackets match, and is rejected with reports about
unmatched brackets if they do not. -/
def AcceptsExactlyBalanced (file : SourceFile) (options : Optimize.Options) : Prop :=
  (Brackets.Balanced (Instruction.ofChars file.text.toList) →
    ∃ compiled, compile file options = .ok compiled) ∧
  (¬ Brackets.Balanced (Instruction.ofChars file.text.toList) →
    ∃ reports text, compile file options = .error (.rejected reports text) ∧ reports ≠ [] ∧
      ∀ report ∈ reports, report.code = .unmatchedClose ∨ report.code = .unclosedOpen)

/-- Files are accepted exactly if they are balanced. The only exception is an unbalanced
file whose reports are together longer than a text can be, and all that fails for it is
to put them together. -/
theorem acceptsExactlyBalanced_or_overlong (file : SourceFile) (options : Optimize.Options) :
    AcceptsExactlyBalanced file options ∨
      (¬ Brackets.Balanced (Instruction.ofChars file.text.toList) ∧
        Text.Units.maxLength < Text.Units.length (Report.writeAll file.reports file).toList ∧
          compile file options = .error (.broken .excessiveWidth)) := by
  by_cases balanced : Brackets.Balanced (Instruction.ofChars file.text.toList)
  · obtain ⟨compiled, success, _⟩ := exists_compiled file balanced options
    exact .inl ⟨fun _ => ⟨compiled, success⟩, fun unbalanced => absurd balanced unbalanced⟩
  have failure := compile_of_not_balanced balanced options
  split at failure
  · next overlong => exact .inr ⟨balanced, overlong, failure⟩
  · refine .inl ⟨fun matched => absurd matched balanced, fun _ => ⟨_, _, failure, ?_, ?_⟩⟩
    · rw [← Tokens.instructions_ofSource] at balanced
      exact mt (ParseTree.unmatchedReports_eq_nil_iff _).1 balanced
    · intro report among
      obtain ⟨code, id, rfl, _, unmatched⟩ := ParseTree.mem_unmatchedReports among
      exact unmatched

/-! ### Too many closes -/

/-- A source of nothing but closes. -/
def closesOnly (count : Nat) : SourceFile :=
  { text := String.ofList (List.replicate count ']') }

theorem scanFrom_closes (count : Nat) (stray : List Nat) (position : Nat) :
    Brackets.scanFrom ⟨[], stray⟩ position (List.replicate count .loopClose) =
      ⟨[], (List.range' position count).reverse ++ stray⟩ := by
  induction count generalizing stray position with
  | zero => rfl
  | succ count ih =>
    rw [List.replicate_succ, Brackets.scanFrom]
    show Brackets.scanFrom ⟨[], position :: stray⟩ (position + 1) _ = _
    rw [ih, List.range'_succ]
    simp

theorem Token.scanFrom_closes (place : Place) (count : Nat) :
    scanFrom place (List.replicate count ']') = (List.range count).map fun index =>
      ⟨.loopClose, place.line, place.column + index, place.offset + index⟩ := by
  induction count generalizing place with
  | zero => rfl
  | succ count ih =>
    have after : place.after ']' = ⟨place.line, place.column + 1, place.offset + 1⟩ := rfl
    rw [List.replicate_succ, List.range_succ_eq_map, List.map_cons, List.map_map]
    show place.token .loopClose :: scanFrom (place.after ']') _ = _
    rw [ih, after]
    refine List.cons_eq_cons.2 ⟨by simp [Place.token], List.map_congr_left ?_⟩
    intro index _
    simp only [Function.comp_apply]
    congr 1 <;> omega

/-- The report about the close at an index of the source. -/
def strayReport (index : Nat) : Report :=
  { code := .unmatchedClose, line := 1, column := 1 + index, token := some (index : Int) }

theorem reports_closesOnly {file : SourceFile} {count : Nat}
    (closes : file.text = (closesOnly count).text) :
    file.reports = (List.range' 0 count).map strayReport := by
  have tokens : (Tokens.ofSource (closesOnly count).text).toList =
      (List.range count).map fun index => ⟨.loopClose, 1, 1 + index, 0 + index⟩ := by
    show Token.scan (String.ofList (List.replicate count ']')).toList = _
    rw [String.toList_ofList]
    refine Eq.trans ?_ (Token.scanFrom_closes {} count)
    cases count <;> rfl
  have instructions : (Tokens.ofSource (closesOnly count).text).instructions =
      List.replicate count .loopClose := by
    rw [Tokens.instructions, tokens, List.map_map]
    show (List.range count).map (fun _ => Instruction.loopClose) = _
    rw [List.map_const', List.length_range]
  rw [SourceFile.reports, closes, ParseTree.unmatchedReports, instructions, Brackets.strayCloses,
    Brackets.unclosedOpens, scanFrom_closes]
  rw [List.append_nil, List.reverse_reverse, List.reverse_nil, List.map_nil, List.append_nil]
  apply List.map_congr_left
  intro index among
  have inside : index < count := by simpa using among
  rw [ParseTree.reportAbout, tokens]
  simp [strayReport, inside]

theorem widths_closesOnly {file : SourceFile} {count : Nat}
    (closes : file.text = (closesOnly count).text) : file.widths = #[count] := by
  have line (count : Nat) :
      Text.Lines.split (List.replicate count ']') = [List.replicate count ']'] := by
    induction count with
    | zero => rfl
    | succ count ih =>
      show Text.Lines.extend ']' (Text.Lines.split (List.replicate count ']')) = _
      rw [ih]
      rfl
  have unit : Text.Units.ofChar ']' = 1 := rfl
  rw [SourceFile.widths, closes, closesOnly, String.toList_ofList, line, List.map_singleton,
    Text.Units.length_replicate, unit, Nat.mul_one]

theorem le_size_strayReport {file : SourceFile} {count : Nat}
    (closes : file.text = (closesOnly count).text) (index : Nat) :
    count + index ≤ (strayReport index).size file file.widths := by
  have shown : Text.Lines.entry? file.widths (strayReport index).line = some count := by
    rw [widths_closesOnly closes]
    rfl
  have indent : (strayReport index).indent = index := by
    simp [Report.indent, strayReport]
  simp only [Report.size, shown, indent]
  omega

/-- Each report shows all closes and as many blanks as there are closes before its own. -/
theorem le_totalSize_strayReports {file : SourceFile} {count : Nat}
    (closes : file.text = (closesOnly count).text) (start more : Nat) :
    more * (2 * count + 2 * start + more) ≤
      2 * Report.totalSize ((List.range' start more).map strayReport) file file.widths + more := by
  induction more generalizing start with
  | zero => simp
  | succ more ih =>
    have first := le_size_strayReport closes start
    obtain _ | more := more
    · rw [List.range'_succ, List.range'_zero, List.map_singleton, Report.totalSize_singleton]
      omega
    · have rest := ih (start + 1)
      rw [List.range'_succ, List.map_cons] at rest ⊢
      rw [List.range'_succ, List.map_cons, Report.totalSize_cons_cons]
      nlinarith

/-- So many closes are more than can be reported, whatever the file is called. -/
theorem compile_closesOnly {file : SourceFile} {count : Nat}
    (closes : file.text = (closesOnly count).text)
    (many : 2 * Text.Units.maxLength + count < count * (3 * count)) (options : Optimize.Options) :
    compile file options = .error (.broken .excessiveWidth) := by
  have long := le_totalSize_strayReports closes 0 count
  rw [← reports_closesOnly closes, ← Report.length_writeAll] at long
  have overlong : Text.Units.maxLength <
      Text.Units.length (Report.writeAll file.reports file).toList := by
    have width : 2 * count + 2 * 0 + count = 3 * count := by omega
    rw [width] at long
    omega
  have unbalanced : ¬ Brackets.Balanced (Instruction.ofChars file.text.toList) := by
    intro balanced
    rw [← Tokens.instructions_ofSource, ← ParseTree.unmatchedReports_eq_nil_iff] at balanced
    have none : file.reports = [] := balanced
    rw [none] at overlong
    exact absurd overlong (Nat.not_lt_zero _)
  rw [compile_of_not_balanced unbalanced options, if_pos overlong]

theorem not_acceptsExactlyBalanced_closesOnly :
    ¬ AcceptsExactlyBalanced (closesOnly 19000) {} := by
  have failure : compile (closesOnly 19000) {} = .error (.broken .excessiveWidth) :=
    compile_closesOnly rfl (by decide) {}
  rintro ⟨accepted, rejected⟩
  by_cases balanced : Brackets.Balanced (Instruction.ofChars (closesOnly 19000).text.toList)
  · obtain ⟨compiled, success⟩ := accepted balanced
    rw [failure] at success
    cases success
  · obtain ⟨reports, text, other, _⟩ := rejected balanced
    rw [failure] at other
    cases other

end Acceptance

end TapeMachine
