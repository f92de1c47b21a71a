import TapeMachine.Diagnostic.Catalog
import TapeMachine.Source.File
import TapeMachine.Token

/-!
# Reports

A report is a diagnostic about a place in a source file. It is written with an
excerpt: the line it is about and a caret under the column.
-/

namespace TapeMachine.Diagnostic

/-- A diagnostic at a place. -/
structure Report where
  code : Code
  line : Int
  column : Int
  /-- The token the report is about, if it is about one. -/
  token : Option Int := none
  args : Option Text.Template.Args := none
  deriving DecidableEq, Repr

namespace Report

/-- A report at the place of a numbered token. -/
def atToken (tokens : Tokens) (code : Code) (id : Int)
    (args : Option Text.Template.Args := none) : Except StructureError Report := do
  let token ← tokens.get id
  return { code, line := token.line, column := token.column, token := some id, args }

/-- The message with the values filled in. -/
def message (report : Report) : String :=
  Text.Template.interpolate report.code.entry.message report.args

/-- Whether the report is an error. -/
def isError (report : Report) : Bool :=
  report.code.entry.severity == .error

/-- Blanks in a row. -/
def blanks (count : Nat) : String :=
  String.ofList (List.replicate count ' ')

/-- The empty margin beside a line with the given number. -/
def gutter (line : Int) : String :=
  " " ++ blanks (toString line).length ++ " | "

/-- The first two lines of a report: what is wrong and where. -/
def headline (report : Report) (file : SourceFile) : List String :=
  [report.code.entry.severity.label ++ "[" ++ report.code.name ++ "]: " ++ report.message,
   "  --> " ++ file.name ++ ":" ++ toString report.line ++ ":" ++ toString report.column]

/-- The line of source with a caret below it that stands `indent` blanks from the
margin, and the suggestion. -/
def excerpt (report : Report) (sourceLine : String) (indent : Nat) : List String :=
  let margin := gutter report.line
  [margin,
   " " ++ toString report.line ++ " | " ++ sourceLine,
   margin ++ blanks indent ++ "^",
   margin,
   "   = help: " ++ Text.Template.interpolate report.code.entry.suggestion report.args]

/-- The blanks in front of the caret. -/
def indent (report : Report) : Nat :=
  (report.column - 1).toNat

/-- The number of UTF-16 units of lines that are put below each other. -/
def unitsOf (lines : List String) : Nat :=
  Text.Units.length ("\n".intercalate lines).toList

/-- The number of UTF-16 units of a report, given those of each line of the file.
The line of source and the blanks in front of the caret are counted and not
written. -/
def size (report : Report) (file : SourceFile) (widths : Array Nat) : Nat :=
  match Text.Lines.entry? widths report.line with
  | none => unitsOf (report.headline file)
  | some width => unitsOf (report.headline file ++ report.excerpt "" 0) + width + report.indent

/-- What keeps a report from being written: a column below 1 in a line that the
file has, or its length. -/
def fault? (report : Report) (file : SourceFile) (widths : Array Nat) : Option StructureError :=
  if report.column < 1 ∧ (Text.Lines.entry? widths report.line).isSome then
    some (.negativeWidth (report.column - 1))
  else if Text.Units.maxLength < report.size file widths then some .excessiveWidth
  else none

/-- The lines of a report. There is no excerpt for a line that the file does
not have. -/
def lines (report : Report) (file : SourceFile) : List String :=
  match file.line? report.line with
  | none => report.headline file
  | some sourceLine => report.headline file ++ report.excerpt sourceLine report.indent

/-- A report written out. -/
def format (report : Report) (file : SourceFile) : Except StructureError String :=
  match report.fault? file file.widths with
  | some fault => .error fault
  | none => .ok ("\n".intercalate (report.lines file))

/-- The number of UTF-16 units of reports with an empty line between two. -/
def totalSize (reports : List Report) (file : SourceFile) (widths : Array Nat) : Nat :=
  reports.foldl (fun total report => total + report.size file widths) (2 * (reports.length - 1))

/-- What keeps reports from being written: the first fault of one of them, or
their length taken together. -/
def faultOfAll? (reports : List Report) (file : SourceFile) : Option StructureError :=
  let widths := file.widths
  match reports.findSome? (·.fault? file widths) with
  | some fault => some fault
  | none =>
    if Text.Units.maxLength < totalSize reports file widths then some .excessiveWidth else none

/-- Reports below each other, an empty line between two. -/
def writeAll (reports : List Report) (file : SourceFile) : String :=
  "\n\n".intercalate (reports.map fun report => "\n".intercalate (report.lines file))

/-- Reports written out in order, if there is a text that long. -/
def formatAll (reports : List Report) (file : SourceFile) : Except StructureError String :=
  match faultOfAll? reports file with
  | some fault => .error fault
  | none => .ok (writeAll reports file)

end Report

end TapeMachine.Diagnostic
