import TapeMachine.Text.Template

/-!
# Diagnostic catalog

Every message that the toolchain words itself has a code and one entry in the
catalog. Messages and suggestions are templates.
-/

namespace TapeMachine.Diagnostic

/-- How serious a diagnostic is. -/
inductive Severity where
  | error
  | warning
  | note
  deriving DecidableEq, Repr

/-- The number of a severity. -/
def Severity.number : Severity → Nat
  | .error => 0
  | .warning => 1
  | .note => 2

/-- The word a report opens with. -/
def Severity.label : Severity → String
  | .error => "error"
  | .warning => "warning"
  | .note => "note"

/-- The diagnostics, by what they complain about. -/
inductive Code where
  | unmatchedClose
  | unclosedOpen
  | grammarMismatch
  | pointerUnderflow
  | aborted
  | fileNotFound
  | fileUnreadable
  | invalidOption
  | unexpectedFailure
  deriving DecidableEq, Repr

/-- What the catalog says about one code. -/
structure Entry where
  code : String
  severity : Severity := .error
  /-- A template. -/
  message : String
  /-- A longer explanation. -/
  description : String
  /-- A template. -/
  suggestion : String
  deriving DecidableEq, Repr

namespace Code

/-- All codes in the order of the catalog. -/
def all : List Code :=
  [.unmatchedClose, .unclosedOpen, .grammarMismatch, .pointerUnderflow, .aborted,
   .fileNotFound, .fileUnreadable, .invalidOption, .unexpectedFailure]

/-- The catalog. -/
def entry : Code → Entry
  | .unmatchedClose =>
    { code := "TPPARSE001"
      message := "unmatched ']': no open loop to close"
      description := "This `]` closes a loop that was never opened."
      suggestion := "Remove the `]`, or add the `[` that should start this loop." }
  | .unclosedOpen =>
    { code := "TPPARSE002"
      message := "unclosed '[': loop opened here is never closed"
      description := "This `[` starts a loop that is still open when the program ends."
      suggestion := "Add a matching `]` to close the loop." }
  | .grammarMismatch =>
    { code := "TPPARSE003"
      message := "syntax error: \x7bdetail\x7d"
      description := "The instruction stream didn't match the program grammar."
      suggestion := "This usually means unbalanced brackets; check every `[` has a `]`." }
  | .pointerUnderflow =>
    { code := "TPRUN001"
      message := "pointer underflow: cell \x7bpointer\x7d is left of the tape start"
      description := "The program addressed a cell to the left of the first cell of the tape."
      suggestion := "Move right before moving left; the tape starts at cell 0." }
  | .aborted =>
    { code := "TPRUN002"
      message := "execution aborted at cell \x7bpointer\x7d"
      description := "The run was stopped by its abort hook (step limit, timeout or interrupt)."
      suggestion := "Raise --max-steps or --timeout if the program needs longer to finish." }
  | .fileNotFound =>
    { code := "TPCLI001"
      message := "file not found: \x7bpath\x7d"
      description := "Tapeworm couldn't find a file at this path."
      suggestion := "Double-check the path and make sure the file exists." }
  | .fileUnreadable =>
    { code := "TPCLI002"
      message := "cannot read file: \x7breason\x7d"
      description := "The file exists but Tapeworm can't open it."
      suggestion := "Check that you have read permission for this file." }
  | .invalidOption =>
    { code := "TPCLI003"
      message := "invalid value for --\x7bflag\x7d: \x7bvalue\x7d"
      description := "A command line option was given a value Tapeworm does not accept."
      suggestion := "\x7bhint\x7d" }
  | .unexpectedFailure =>
    { code := "TPCLI004"
      message := "unexpected failure: \x7breason\x7d"
      description := "Something unexpected went wrong while running the program."
      suggestion := "Check your source file, or report this if it seems like a bug." }

/-- The written form of a code. -/
def name (code : Code) : String :=
  code.entry.code

/-- The code with a given written form. -/
def ofName? (name : String) : Option Code :=
  all.find? fun code => code.name == name

/-- The message on one line, after its code in brackets. -/
def format (code : Code) (args : Option Text.Template.Args) : String :=
  "[" ++ code.name ++ "] " ++ Text.Template.interpolate code.entry.message args

/-- The message of a code that is about a cell. -/
def formatAt (code : Code) (cell : Int) : String :=
  code.format (some [("pointer", .number cell)])

end Code

/-- Whether a name is taken in the catalog: by a code, or by one of the keys
that every record answers for. -/
def isTaken (name : String) : Bool :=
  (Code.ofName? name).isSome || (Text.Template.builtin.lookup name).isSome

end TapeMachine.Diagnostic
