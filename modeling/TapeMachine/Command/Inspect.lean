import TapeMachine.Command.FileState
import TapeMachine.Command.Transcript
import TapeMachine.Program.Census
import TapeMachine.Program.Listing

/-!
# The inspect command

Shows a program at one of three stages: as bare text, as built, or optimized.
-/

namespace TapeMachine.Command

/-- The stages that can be shown. -/
inductive Stage where
  | tree
  | ir
  | optimized
  deriving DecidableEq, Repr

namespace Stage

/-- All stages in order. -/
def all : List Stage :=
  [.tree, .ir, .optimized]

/-- The name of a stage. -/
def name : Stage → String
  | .tree => "tree"
  | .ir => "ir"
  | .optimized => "optimized"

/-- The stage with a given name. -/
def ofName? (name : String) : Option Stage :=
  all.find? fun stage => stage.name == name

/-- The program at a stage, if it has nodes there. -/
def program? (compiled : Compiled) : Stage → Option Block
  | .tree => none
  | .ir => some compiled.unoptimized
  | .optimized => some compiled.program

/-- What is shown of a program at a stage. -/
def render (compiled : Compiled) (stage : Stage) : Except StructureError String :=
  match stage.program? compiled with
  | none => .ok compiled.canonical
  | some program => Program.listing program

end Stage

/-- What the inspect command was asked to do. -/
structure InspectRequest where
  path : String
  file : FileState
  stage : String := "optimized"
  oddDeltas : Bool := false

namespace InspectRequest

/-- What the command shows of a program. -/
def shown (compiled : Compiled) (stage : Stage) : Transcript :=
  match stage.render compiled with
  | .error fault => .broken fault
  | .ok text =>
    ⟨0, .log text ::
      match stage.program? compiled with
      | none => []
      | some program => [.log "", .log (Program.Census.of program).format]⟩

/-- Carries out the command. -/
def perform (request : InspectRequest) : Transcript :=
  match Stage.ofName? request.stage with
  | none =>
    .failed (invalidOptionLine "stage" (.text request.stage)
      ("use " ++ ", ".intercalate (Stage.all.map Stage.name)))
  | some stage =>
    match request.file.read request.path with
    | .error failure => .failed (failure.readLine request.path)
    | .ok text =>
      match compile { text, name := request.path } { collapseOddDeltas := request.oddDeltas } with
      | .error error => .failed (Failure.ofCompileError error).compileLine
      | .ok compiled => shown compiled stage

end InspectRequest

end TapeMachine.Command
