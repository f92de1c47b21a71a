import TapeMachine.Optimize.Loops
import TapeMachine.Optimize.Movement
import TapeMachine.Optimize.Runs

/-!
# The optimizer

A pass changes every block of a program by one rule. The optimizer runs the
passes that its options enable, in a fixed order.
-/

namespace TapeMachine.Optimize

/-- The passes. -/
inductive Pass where
  | mergeOperators
  | collapseAssignments (oddDeltas : Bool)
  | collapseOffsets
  | deferMovements
  | collapseMultiplications
  | collapseMoves
  | collapseScanLoops
  deriving DecidableEq, Repr

namespace Pass

/-- The name of a pass. -/
def name : Pass → String
  | .mergeOperators => "mergeOperators"
  | .collapseAssignments _ => "collapseAssignments"
  | .collapseOffsets => "collapseOffsets"
  | .deferMovements => "deferMovements"
  | .collapseMultiplications => "collapseMultiplications"
  | .collapseMoves => "collapseMoves"
  | .collapseScanLoops => "collapseScanLoops"

/-- What a pass does to one block whose inner blocks are done. -/
def onBlock (precision : Precision) : Pass → Block → Block
  | .mergeOperators => mergeRuns precision
  | .collapseAssignments oddDeltas => assign oddDeltas
  | .collapseOffsets => absorbMoves precision
  | .deferMovements => deferMoves precision
  | .collapseMultiplications => multiply
  | .collapseMoves => sumMoves precision
  | .collapseScanLoops => scan

/-- Runs a pass on a program. -/
def apply (precision : Precision) (pass : Pass) (program : Block) : Block :=
  Program.mapBlocks (pass.onBlock precision) program

end Pass

/-- Which passes are on, and the precision at which they sum movement. All are
on unless turned off, but for the wider notion of a clearing loop. -/
structure Options where
  mergeOperators : Bool := true
  collapseAssignments : Bool := true
  collapseOddDeltas : Bool := false
  collapseOffsets : Bool := true
  deferMovements : Bool := true
  collapseMultiplications : Bool := true
  collapseMoves : Bool := true
  collapseScanLoops : Bool := true
  precision : Precision := .double
  deriving DecidableEq, Repr

namespace Options

/-- Every pass off. -/
def off : Options where
  mergeOperators := false
  collapseAssignments := false
  collapseOddDeltas := false
  collapseOffsets := false
  deferMovements := false
  collapseMultiplications := false
  collapseMoves := false
  collapseScanLoops := false

/-- The options that the switches of a command ask for. -/
def ofSwitches (unoptimized oddDeltas : Bool) : Options :=
  if unoptimized then off else { collapseOddDeltas := oddDeltas }

/-- The passes that are on, in the order in which they run. Products are made
after movement has been deferred, and movement is deferred once more after
them. -/
def passes (options : Options) : List Pass :=
  (if options.mergeOperators then [.mergeOperators] else []) ++
  (if options.collapseAssignments then [.collapseAssignments options.collapseOddDeltas]
   else []) ++
  (if options.collapseOffsets then [.collapseOffsets] else []) ++
  (if options.deferMovements then [.deferMovements] else []) ++
  (if options.collapseMultiplications then
    .collapseMultiplications :: (if options.deferMovements then [.deferMovements] else [])
   else []) ++
  (if options.collapseMoves then [.collapseMoves] else []) ++
  (if options.collapseScanLoops then [.collapseScanLoops] else [])

end Options

/-- Runs passes one after the other. -/
def runPasses (precision : Precision) (passes : List Pass) (program : Block) : Block :=
  passes.foldl (fun current pass => pass.apply precision current) program

/-- The program after each pass. -/
def stages (precision : Precision) : List Pass → Block → List (Pass × Block)
  | [], _ => []
  | pass :: rest, program =>
    let next := pass.apply precision program
    (pass, next) :: stages precision rest next

/-- Optimizes a program. -/
def optimize (options : Options) (program : Block) : Block :=
  runPasses options.precision options.passes program

end TapeMachine.Optimize
