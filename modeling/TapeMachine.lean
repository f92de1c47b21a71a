import TapeMachine.Brackets
import TapeMachine.Command.Arguments
import TapeMachine.Command.FileState
import TapeMachine.Command.Inspect
import TapeMachine.Command.Repl
import TapeMachine.Command.Run
import TapeMachine.Command.Transcript
import TapeMachine.Compile
import TapeMachine.Device.Abort
import TapeMachine.Device.Basic
import TapeMachine.Device.Descriptor
import TapeMachine.Device.Memory
import TapeMachine.Diagnostic.Catalog
import TapeMachine.Diagnostic.Report
import TapeMachine.Failure
import TapeMachine.Instruction
import TapeMachine.Limits
import TapeMachine.Machine.Basic
import TapeMachine.Machine.Tape
import TapeMachine.Main
import TapeMachine.Number.Binary
import TapeMachine.Number.Decimal
import TapeMachine.Number.Precision
import TapeMachine.Optimize.Loops
import TapeMachine.Optimize.Movement
import TapeMachine.Optimize.Pipeline
import TapeMachine.Optimize.Runs
import TapeMachine.ParseTree.Parse
import TapeMachine.ParseTree.Table
import TapeMachine.ParseTree.Tree
import TapeMachine.Program.Census
import TapeMachine.Program.Listing
import TapeMachine.Program.Nested
import TapeMachine.Program.Node
import TapeMachine.Program.OfTable
import TapeMachine.Program.Spelling
import TapeMachine.Program.Walk
import TapeMachine.Proofs.Brackets.Balance
import TapeMachine.Proofs.Execution.Direct
import TapeMachine.Proofs.Execution.Executor
import TapeMachine.Proofs.Execution.Interpretation
import TapeMachine.Proofs.Execution.Matching
import TapeMachine.Proofs.Execution.Straight
import TapeMachine.Proofs.Execution.Termination
import TapeMachine.Proofs.Machine.Addressing
import TapeMachine.Proofs.Optimize.Behaviour
import TapeMachine.Proofs.Optimize.Counting
import TapeMachine.Proofs.Optimize.Neighbours
import TapeMachine.Proofs.Optimize.Products
import TapeMachine.Proofs.Optimize.Rewriting
import TapeMachine.Proofs.ParseTree.Building
import TapeMachine.Proofs.Program.Spelling
import TapeMachine.Proofs.Strip.Basic
import TapeMachine.Proofs.Strip.Correspondence
import TapeMachine.Proofs.Strip.Escape
import TapeMachine.Proofs.Strip.Improvement
import TapeMachine.Quantity
import TapeMachine.Run.Direct
import TapeMachine.Run.Execute
import TapeMachine.Run.Meaning
import TapeMachine.Run.Rig
import TapeMachine.Run.Step
import TapeMachine.Session
import TapeMachine.Source.File
import TapeMachine.Source.Framing
import TapeMachine.Source.Pending
import TapeMachine.StructureError
import TapeMachine.Text.Blank
import TapeMachine.Text.Lines
import TapeMachine.Text.Quoted
import TapeMachine.Text.Template
import TapeMachine.Text.Units
import TapeMachine.Text.Utf8
import TapeMachine.Token
import TapeMachine.Proofs.Diagnostic.Length
import TapeMachine.Proofs.Compile.Acceptance
import TapeMachine.Proofs.Execution.StepLimit
import TapeMachine.Proofs.Execution.Footprint
import TapeMachine.Proofs.Execution.Unrounded
import TapeMachine.Proofs.Execution.Fence
import TapeMachine.Proofs.Execution.Failures
import TapeMachine.Proofs.Source.Pending
import TapeMachine.Proofs.Session.Feeding
import TapeMachine.Proofs.ParseTree.Nodes
import TapeMachine.Proofs.Program.Walk
import TapeMachine.Proofs.Compile.RoundTrip
import TapeMachine.Proofs.Source.Completeness
import TapeMachine.Proofs.Text.Held
import TapeMachine.Proofs.Source.Framing
import TapeMachine.Proofs.Execution.Lockstep
import TapeMachine.Proofs.Execution.LargerLimit
import TapeMachine.Proofs.Brackets.Unmatched
import TapeMachine.Proofs.ParseTree.Reports
import TapeMachine.Proofs.Session.Consistency
import TapeMachine.Proofs.Command.Run
import TapeMachine.Proofs.Execution.Emission
import TapeMachine.Proofs.Execution.Meaning
import TapeMachine.Proofs.Execution.Composition
import TapeMachine.Proofs.Execution.Fenced
import TapeMachine.Proofs.Execution.SameCells
import TapeMachine.Proofs.Optimize.Congruence
import TapeMachine.Proofs.Optimize.Collapsing
import TapeMachine.Proofs.Device.Delivery
import TapeMachine.Proofs.Device.Reception
import TapeMachine.Proofs.Optimize.Settled
import TapeMachine.Proofs.Optimize.Deferral
import TapeMachine.Proofs.Optimize.NormalForm
import TapeMachine.Proofs.Optimize.Residue
import TapeMachine.Proofs.Optimize.Accounting
import TapeMachine.Proofs.ParseTree.Folding
import TapeMachine.Proofs.Diagnostic.Excerpt
import TapeMachine.Proofs.Machine.Unbounded
import TapeMachine.Proofs.Number.Rounding
import TapeMachine.Proofs.Number.Numeral
import TapeMachine.Proofs.Program.Listing
import TapeMachine.Proofs.Compile.Listed
import TapeMachine.Proofs.Device.Combination
import TapeMachine.Proofs.Text.Filling
import TapeMachine.Proofs.Execution.Intake
import TapeMachine.Proofs.Session.Queueing
import TapeMachine.Proofs.Program.Turns
import TapeMachine.Proofs.Program.Places
import TapeMachine.Proofs.Program.Nesting
