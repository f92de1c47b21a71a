import TapeMachine.Optimize.Pipeline
import TapeMachine.ParseTree.Parse
import TapeMachine.Program.OfTable
import TapeMachine.Program.Walk

/-!
# Compilation

From a source file to an optimized program: tokens, parse tree, program, passes.
A source whose brackets do not match is rejected with a report for each of them.
-/

namespace TapeMachine

/-- The sizes of a program along the way. -/
structure CompileStats where
  tokens : Nat
  parseNodes : Nat
  programNodes : Nat
  optimizedNodes : Nat
  deriving DecidableEq, Repr

/-- A compiled program. -/
structure Compiled where
  /-- The program to run. -/
  program : Block
  /-- The program before any pass. -/
  unoptimized : Block
  /-- The instructions of the source, written out without comments. -/
  canonical : String
  stats : CompileStats
  deriving Repr

/-- Why a source did not compile. -/
inductive CompileError where
  /-- The source is at fault; `text` holds all reports written out. -/
  | rejected (reports : List Diagnostic.Report) (text : String)
  /-- The tables are, which does not happen to a source, or the reports cannot be
  written out. -/
  | broken (fault : StructureError)
  deriving DecidableEq, Repr

/-- The text of an error. -/
def CompileError.message : CompileError → String
  | .rejected _ text => text
  | .broken fault => fault.message

/-- A rejection together with its reports written out. -/
def CompileError.ofRejection (file : SourceFile) : ParseTree.Rejection → CompileError
  | .broken fault => .broken fault
  | .faulty reports =>
    match Diagnostic.Report.formatAll reports file with
    | .ok text => .rejected reports text
    | .error fault => .broken fault

/-- The compiled form of a node table. -/
def Compiled.ofTable (tokens : Tokens) (table : ParseTree.Table) (options : Optimize.Options) :
    Except StructureError Compiled := do
  let unoptimized ← Program.ofTable table table.root
  let program := Optimize.optimize options unoptimized
  let canonical ← table.render table.root
  return {
    program, unoptimized, canonical
    stats := {
      tokens := tokens.count
      parseNodes := table.count
      programNodes := Program.size unoptimized
      optimizedNodes := Program.size program } }

/-- Compiles a source file. -/
def compile (file : SourceFile) (options : Optimize.Options := {}) :
    Except CompileError Compiled := do
  let tokens := Tokens.ofSource file.text
  let table ← (ParseTree.parse tokens).mapError (CompileError.ofRejection file)
  (Compiled.ofTable tokens table options).mapError .broken

end TapeMachine
