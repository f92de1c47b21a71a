import TapeMachine.Brackets
import TapeMachine.Diagnostic.Report
import TapeMachine.ParseTree.Table

/-!
# Parsing

Tokens become a node table in one pass. An open bracket remembers where its
contents start; the close that matches it adds the loop over everything added
since. Brackets are checked first, so a program with a fault is rejected with
one report for each unmatched bracket and no table.
-/

namespace TapeMachine.ParseTree

/-- A table under construction, with the token and the first entry of each loop
that is still open, innermost first. -/
structure Builder where
  table : Table := {}
  unfinished : List (Nat × Nat) := []

namespace Builder

/-- Adds a node without contents. -/
def leaf (b : Builder) (kind : Kind) (token : Nat) : Builder :=
  { b with table := b.table.add ⟨kind, token, 1⟩ }

/-- Takes the instruction of the token with the given number. -/
def take (b : Builder) (token : Nat) : Instruction → Except StructureError Builder
  | .increment => .ok (b.leaf .increment token)
  | .decrement => .ok (b.leaf .decrement token)
  | .moveRight => .ok (b.leaf .moveRight token)
  | .moveLeft => .ok (b.leaf .moveLeft token)
  | .output => .ok (b.leaf .output token)
  | .input => .ok (b.leaf .input token)
  | .loopOpen => .ok { b with unfinished := (token, b.table.count) :: b.unfinished }
  | .loopClose =>
    match b.unfinished with
    | [] => .error (.unmatchedClose token)
    | (opening, start) :: outer =>
      .ok ⟨b.table.add ⟨.loop, opening, (b.table.count : Int) - start + 1⟩, outer⟩

/-- Takes instructions whose tokens are numbered from the given one on. -/
def takeAll (b : Builder) (token : Nat) : List Instruction → Except StructureError Builder
  | [] => .ok b
  | instruction :: rest => do
    let next ← b.take token instruction
    takeAll next (token + 1) rest

/-- Adds the program node over all others. -/
def finish (b : Builder) : Except StructureError Table :=
  match b.unfinished with
  | [] => .ok (b.table.add ⟨.program, 0, b.table.count + 1⟩)
  | (opening, _) :: _ => .error (.unclosedOpen opening)

end Builder

/-- The table of a program. -/
def Table.ofInstructions (program : List Instruction) : Except StructureError Table := do
  let built ← Builder.takeAll {} 0 program
  built.finish

/-- The program node of a table that was parsed: its last entry. -/
def Table.root (table : Table) : Int :=
  (table.count : Int) - 1

/-- Why tokens did not parse. -/
inductive Rejection where
  /-- The program is at fault. -/
  | faulty (reports : List Diagnostic.Report)
  /-- The tables are. -/
  | broken (fault : StructureError)
  deriving DecidableEq, Repr

/-- One report for each unmatched bracket: first the closes, then the opens. -/
def bracketReports (tokens : Tokens) : Except StructureError (List Diagnostic.Report) := do
  let closes ← (Brackets.strayCloses tokens.instructions).mapM fun (id : Nat) =>
    Diagnostic.Report.atToken tokens .unmatchedClose id
  let opens ← (Brackets.unclosedOpens tokens.instructions).mapM fun (id : Nat) =>
    Diagnostic.Report.atToken tokens .unclosedOpen id
  return closes ++ opens

/-- The report for program text that is not a sequence of instructions. A parse with
matching brackets never comes to it, so the short message that a matcher has for the
text is not modelled; the detail stands in for it. -/
def grammarReport : Diagnostic.Report :=
  { code := .grammarMismatch, line := 1, column := 1,
    args := some [("detail", .text "unexpected input")] }

/-- Parses tokens into a node table. -/
def parse (tokens : Tokens) : Except Rejection Table := do
  let reports ← (bracketReports tokens).mapError .broken
  if reports.isEmpty then
    match ProgramText.failure? tokens.render with
    | some _ => .error (.faulty [grammarReport])
    | none => (Table.ofInstructions tokens.instructions).mapError .broken
  else .error (.faulty reports)

end TapeMachine.ParseTree
