import TapeMachine.StructureError
import TapeMachine.Instruction

/-!
# Node tables

The parse tree of a program is kept as one table in postorder: a node stands
after everything nested in it and records how many entries it and its contents
take up. Nesting is read off these sizes alone, so a table filled by hand may
describe no tree at all; every reader of a table says what it does then.
-/

namespace TapeMachine.ParseTree

/-- The kinds of node: one for each instruction that is not a bracket, a loop,
and the program as a whole. -/
inductive Kind where
  | increment
  | decrement
  | moveRight
  | moveLeft
  | output
  | input
  | loop
  | program
  deriving DecidableEq, Repr, Inhabited

namespace Kind

/-- All kinds in their numbering. -/
def all : List Kind :=
  [.increment, .decrement, .moveRight, .moveLeft, .output, .input, .loop, .program]

/-- The number of a kind. -/
def number : Kind → Nat
  | .increment => 0
  | .decrement => 1
  | .moveRight => 2
  | .moveLeft => 3
  | .output => 4
  | .input => 5
  | .loop => 6
  | .program => 7

/-- Puts a node of this kind in front of instructions, given how to put its
contents there. Only loops and programs have contents. -/
def spell (contents : List Instruction → List Instruction) :
    Kind → List Instruction → List Instruction
  | .increment, rest => .increment :: rest
  | .decrement, rest => .decrement :: rest
  | .moveRight, rest => .moveRight :: rest
  | .moveLeft, rest => .moveLeft :: rest
  | .output, rest => .output :: rest
  | .input, rest => .input :: rest
  | .loop, rest => .loopOpen :: contents (.loopClose :: rest)
  | .program, rest => contents rest

end Kind

/-- One node of a table. -/
structure Entry where
  kind : Kind
  /-- The token of an instruction, or of the bracket that opens a loop. -/
  token : Int
  /-- The declared number of entries: this one and everything nested in it. -/
  size : Int
  deriving DecidableEq, Repr

/-- The nodes of a parse tree, numbered by their position. -/
structure Table where
  entries : Array Entry := #[]
  deriving DecidableEq, Repr

namespace Table

/-- The number of nodes. -/
def count (table : Table) : Nat :=
  table.entries.size

/-- Adds a node behind the others. -/
def add (table : Table) (entry : Entry) : Table :=
  ⟨table.entries.push entry⟩

/-- The nodes in order. -/
def toList (table : Table) : List Entry :=
  table.entries.toList

/-- The node with a given number. -/
def get (table : Table) (id : Int) : Except StructureError Entry :=
  match id with
  | .ofNat n =>
    match table.entries[n]? with
    | some entry => .ok entry
    | none => .error (.invalidNode id)
  | .negSucc _ => .error (.invalidNode id)

/-! ## Children -/

/-- Walks back from `cursor` to `first`, from each child over its contents to
the child before it. A table with `n` entries has at most `n` children to visit,
so a walk of more steps would never end. -/
def childrenFrom (table : Table) (id first : Int) :
    Nat → Int → List (Int × Entry) → Except StructureError (List (Int × Entry))
  | 0, _, _ => .error (.endlessSubtree id)
  | steps + 1, cursor, found =>
    if cursor < first then .ok found
    else do
      let child ← table.get cursor
      childrenFrom table id first steps (cursor - child.size) ((cursor, child) :: found)

/-- The direct children of a node in the order of the text. -/
def children (table : Table) (id : Int) : Except StructureError (List (Int × Entry)) := do
  let node ← table.get id
  childrenFrom table id (id - node.size + 1) (table.count + 2) (id - 1) []

/-! ## Folding -/

/-- Takes finished values from the end until they cover `owed` entries; gives
them in order, and the values before them. -/
def gather {α : Type} : List (α × Int) → Int → List α → Option (List α × List (α × Int))
  | [], owed, found => if owed ≤ 0 then some (found, []) else none
  | (value, size) :: done, owed, found =>
    if owed ≤ 0 then some (found, (value, size) :: done)
    else gather done (owed - size) (value :: found)

/-- Visits the given number of nodes from `cursor` on. `done` holds the values
of the subtrees finished and not yet part of a larger one, last first, with the
number of entries that each declares. -/
def sweep {α : Type} (table : Table) (combine : Entry → List α → Except StructureError α) :
    Nat → Int → List (α × Int) → Except StructureError (List (α × Int))
  | 0, _, done => .ok done
  | left + 1, cursor, done => do
    let entry ← table.get cursor
    match gather done (entry.size - 1) [] with
    | none => .error (.malformedSubtree cursor)
    | some (values, before) =>
      let value ← combine entry values
      sweep table combine left (cursor + 1) ((value, entry.size) :: before)

/-- Folds the subtree of a node from the leaves up, with a step that may fail.
`combine` sees each node with the values of its children in order. -/
def foldM {α : Type} (table : Table) (combine : Entry → List α → Except StructureError α)
    (id : Int) : Except StructureError α := do
  let root ← table.get id
  let done ← sweep table combine root.size.toNat (id - root.size + 1) []
  match done with
  | [(value, _)] => .ok value
  | _ => .error (.malformedSubtree id)

/-- Folds the subtree of a node from the leaves up. -/
def fold {α : Type} (table : Table) (combine : Entry → List α → α) (id : Int) :
    Except StructureError α :=
  table.foldM (fun entry values => .ok (combine entry values)) id

/-- The instructions of a subtree. What is folded is a way to put them in front of
others, so that none is copied once for every loop around it. -/
def instructions (table : Table) (id : Int) : Except StructureError (List Instruction) := do
  let spelling ← table.fold (fun entry contents =>
    entry.kind.spell fun rest => contents.foldr (fun child later => child later) rest) id
  return spelling []

/-- A subtree as bare program text. -/
def render (table : Table) (id : Int) : Except StructureError String :=
  return Instruction.render (← table.instructions id)

end Table

end TapeMachine.ParseTree
