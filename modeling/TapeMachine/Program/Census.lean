import TapeMachine.Program.Walk

/-!
# Census of a program

How many nodes of each kind a program has, nested ones included.
-/

namespace TapeMachine.Program

/-- The number of nodes of a kind. -/
def countKind (program : Block) (kind : Node.Kind) : Nat :=
  (walk program).countP fun visited => visited.2.kind == kind

/-- A table of the node kinds of a program. -/
structure Census where
  total : Nat
  /-- Every kind once, in the order of the names. -/
  rows : List (Node.Kind × Nat)

namespace Census

/-- The census of a program. -/
def of (program : Block) : Census where
  total := size program
  rows := Node.Kind.all.map fun kind => (kind, countKind program kind)

/-- The width of the column of names. -/
def nameWidth : Nat := 10

/-- One row of the table: a name and a number. -/
def row (name : String) (count : Nat) : String :=
  name ++ String.ofList (List.replicate (nameWidth - name.length) ' ') ++ " " ++ toString count

/-- The table as text: the kinds that occur, the most frequent first and equally
frequent ones by name, and the total. -/
def format (census : Census) : String :=
  let present := census.rows.filter fun entry => 0 < entry.2
  let ordered := present.mergeSort fun a b => decide (b.2 ≤ a.2)
  "\n".intercalate
    (ordered.map (fun entry => row entry.1.name entry.2) ++ [row "total" census.total])

end Census

end TapeMachine.Program
