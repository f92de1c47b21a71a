import TapeMachine.Program.Walk

/-!
# Loops without a loop

Three changes to a single block that recognize loops whose effect is known:
a loop that counts its cell to zero, a loop that counts its cell to zero while
adding multiples of it elsewhere, and a loop that only moves.
-/

namespace TapeMachine.Optimize

/-- Whether a loop with this body clears its cell. A step of one reaches zero
from every value, and so does every odd step, as it is coprime to 256; odd
steps other than one count only where asked for. -/
def clears (oddDeltas : Bool) : Block → Bool
  | [.addAt 0 delta] => delta == 1 || delta == -1 || oddDeltas && delta.toInt % 2 != 0
  | _ => false

/-- A node, or the assignment that a clearing loop amounts to. -/
def clearing (oddDeltas : Bool) : Node → Node
  | .loop body => if clears oddDeltas body then .setAt 0 0 else .loop body
  | node => node

/-- Appends a node to finished nodes. An addition joins an assignment to the same
cell just before it. -/
def pushAssigned (finished : List Node) (node : Node) : List Node :=
  match node, finished with
  | .addAt offset delta, .setAt lastOffset value :: rest =>
    if lastOffset = offset then .setAt offset (value + delta.toUInt8) :: rest
    else node :: finished
  | _, _ => node :: finished

/-- Replaces the clearing loops of a block by assignments, and folds additions
into the assignments before them. -/
def assign (oddDeltas : Bool) (block : Block) : Block :=
  (block.foldl (fun finished node => pushAssigned finished (clearing oddDeltas node)) []).reverse

/-- The sum of the additions to each cell, in the order in which the cells first
occur. -/
abbrev NetDeltas := List (Int × Int8)

/-- Counts one more addition. -/
def NetDeltas.add (deltas : NetDeltas) (offset : Int) (delta : Int8) : NetDeltas :=
  match deltas with
  | [] => [(offset, delta)]
  | entry :: rest =>
    if entry.1 = offset then (offset, entry.2 + delta) :: rest
    else entry :: NetDeltas.add rest offset delta

/-- The sum of the additions to a cell. -/
def NetDeltas.get (deltas : NetDeltas) (offset : Int) : Int8 :=
  (deltas.lookup offset).getD 0

/-- The net additions of a body that does nothing else, after those given. -/
def netDeltasFrom (deltas : NetDeltas) : Block → Option NetDeltas
  | [] => some deltas
  | .addAt offset delta :: rest => netDeltasFrom (deltas.add offset delta) rest
  | _ => none

/-- The net additions of a body that does nothing else. -/
def netDeltas (body : Block) : Option NetDeltas :=
  netDeltasFrom [] body

/-- The products that a counting loop adds to the other cells. -/
def products (negate : Bool) (deltas : NetDeltas) : Block :=
  deltas.filterMap fun (offset, delta) =>
    let factor := if negate then -delta else delta
    if offset = 0 ∨ factor = 0 then none else some (.mulAt 0 offset factor)

/-- What a loop amounts to if it counts its cell down by one, or up by one, in
each round and otherwise only adds. Counting up takes `256 - n` rounds, which is
`-n` modulo 256. -/
def multiplication? (body : Block) : Option Block := do
  let deltas ← netDeltas body
  if deltas.get 0 = -1 then some (products false deltas ++ [.setAt 0 0])
  else if deltas.get 0 = 1 then some (products true deltas ++ [.setAt 0 0])
  else none

/-- The nodes that stand for a node once counting loops are spelled out. -/
def multiplied : Node → Block
  | .loop body => (multiplication? body).getD [.loop body]
  | node => [node]

/-- Replaces the counting loops of a block by products. -/
def multiply (block : Block) : Block :=
  block.flatMap multiplied

/-- A node, or the scan that a loop of a single move amounts to. -/
def scanning : Node → Node
  | .loop [.move delta] => if delta = 0 then .loop [.move delta] else .scanLoop delta
  | node => node

/-- Replaces the loops of a block that only move. -/
def scan (block : Block) : Block :=
  block.map scanning

end TapeMachine.Optimize
