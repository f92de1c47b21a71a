import TapeMachine.Program.Walk

/-!
# Movement

Three changes to a single block that sum pointer movement and push it towards
the end of the block. Loops are barriers: the pointer must be in place before
one starts. Movement is summed from left to right at a given precision. In each,
the finished part of the block is kept last node first.
-/

namespace TapeMachine.Optimize

/-- Appends a move to finished nodes. It joins a move before it, and a move by
nothing vanishes. -/
def pushMove (precision : Precision) (finished : List Node) (delta : Int) : List Node :=
  match finished with
  | .move before :: rest =>
    let sum := precision.add before delta
    if sum = 0 then rest else .move sum :: rest
  | _ => if delta = 0 then finished else .move delta :: finished

/-- One step of `sumMoves`. -/
def sumMove (precision : Precision) (finished : List Node) : Node → List Node
  | .move delta => pushMove precision finished delta
  | node => node :: finished

/-- Sums adjacent moves. -/
def sumMoves (precision : Precision) (block : Block) : Block :=
  (block.foldl (sumMove precision) []).reverse

/-- One step of `absorbMoves`. A move joins a move before it; a node that
addresses a cell steps in front of one. -/
def absorbMove (precision : Precision) (finished : List Node) (node : Node) : List Node :=
  match node, finished with
  | .move delta, .move before :: rest =>
    let sum := precision.add before delta
    if sum = 0 then rest else .move sum :: rest
  | _, .move before :: rest =>
    match node.shift? precision before with
    | some shifted => .move before :: shifted :: rest
    | none => node :: finished
  | _, _ => node :: finished

/-- Lets nodes that address a cell absorb the move before them. -/
def absorbMoves (precision : Precision) (block : Block) : Block :=
  (block.foldl (absorbMove precision) []).reverse

/-- A block whose moves are held back: the finished nodes, last first, and the
movement that they still lack. -/
structure Deferred where
  finished : List Node := []
  pending : Int := 0

/-- The finished nodes with the movement carried out. -/
def Deferred.flush (deferred : Deferred) : List Node :=
  if deferred.pending = 0 then deferred.finished
  else .move deferred.pending :: deferred.finished

/-- One step of `deferMoves`. -/
def Deferred.take (precision : Precision) (deferred : Deferred) (node : Node) : Deferred :=
  match node with
  | .move delta => { deferred with pending := precision.add deferred.pending delta }
  | _ =>
    match node.shift? precision deferred.pending with
    | some shifted => { deferred with finished := shifted :: deferred.finished }
    | none => { finished := node :: deferred.flush }

/-- Carries all movement of a block to its end, or to the next loop. -/
def deferMoves (precision : Precision) (block : Block) : Block :=
  (block.foldl (Deferred.take precision) {}).flush.reverse

end TapeMachine.Optimize
