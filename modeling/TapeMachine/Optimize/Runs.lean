import TapeMachine.Optimize.Movement

/-!
# Runs of equal operations

A run of additions to one cell is one addition, and a run of moves is one move;
what sums to nothing vanishes.
-/

namespace TapeMachine.Optimize

/-- Appends an addition to finished nodes. -/
def pushAdd (finished : List Node) (offset : Int) (delta : Int8) : List Node :=
  let single := if delta = 0 then finished else .addAt offset delta :: finished
  match finished with
  | .addAt lastOffset before :: rest =>
    if lastOffset = offset then
      if before + delta = 0 then rest else .addAt offset (before + delta) :: rest
    else single
  | _ => single

/-- One step of `mergeRuns`. -/
def mergeRun (precision : Precision) (finished : List Node) : Node → List Node
  | .addAt offset delta => pushAdd finished offset delta
  | .move delta => pushMove precision finished delta
  | node => node :: finished

/-- Merges the runs of a block. -/
def mergeRuns (precision : Precision) (block : Block) : Block :=
  (block.foldl (mergeRun precision) []).reverse

end TapeMachine.Optimize
