import TapeMachine.Program.Node
import TapeMachine.Run.Rig

/-!
# Steps of a run

A run is a sequence of small steps on a configuration: the code still to run in
the current block, the loops around it, and the rig. A step completes one node,
enters, repeats or leaves one loop, or makes one step of a scan.
-/

namespace TapeMachine

/-- A loop that is being run: its body, and the code after it. -/
structure OpenLoop where
  body : Block
  after : Block

/-- Where a run stands. The loops are listed innermost first. -/
structure Config (ι ο η : Type) where
  code : Block
  loops : List OpenLoop := []
  rig : Rig ι ο η

/-- What one step leads to. -/
inductive Progress (ι ο η : Type) where
  | next (config : Config ι ο η)
  | stop (ending : Ending) (rig : Rig ι ο η)

/-- Goes on with a rig unless the run has ended. -/
def Outcome.andThen {ι ο η : Type} (outcome : Outcome ι ο η)
    (proceed : Rig ι ο η → Config ι ο η) : Progress ι ο η :=
  match outcome with
  | .went rig => .next (proceed rig)
  | .ended ending rig => .stop ending rig

namespace Config

variable {ι ο η : Type} [InputSource ι] [OutputSink ο] [AbortHook η]

/-- Runs the node in front of the code. A loop polls before it looks at its
cell; a scan polls before each move, and runs again after it. -/
def perform (node : Node) (rest : Block) (loops : List OpenLoop) (rig : Rig ι ο η) :
    Progress ι ο η :=
  match node with
  | .addAt offset delta => (rig.update offset (· + delta.toUInt8)).andThen (⟨rest, loops, ·⟩)
  | .setAt offset value => (rig.update offset fun _ => value).andThen (⟨rest, loops, ·⟩)
  | .mulAt offset into factor =>
    (rig.multiply offset into factor.toUInt8).andThen (⟨rest, loops, ·⟩)
  | .move delta => (rig.move delta).andThen (⟨rest, loops, ·⟩)
  | .outputAt offset => (rig.write offset).andThen (⟨rest, loops, ·⟩)
  | .inputAt offset => (rig.receive offset).andThen (⟨rest, loops, ·⟩)
  | .loop body =>
    rig.poll.andThen fun rig =>
      if rig.machine.current = 0 then ⟨rest, loops, rig⟩
      else ⟨body, ⟨body, rest⟩ :: loops, rig⟩
  | .scanLoop step =>
    if rig.machine.current = 0 then .next ⟨rest, loops, rig⟩
    else
      match rig.poll with
      | .ended ending rig => .stop ending rig
      | .went rig => (rig.move step).andThen (⟨.scanLoop step :: rest, loops, ·⟩)

/-- Makes one step. At the end of a loop's body the loop starts over, after a
poll, while the cell under the pointer is not zero. -/
def step (config : Config ι ο η) : Progress ι ο η :=
  match config with
  | ⟨node :: rest, loops, rig⟩ => perform node rest loops rig
  | ⟨[], [], rig⟩ => .stop .finished rig
  | ⟨[], loop :: outer, rig⟩ =>
    if rig.machine.current = 0 then .next ⟨loop.after, outer, rig⟩
    else rig.poll.andThen (⟨loop.body, loop :: outer, ·⟩)

/-- Makes steps until the run ends. None if it takes more than `fuel` steps. -/
def run : Nat → Config ι ο η → Option (Ending × Rig ι ο η)
  | 0, _ => none
  | fuel + 1, config =>
    match config.step with
    | .next config => run fuel config
    | .stop ending rig => some (ending, rig)

/-- Makes at most the given number of steps, stopping early where `pause` says
so. -/
def advance (pause : Config ι ο η → Bool) : Nat → Config ι ο η → Progress ι ο η
  | 0, config => .next config
  | count + 1, config =>
    if pause config then .next config
    else
      match config.step with
      | .next config => advance pause count config
      | .stop ending rig => .stop ending rig

end Config

end TapeMachine
