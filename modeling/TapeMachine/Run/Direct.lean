import TapeMachine.Brackets
import TapeMachine.Run.Rig

/-!
# Running instructions directly

An interpreter of the instructions themselves, with a position in the text and
jumps between matching brackets.
-/

namespace TapeMachine.Direct

variable {ι ο η : Type} [InputSource ι] [OutputSink ο] [AbortHook η]

/-- Where a direct run stands. -/
structure Config (ι ο η : Type) where
  position : Nat := 0
  rig : Rig ι ο η

/-- What one step leads to. -/
inductive Progress (ι ο η : Type) where
  | next (config : Config ι ο η)
  | stop (ending : Ending) (rig : Rig ι ο η)

/-- Goes on at a position unless the run has ended. -/
def goOn (outcome : Outcome ι ο η) (position : Nat) : Progress ι ο η :=
  match outcome with
  | .went rig => .next ⟨position, rig⟩
  | .ended ending rig => .stop ending rig

/-- Makes one step. An open bracket polls, and on a zero cell the run goes on
behind its match; a close bracket on any other cell polls, and the run goes on
just behind its match. -/
def step (program : List Instruction) (config : Config ι ο η) : Progress ι ο η :=
  match config with
  | ⟨position, rig⟩ =>
    match program[position]? with
    | none => .stop .finished rig
    | some .increment => goOn (rig.update 0 (· + 1)) (position + 1)
    | some .decrement => goOn (rig.update 0 (· - 1)) (position + 1)
    | some .moveRight => goOn (rig.move 1) (position + 1)
    | some .moveLeft => goOn (rig.move (-1)) (position + 1)
    | some .output => goOn (rig.write 0) (position + 1)
    | some .input => goOn (rig.receive 0) (position + 1)
    | some .loopOpen =>
      match rig.poll with
      | .ended ending rig => .stop ending rig
      | .went rig =>
        if rig.machine.current = 0 then
          .next ⟨(Brackets.closeOf program position).getD program.length + 1, rig⟩
        else .next ⟨position + 1, rig⟩
    | some .loopClose =>
      if rig.machine.current = 0 then .next ⟨position + 1, rig⟩
      else goOn rig.poll ((Brackets.openOf program position).getD position + 1)

/-- Makes steps until the run ends. None if it takes more than `fuel` steps. -/
def run (program : List Instruction) : Nat → Config ι ο η → Option (Ending × Rig ι ο η)
  | 0, _ => none
  | fuel + 1, config =>
    match step program config with
    | .next config => run program fuel config
    | .stop ending rig => some (ending, rig)

end TapeMachine.Direct
