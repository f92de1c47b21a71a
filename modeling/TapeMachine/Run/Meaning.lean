import TapeMachine.Program.Node
import TapeMachine.Run.Rig

/-!
# The meaning of a program

What a program does to a rig, by recursion on the program: a block does what its
nodes do, one after the other, up to the first that ends the run; a loop repeats
what its body does. Only repetition needs a bound, which is the same for every
loop of the program.
-/

namespace TapeMachine.Meaning

variable {ι ο η : Type} [InputSource ι] [OutputSink ο] [AbortHook η]

/-- Goes on with a rig unless the run has ended. -/
def bind (outcome : Outcome ι ο η) (next : Rig ι ο η → Option (Outcome ι ο η)) :
    Option (Outcome ι ο η) :=
  match outcome with
  | .went rig => next rig
  | .ended ending rig => some (.ended ending rig)

/-- Repeats a body while the current cell is not zero, with a poll between two
rounds. None if that takes more than `rounds` of them. -/
def repeatBody (body : Rig ι ο η → Option (Outcome ι ο η)) :
    Nat → Rig ι ο η → Option (Outcome ι ο η)
  | 0, _ => none
  | rounds + 1, rig =>
    if rig.machine.current = 0 then some (.went rig)
    else do
      let after ← body rig
      bind after fun rig =>
        if rig.machine.current = 0 then some (.went rig)
        else bind rig.poll (repeatBody body rounds)

/-- Moves by a fixed step while the current cell is not zero. None if that takes
more than `rounds` moves. -/
def scan (step : Int) : Nat → Rig ι ο η → Option (Outcome ι ο η)
  | 0, _ => none
  | rounds + 1, rig =>
    if rig.machine.current = 0 then some (.went rig)
    else bind rig.poll fun rig => bind (rig.move step) (scan step rounds)

mutual

/-- What a node does, with at most `rounds` rounds of each loop. -/
def node (rounds : Nat) : Node → Rig ι ο η → Option (Outcome ι ο η)
  | .addAt offset delta, rig => some (rig.update offset (· + delta.toUInt8))
  | .setAt offset value, rig => some (rig.update offset fun _ => value)
  | .mulAt offset into factor, rig => some (rig.multiply offset into factor.toUInt8)
  | .move delta, rig => some (rig.move delta)
  | .outputAt offset, rig => some (rig.write offset)
  | .inputAt offset, rig => some (rig.receive offset)
  | .loop body, rig => bind rig.poll (repeatBody (block rounds body) rounds)
  | .scanLoop step, rig => scan step rounds rig

/-- What a block does, with at most `rounds` rounds of each loop. -/
def block (rounds : Nat) : Block → Rig ι ο η → Option (Outcome ι ο η)
  | [], rig => some (.went rig)
  | first :: rest, rig => do
    let after ← node rounds first rig
    bind after (block rounds rest)

end

end TapeMachine.Meaning
