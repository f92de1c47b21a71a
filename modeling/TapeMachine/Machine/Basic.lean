import TapeMachine.Machine.Tape

/-!
# The machine

A tape and a pointer to one of its cells. A machine outlives a run, so a later
run continues where an earlier one stopped. Cells are addressed by sums of the
pointer and offsets, which are taken at the machine's precision.
-/

namespace TapeMachine

/-- A tape with a pointer. Runs never move the pointer below zero; there are no
cells there, and they read as zero. -/
structure Machine where
  tape : Tape := Tape.fresh
  pointer : Int := 0
  precision : Precision := .double
  deriving Inhabited

namespace Machine

/-- The value of a cell that may lie left of the tape. -/
def read (machine : Machine) (cell : Int) : UInt8 :=
  match cell with
  | .ofNat index => machine.tape.get index
  | .negSucc _ => 0

/-- The value of the cell under the pointer. -/
def current (machine : Machine) : UInt8 :=
  machine.read machine.pointer

/-- The cell at an offset from the pointer, or the negative address. -/
def address (machine : Machine) (offset : Int) : Except Int Nat :=
  match machine.precision.add machine.pointer offset with
  | .ofNat cell => .ok cell
  | .negSucc k => .error (.negSucc k)

/-- The machine with all cells zero and the pointer at the first. -/
def reset (machine : Machine) : Machine :=
  { machine with tape := machine.tape.clear, pointer := 0 }

/-- The cells at most `width` away from the pointer, the current one in
brackets. None if counting them has no end. -/
def describe (machine : Machine) (width : Int := 8) : Option String := do
  let precision := machine.precision
  let start := max 0 (precision.sub machine.pointer width)
  let stop := precision.add (precision.add machine.pointer width) 1
  let values ← machine.tape.slice precision start.toNat stop.toNat
  let shown := values.zipIdx.map fun (value, i) =>
    let value := toString value.toNat
    if precision.add start i = machine.pointer then "[" ++ value ++ "]" else value
  return "pointer " ++ Position.render machine.pointer ++ ": " ++ " ".intercalate shown

end Machine

end TapeMachine
