import TapeMachine.Number.Decimal

/-!
# The tape

Byte cells numbered from zero, all zero at first. The allocated part grows by
doubling when a cell past its end is written; reading past the end gives zero
and never grows it. Storing at `limit` or beyond fails. That growing as far as the
cells before it succeeds is taken for granted, whatever memory it takes.
-/

namespace TapeMachine

/-- The allocated cells. There is always at least one. -/
structure Tape where
  cells : Array UInt8
  nonempty : 0 < cells.size

namespace Tape

/-- The number of cells of a tape nobody chose the size of. -/
def defaultSize : Nat := 1024

/-- The first cell that cannot be stored in: doubling the usual sizes leads to `2 ^ 53`
cells for it, and no array has as many. -/
def limit : Nat := 4503599627370496

/-- A tape of zeros. Sizes below one count as one; that there is memory for the others
is taken for granted. -/
def ofSize (size : Int) : Tape where
  cells := Array.replicate (max 1 size).toNat 0
  nonempty := by
    rw [Array.size_replicate]
    omega

/-- The tape a machine starts with. -/
def fresh : Tape := ofSize defaultSize

instance : Inhabited Tape := ⟨fresh⟩

/-- The number of allocated cells. -/
def size (tape : Tape) : Nat :=
  tape.cells.size

/-- The value of a cell. -/
def get (tape : Tape) (index : Nat) : UInt8 :=
  tape.cells.getD index 0

/-- Doubles a positive size until it exceeds an index. -/
def grownSize (size index : Nat) (positive : 0 < size) : Nat :=
  if index < size then size
  else grownSize (2 * size) index (by omega)
termination_by index + 1 - size

/-- Doubling never goes below where it started. -/
theorem le_grownSize (size index : Nat) (positive : 0 < size) :
    size ≤ grownSize size index positive := by
  fun_induction grownSize size index positive with
  | case1 => exact Nat.le_refl _
  | case2 size positive beyond ih => omega

/-- Doubling goes past the index. -/
theorem lt_grownSize (size index : Nat) (positive : 0 < size) :
    index < grownSize size index positive := by
  fun_induction grownSize size index positive with
  | case1 size positive within => exact within
  | case2 size positive beyond ih => exact ih

/-- What is raised when the tape cannot grow to a cell. -/
def growthFault (tape : Tape) (index : Nat) : String :=
  "Invalid typed array length: " ++
    Position.render (grownSize tape.cells.size index tape.nonempty)

/-- The tape with at least the cells up to an index. -/
def reserve (tape : Tape) (index : Nat) : Tape :=
  if index < tape.cells.size then tape
  else
    let missing := grownSize tape.cells.size index tape.nonempty - tape.cells.size
    { cells := tape.cells ++ Array.replicate missing 0
      nonempty := by
        have := tape.nonempty
        rw [Array.size_append]
        omega }

/-- The tape with a byte in a cell, grown to it if it has to be. -/
def set (tape : Tape) (index : Nat) (value : UInt8) : Tape :=
  let grown := tape.reserve index
  { cells := grown.cells.setIfInBounds index value
    nonempty := by
      rw [Array.size_setIfInBounds]
      exact grown.nonempty }

/-- Stores a byte in a cell, or fails with what is raised where there can be none. -/
def store (tape : Tape) (index : Nat) (value : UInt8) : Except String Tape :=
  if index < limit then .ok (tape.set index value) else .error (tape.growthFault index)

/-- Adds a whole number to a cell. The sum is taken at the given precision
before it is stored modulo 256. -/
def add (precision : Precision) (tape : Tape) (index : Nat) (delta : Int) :
    Except String Tape :=
  tape.store index (UInt8.ofInt (precision.add (tape.get index).toNat delta))

/-- The values of the cells from `start` up to and without `stop`, which are counted at
the given precision. None if counting has no end. -/
def slice (precision : Precision) (tape : Tape) (start stop : Nat) : Option (List UInt8) :=
  (precision.countUp start stop).map fun cells => cells.map tape.get

/-- The tape with every cell zero and the same size. -/
def clear (tape : Tape) : Tape where
  cells := Array.replicate tape.cells.size 0
  nonempty := by
    rw [Array.size_replicate]
    exact tape.nonempty

/-- The cells below an index that are not zero, with their numbers, in front of
those found already. -/
def nonzeroBelow (tape : Tape) : Nat → List (Nat × UInt8) → List (Nat × UInt8)
  | 0, found => found
  | index + 1, found =>
    let value := tape.get index
    nonzeroBelow tape index (if value = 0 then found else (index, value) :: found)

/-- The allocated cells that are not zero, with their numbers. -/
def nonzero (tape : Tape) : List (Nat × UInt8) :=
  tape.nonzeroBelow tape.size []

end Tape

end TapeMachine
