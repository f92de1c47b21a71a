/-!
# Precision

Whole numbers as a machine keeps them: exactly, or with a fixed number of
significant binary digits. A number that needs more digits than there are is
rounded to the nearest that does not, and a half goes to the neighbour whose
last digit is even. Positions on a tape are numbers of this kind: below a
certain size they are exact, and `round_of_small` says so.

There is no largest number here. A double has one, just below `2 ^ 1024`, and a
sum that is rounded beyond it is infinite; so `double` is what a machine does as
long as sums stay below `2 ^ 1023`.
-/

namespace TapeMachine

/-- A power of two; one for an exponent below zero. -/
def twoTo (exponent : Int) : Nat :=
  Nat.pow 2 exponent.toNat

/-- The quotient rounded to the nearest whole number. A half goes to the even
neighbour. -/
def nearest (dividend divisor : Nat) : Nat :=
  let quotient := dividend / divisor
  let twice := 2 * (dividend % divisor)
  if twice < divisor then quotient
  else if twice = divisor then quotient + quotient % 2
  else quotient + 1

/-- Rounding a quotient moves it by at most a half. -/
theorem nearest_within_half (dividend : Nat) {divisor : Nat} (positive : 0 < divisor) :
    2 * dividend ≤ 2 * (nearest dividend divisor * divisor) + divisor ∧
      2 * (nearest dividend divisor * divisor) ≤ 2 * dividend + divisor := by
  have whole := Nat.div_add_mod' dividend divisor
  have less := Nat.mod_lt dividend positive
  have next : (dividend / divisor + 1) * divisor = dividend / divisor * divisor + divisor :=
    Nat.succ_mul (dividend / divisor) divisor
  have parity := Nat.mod_two_eq_zero_or_one (dividend / divisor)
  simp only [nearest]
  split
  · omega
  · split
    · rcases parity with even | odd
      · rw [even, Nat.add_zero]
        omega
      · rw [odd]
        omega
    · omega

/-- A quotient halfway between two whole numbers goes to the even one. -/
theorem nearest_half_even {dividend divisor : Nat}
    (half : 2 * (dividend % divisor) = divisor) : nearest dividend divisor % 2 = 0 := by
  simp only [nearest, half, Nat.lt_irrefl, if_false, if_true]
  omega

/-- How many binary digits of a number are kept. -/
inductive Precision where
  /-- All of them. -/
  | exact
  /-- The given number of them, counted from the first that is not zero. -/
  | digits (count : Nat)
  deriving DecidableEq, Repr

namespace Precision

/-- The precision of the numbers that positions and limits are kept in, for numbers
below `2 ^ 1023`. -/
def double : Precision :=
  .digits 53

/-- A magnitude with all but its first `count` binary digits rounded away. -/
def roundMagnitude (count magnitude : Nat) : Nat :=
  if magnitude.log2 < count then magnitude
  else
    let unit := twoTo (magnitude.log2 + 1 - count)
    nearest magnitude unit * unit

/-- The number that stands for a whole number at some precision. -/
def round : Precision → Int → Int
  | .exact, n => n
  | .digits count, n => n.sign * (roundMagnitude count n.natAbs : Nat)

/-- The sum of two numbers at some precision. -/
def add (precision : Precision) (a b : Int) : Int :=
  precision.round (a + b)

/-- The difference of two numbers at some precision. -/
def sub (precision : Precision) (a b : Int) : Int :=
  precision.round (a - b)

/-- The numbers from `start` up to and without `stop`, each the sum of the last one
and one. None if such a sum is rounded back to where it comes from, so that there
would be no end. -/
def countUp (precision : Precision) (start stop : Nat) : Option (List Nat) :=
  if start < stop then
    let next := (precision.add start 1).toNat
    if start < next then (countUp precision next stop).map (start :: ·) else none
  else some []
termination_by stop - start

@[simp] theorem round_exact (n : Int) : exact.round n = n := rfl

@[simp] theorem add_exact (a b : Int) : exact.add a b = a + b := rfl

@[simp] theorem sub_exact (a b : Int) : exact.sub a b = a - b := rfl

/-- A magnitude with few enough digits is kept as it is. -/
theorem roundMagnitude_of_small {count magnitude : Nat} (few : magnitude.log2 < count) :
    roundMagnitude count magnitude = magnitude := by
  rw [roundMagnitude, if_pos few]

/-- A number with few enough digits is kept as it is. -/
theorem round_of_small {count : Nat} {n : Int} (few : n.natAbs.log2 < count) :
    (digits count).round n = n := by
  rw [round, roundMagnitude_of_small few, Int.sign_mul_natAbs]

/-- Rounding goes the same way on both sides of zero. -/
theorem round_neg (precision : Precision) (n : Int) :
    precision.round (-n) = -precision.round n := by
  match precision with
  | .exact => rfl
  | .digits count => rw [round, round, Int.sign_neg, Int.natAbs_neg, Int.neg_mul]

example : double.round 9007199254740993 = 9007199254740992 := by decide +kernel
example : double.round (-9007199254740995) = -9007199254740996 := by decide +kernel

end Precision

end TapeMachine
