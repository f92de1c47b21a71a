import TapeMachine.Number.Precision

/-!
# Binary fractions

Numbers with a fraction, as sums of powers of two. A number that comes from a
ratio or from a sum is the nearest that has 53 significant digits and no digit
below `2 ^ -1074`; there is no limit to its size here.
-/

namespace TapeMachine

/-- The number `numerator / 2 ^ scale`. -/
structure Binary where
  numerator : Int
  scale : Nat := 0
  deriving DecidableEq, Repr

namespace Binary

/-- The greatest scale of a rounded number. -/
def finest : Int := 1074

/-- A whole number, rounded. -/
def ofInt (n : Int) : Binary :=
  ⟨Precision.double.round n, 0⟩

/-- The exponent of the greatest power of two that is not above a positive
ratio. -/
def leading (numerator denominator : Nat) : Int :=
  let guess : Int := (numerator.log2 : Int) - denominator.log2
  if denominator * twoTo guess ≤ numerator * twoTo (-guess) then guess else guess - 1

/-- The number nearest to a ratio. -/
def ofRatio (numerator denominator : Nat) : Binary :=
  if numerator = 0 then ⟨0, 0⟩
  else
    let scale := min finest (52 - leading numerator denominator)
    let digits := nearest (numerator * twoTo scale) (denominator * twoTo (-scale))
    ⟨digits * twoTo (-scale), scale.toNat⟩

/-- The number of opposite sign. -/
def neg (b : Binary) : Binary :=
  ⟨-b.numerator, b.scale⟩

/-- Whether two numbers are equal, however they are written. -/
def same (a b : Binary) : Bool :=
  a.numerator * twoTo b.scale == b.numerator * twoTo a.scale

/-- The number moved along by a whole number, rounded. -/
def shift (amount : Int) (b : Binary) : Binary :=
  ⟨Precision.double.round (b.numerator + amount * twoTo b.scale), b.scale⟩

/-- Whether a whole number is at least as great. -/
def reachedBy (n : Int) (b : Binary) : Bool :=
  decide (b.numerator ≤ n * twoTo b.scale)

/-- The greatest whole number that is not above. -/
def floor (b : Binary) : Int :=
  b.numerator / (twoTo b.scale : Nat)

/-- Whether there is no fraction. -/
def isWhole (b : Binary) : Bool :=
  b.numerator % (twoTo b.scale : Nat) == 0

/-- The least positive whole multiple; zero has none. -/
def period (b : Binary) : Nat :=
  b.numerator.natAbs / Nat.gcd b.numerator.natAbs (twoTo b.scale)

example : (ofRatio 1 10).numerator = 7205759403792794 := by decide +kernel
example : (ofRatio 5 2).period = 5 := by decide +kernel
example : ((ofRatio 1 10000).shift 1700000000000).same (ofInt 1700000000000) := by decide +kernel

end Binary

end TapeMachine
