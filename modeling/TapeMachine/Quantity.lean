import TapeMachine.Number.Decimal

/-!
# Quantities

A number as a user may give it for a limit: a finite one, an infinity, or not a
number at all. Limits must be positive whole numbers; the other values exist
so that they can be refused by name, and so that a limit built from one has a
definite meaning.
-/

namespace TapeMachine

/-- A finite number, or one of the three values that are not. -/
inductive Quantity where
  | finite (value : Binary)
  | infinity
  | negativeInfinity
  | notANumber
  deriving DecidableEq, Repr

namespace Quantity

/-- A whole number as a quantity. -/
def ofInt (n : Int) : Quantity :=
  .finite (.ofInt n)

instance : OfNat Quantity n := ⟨ofInt n⟩

/-- A decimal as a quantity. One that rounds to `2 ^ 1024` or more is infinite. -/
def ofDecimal (negative : Bool) (decimal : Decimal) : Quantity :=
  let value := decimal.read
  if 1024 ≤ value.numerator.natAbs.log2 - value.scale then
    if negative then .negativeInfinity else .infinity
  else .finite (if negative then value.neg else value)

/-- Whether a quantity is a whole number above zero. -/
def isPositiveWhole : Quantity → Bool
  | .finite value => decide (0 < value.numerator) && value.isWhole
  | _ => false

/-- A quantity moved along by a whole number. -/
def shift (amount : Int) : Quantity → Quantity
  | .finite value => .finite (value.shift amount)
  | other => other

/-- Whether a whole number has reached a quantity. Nothing reaches a quantity
that is not a number. -/
def reachedBy (n : Int) : Quantity → Bool
  | .finite value => value.reachedBy n
  | .negativeInfinity => true
  | .infinity | .notANumber => false

/-- How many times something may happen before a quantity is exceeded; `none`
when it is never exceeded. -/
def allowance : Quantity → Option Nat
  | .finite value => some value.floor.toNat
  | .negativeInfinity => some 0
  | .infinity | .notANumber => none

/-- The least positive whole multiple of a quantity, or zero if there is none. -/
def period : Quantity → Nat
  | .finite value => value.period
  | _ => 0

/-- The quantity that a text writes: a decimal with an optional sign and fraction. -/
def ofText (text : String) : Quantity :=
  let (negative, digits) :=
    match text.toList with
    | '-' :: rest => (true, rest)
    | digits => (false, digits)
  let whole := digits.takeWhile Char.isDigit
  let fraction :=
    match digits.dropWhile Char.isDigit with
    | [] => some []
    | '.' :: rest => if rest.all Char.isDigit then some rest else none
    | _ => none
  match fraction.bind fun fraction =>
      (String.ofList (whole ++ fraction)).toNat?.map fun n => (n, fraction.length) with
  | some (n, places) => ofDecimal negative ⟨n, -places⟩
  | none => .notANumber

/-- The text of a quantity. -/
def render : Quantity → String
  | .infinity => "Infinity"
  | .negativeInfinity => "-Infinity"
  | .notANumber => "NaN"
  | .finite value => value.render

example : (ofInt (-7)).render = "-7" := by decide +kernel
example : (ofDecimal false ⟨150, -2⟩).render = "1.5" := by decide +kernel
example : (ofDecimal true ⟨25, -2⟩).render = "-0.25" := by decide +kernel
example : (ofDecimal false ⟨1, -7⟩).render = "1e-7" := by decide +kernel
example : (ofDecimal false ⟨1, 21⟩).render = "1e+21" := by decide +kernel
example : (ofDecimal false ⟨1, 309⟩).render = "Infinity" := by decide +kernel

end Quantity

end TapeMachine
