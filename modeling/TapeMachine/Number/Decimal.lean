import TapeMachine.Number.Binary

/-!
# Decimals

Reading a decimal as a binary fraction, and writing a binary fraction as the
decimal with the fewest digits that reads back as the same fraction. Of several
such decimals the nearest is written, and of two equally near ones the one whose
last digit is even.
-/

namespace TapeMachine

/-- The decimal `digits * 10 ^ exponent`. -/
structure Decimal where
  digits : Nat
  exponent : Int
  deriving DecidableEq, Repr

namespace Decimal

/-- A power of ten; one for an exponent below zero. -/
def tenTo (exponent : Int) : Nat :=
  Nat.pow 10 exponent.toNat

/-- The binary fraction nearest to a decimal. -/
def read (decimal : Decimal) : Binary :=
  .ofRatio (decimal.digits * tenTo decimal.exponent) (tenTo (-decimal.exponent))

/-! ## Digits -/

/-- The number of digits of a whole number. -/
def length (n : Nat) : Nat :=
  (toString n).length

/-- The number of digits in front of the point of a positive ratio. Zeros just
behind the point of a ratio below one count as missing digits. -/
def pointOf (numerator denominator : Nat) : Int :=
  if denominator ≤ numerator then length (numerator / denominator)
  else 1 - length ((denominator - 1) / numerator)

/-- The two decimals with a given exponent next to a ratio, the nearer first. -/
def around (numerator denominator : Nat) (exponent : Int) : List Decimal :=
  let dividend := numerator * tenTo (-exponent)
  let divisor := denominator * tenTo exponent
  let nearer := nearest dividend divisor
  let other := 2 * (dividend / divisor) + 1 - nearer
  [⟨nearer, exponent⟩, ⟨other, exponent⟩]

/-- The shortest decimal that reads as a positive binary fraction. Seventeen
digits are enough for every fraction that was rounded; any other is written in
full. -/
def shortest (numerator scale : Nat) : Decimal :=
  let value : Binary := ⟨numerator, scale⟩
  let point := pointOf numerator (twoTo scale)
  let found := (List.range 17).findSome? fun (places : Nat) =>
    (around numerator (twoTo scale) (point - 1 - places)).find? (·.read.same value)
  found.getD ⟨numerator * Nat.pow 5 scale, -scale⟩

/-! ## Layout -/

/-- Zeros in a row. -/
def zeros (count : Nat) : List Char :=
  List.replicate count '0'

/-- The digits without trailing zeros. -/
def significant (digits : List Char) : List Char :=
  (digits.reverse.dropWhile (· == '0')).reverse

/-- The digits in front of a power of ten, with a point behind the first. -/
def mantissa : List Char → List Char
  | first :: second :: rest => first :: '.' :: second :: rest
  | short => short

/-- A positive number with the significant digits `digits`, of which `point`
stand before the point. Written out while the point falls at most 21 places
after the first digit and the fraction has at most five leading zeros; with a
power of ten otherwise. -/
def layout (digits : List Char) (point : Int) : List Char :=
  let count : Int := digits.length
  if count ≤ point ∧ point ≤ 21 then digits ++ zeros (point - count).toNat
  else if 0 < point ∧ point ≤ 21 then
    digits.take point.toNat ++ '.' :: digits.drop point.toNat
  else if -6 < point ∧ point ≤ 0 then
    '0' :: '.' :: zeros (-point).toNat ++ digits
  else
    let power := point - 1
    mantissa digits ++ 'e' :: (if power < 0 then '-' else '+') :: (toString power.natAbs).toList

/-- A positive decimal written out. -/
def render (decimal : Decimal) : String :=
  let digits := (toString decimal.digits).toList
  String.ofList (layout (significant digits) (digits.length + decimal.exponent))

end Decimal

/-- The text of a binary fraction. -/
def Binary.render (b : Binary) : String :=
  if b.numerator = 0 then "0"
  else
    let magnitude := (Decimal.shortest b.numerator.natAbs b.scale).render
    if b.numerator < 0 then "-" ++ magnitude else magnitude

/-- The text of a position. One of at most 53 binary digits is written in full;
of any other there are only as many digits as tell it from its neighbours. -/
def Position.render (position : Int) : String :=
  if position.natAbs.log2 < 53 then toString position
  else (Binary.ofInt position).render

end TapeMachine
