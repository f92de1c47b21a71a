/-!
# UTF-16 positions

Positions in a source text are counted in UTF-16 code units: a character
outside the basic plane takes two, every other takes one.
-/

namespace TapeMachine.Text.Units

/-- The number of units of one character. -/
def ofChar (c : Char) : Nat :=
  if c.toNat < 0x10000 then 1 else 2

/-- The number of units of a text. -/
def length : List Char → Nat
  | [] => 0
  | c :: rest => ofChar c + length rest

/-- The greatest length of a text. -/
def maxLength : Nat := 536870888

/-- The unit index of the first character that satisfies `p`. -/
def findIndex? (p : Char → Bool) : List Char → Option Nat
  | [] => none
  | c :: rest => if p c then some 0 else (findIndex? p rest).map (ofChar c + ·)

/-- The character that starts at a unit index, if one does. -/
def charAt? : List Char → Nat → Option Char
  | [], _ => none
  | c :: rest, index =>
    if index = 0 then some c
    else if index < ofChar c then none
    else charAt? rest (index - ofChar c)

theorem length_append (front back : List Char) :
    length (front ++ back) = length front + length back := by
  induction front with
  | nil => simp [length]
  | cons c rest ih =>
    simp only [List.cons_append, length, ih]
    omega

theorem length_replicate (count : Nat) (c : Char) :
    length (List.replicate count c) = count * ofChar c := by
  induction count with
  | zero => simp [length]
  | succ count ih =>
    simp only [List.replicate_succ, length, ih, Nat.succ_mul]
    omega

theorem length_le (text : List Char) : length text ≤ 2 * text.length := by
  induction text with
  | nil => exact Nat.le_refl 0
  | cons c rest ih =>
    have atMostTwo : ofChar c ≤ 2 := by
      unfold ofChar
      split <;> omega
    rw [length, List.length_cons]
    omega

/-- The longest beginning of a text, in whole characters, of at most `limit` units. -/
def take : Nat → List Char → List Char
  | _, [] => []
  | limit, c :: rest => if ofChar c ≤ limit then c :: take (limit - ofChar c) rest else []

theorem length_take_le (limit : Nat) (text : List Char) : length (take limit text) ≤ limit := by
  induction text generalizing limit with
  | nil => exact Nat.zero_le _
  | cons c rest ih =>
    by_cases fits : ofChar c ≤ limit
    · have := ih (limit - ofChar c)
      simp only [take, fits, if_true, length]
      omega
    · simp [take, fits, length]

end TapeMachine.Text.Units
