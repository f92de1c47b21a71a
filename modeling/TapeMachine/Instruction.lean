import TapeMachine.Text.Units

/-!
# Instructions

The language has eight instructions, each written as one character. Every
other character is comment text.
-/

namespace TapeMachine

/-- The eight instructions. -/
inductive Instruction where
  | moveRight
  | moveLeft
  | increment
  | decrement
  | output
  | input
  | loopOpen
  | loopClose
  deriving DecidableEq, Repr, Inhabited

namespace Instruction

/-- All instructions in their numbering. -/
def all : List Instruction :=
  [.moveRight, .moveLeft, .increment, .decrement, .output, .input, .loopOpen, .loopClose]

/-- The character an instruction is written as. -/
def symbol : Instruction → Char
  | .moveRight => '>'
  | .moveLeft => '<'
  | .increment => '+'
  | .decrement => '-'
  | .output => '.'
  | .input => ','
  | .loopOpen => '['
  | .loopClose => ']'

/-- The instruction a character is, or none for comment text. -/
def ofChar? : Char → Option Instruction
  | '>' => some .moveRight
  | '<' => some .moveLeft
  | '+' => some .increment
  | '-' => some .decrement
  | '.' => some .output
  | ',' => some .input
  | '[' => some .loopOpen
  | ']' => some .loopClose
  | _ => none

/-- Reading the character of an instruction gives the instruction. -/
theorem ofChar?_symbol (instruction : Instruction) :
    ofChar? instruction.symbol = some instruction := by
  cases instruction <;> rfl

/-- A character read as an instruction is the one the instruction is written as. -/
theorem symbol_of_ofChar? {c : Char} {instruction : Instruction}
    (h : ofChar? c = some instruction) : instruction.symbol = c := by
  unfold ofChar? at h
  split at h <;> simp_all [symbol] <;> subst h <;> rfl

/-- The instruction that a text is, if it is exactly one instruction character. -/
def ofText? (text : String) : Option Instruction :=
  match text.toList with
  | [c] => ofChar? c
  | _ => none

/-- The instructions of a text in order, comments left out. -/
def ofChars (text : List Char) : List Instruction :=
  text.filterMap ofChar?

/-- Instructions written out. -/
def render (instructions : List Instruction) : String :=
  String.ofList (instructions.map symbol)

end Instruction

/-! ## Bare program text -/

namespace ProgramText

/-- The characters allowed between instructions in bare program text: the space
and every control character before it. -/
def isSeparator (c : Char) : Bool :=
  c.toNat ≤ 0x20

/-- The position, in UTF-16 units, of the first character that is neither an
instruction nor a separator. Text without one is a bare program; that a matcher of the
grammar accepts just these is taken as documented. -/
def failure? (text : String) : Option Nat :=
  Text.Units.findIndex? (fun c => (Instruction.ofChar? c).isNone && !isSeparator c) text.toList

end ProgramText

end TapeMachine
