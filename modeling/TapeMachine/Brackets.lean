import TapeMachine.Instruction

/-!
# Loop brackets

A program is well formed when its loop brackets match. A close matches the
nearest open before it that is still unmatched; the closes and opens left over
are the faults of a program.
-/

namespace TapeMachine.Brackets

/-- The brackets left unmatched so far, by position: the opens, innermost
first, and the closes, last first. -/
structure Unmatched where
  opens : List Nat := []
  closes : List Nat := []
  deriving DecidableEq, Repr

/-- Takes the instruction at the next position. -/
def Unmatched.take (left : Unmatched) (position : Nat) : Instruction → Unmatched
  | .loopOpen => { left with opens := position :: left.opens }
  | .loopClose =>
    match left.opens with
    | [] => { left with closes := position :: left.closes }
    | _ :: outer => { left with opens := outer }
  | _ => left

/-- Takes the instructions from a position on. -/
def scanFrom (left : Unmatched) (position : Nat) : List Instruction → Unmatched
  | [] => left
  | instruction :: rest => scanFrom (left.take position instruction) (position + 1) rest

/-- The positions of the closes without an open, in order. -/
def strayCloses (program : List Instruction) : List Nat :=
  (scanFrom {} 0 program).closes.reverse

/-- The positions of the opens without a close, in order. -/
def unclosedOpens (program : List Instruction) : List Nat :=
  (scanFrom {} 0 program).opens.reverse

/-- Whether every bracket is matched. -/
def balanced (program : List Instruction) : Bool :=
  (strayCloses program).isEmpty && (unclosedOpens program).isEmpty

/-! ## Matching -/

/-- Text in which every bracket is matched. -/
inductive Balanced : List Instruction → Prop where
  | nil : Balanced []
  /-- An instruction that is not a bracket, then more. -/
  | plain {instruction : Instruction} {rest : List Instruction} :
      instruction ≠ .loopOpen → instruction ≠ .loopClose → Balanced rest →
        Balanced (instruction :: rest)
  /-- A loop, then more. -/
  | loop {body rest : List Instruction} :
      Balanced body → Balanced rest → Balanced (.loopOpen :: body ++ .loopClose :: rest)

/-- An open and a close match if what stands strictly between them is balanced. -/
def Matches (program : List Instruction) (opening closing : Nat) : Prop :=
  opening < closing ∧ program[opening]? = some .loopOpen ∧
    program[closing]? = some .loopClose ∧
      Balanced ((program.take closing).drop (opening + 1))

/-- The distance to the first bracket of one kind that is not used up by brackets
of the other kind before it; `nested` of those are to be made up for. -/
def distance (toward away : Instruction) : Nat → List Instruction → Option Nat
  | _, [] => none
  | nested, instruction :: rest =>
    if instruction = away then (distance toward away (nested + 1) rest).map (· + 1)
    else if instruction = toward then
      match nested with
      | 0 => some 0
      | outer + 1 => (distance toward away outer rest).map (· + 1)
    else (distance toward away nested rest).map (· + 1)

/-- The close that matches an open. -/
def closeOf (program : List Instruction) (opening : Nat) : Option Nat :=
  (distance .loopClose .loopOpen 0 (program.drop (opening + 1))).map (opening + 1 + ·)

/-- The open that matches a close. -/
def openOf (program : List Instruction) (closing : Nat) : Option Nat :=
  (distance .loopOpen .loopClose 0 (program.take closing).reverse).map (closing - 1 - ·)

end TapeMachine.Brackets
