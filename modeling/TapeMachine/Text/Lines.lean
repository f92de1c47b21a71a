/-!
# Lines of a text

A line of a source ends at a line feed, and a carriage return just before it
belongs to the line's end. A carriage return anywhere else is part of its line,
so a source has one line more than it has line feeds. Typed input is more
generous: there a carriage return alone ends a line as well.
-/

namespace TapeMachine.Text.Lines

/-- Puts a character in front of the first line. -/
def extend (c : Char) : List (List Char) → List (List Char)
  | [] => [[c]]
  | line :: lines => (c :: line) :: lines

/-- The lines of a source without their ends. -/
def split : List Char → List (List Char)
  | [] => [[]]
  | '\r' :: '\n' :: rest => [] :: split rest
  | '\n' :: rest => [] :: split rest
  | c :: rest => extend c (split rest)

/-- The line with the given number, the first line being 1. -/
def line? (text : List Char) (number : Int) : Option (List Char) :=
  if number < 1 then none else (split text)[(number - 1).toNat]?

/-- The entry for the line with the given number, the first line being 1. -/
def entry? {α : Type} (entries : Array α) (number : Int) : Option α :=
  if number < 1 then none else entries[(number - 1).toNat]?

/-- The lines of typed input without their ends, and what follows the last end. -/
def splitTyped : List Char → List (List Char)
  | [] => [[]]
  | '\r' :: '\n' :: rest => [] :: splitTyped rest
  | c :: rest =>
    if c = '\n' ∨ c = '\r' then [] :: splitTyped rest else extend c (splitTyped rest)

/-- The lines of typed input. The last one need not be ended. -/
def typed (text : List Char) : List (List Char) :=
  let lines := splitTyped text
  if lines.getLast? = some [] then lines.dropLast else lines

end TapeMachine.Text.Lines
