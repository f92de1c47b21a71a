import TapeMachine.Text.Lines
import TapeMachine.Text.Units

/-!
# Source files

A source text under the name that reports give it. Source texts are made of whole
characters, here and in all of `Source`; a lone surrogate is not one, so texts with
lone surrogates are left out.
-/

namespace TapeMachine

/-- A named source text. -/
structure SourceFile where
  text : String
  name : String := "<input>"
  deriving DecidableEq, Repr

/-- The line with a given number, the first being 1, without its end. -/
def SourceFile.line? (file : SourceFile) (number : Int) : Option String :=
  (Text.Lines.line? file.text.toList number).map String.ofList

/-- The number of UTF-16 units of each line, without its end. -/
def SourceFile.widths (file : SourceFile) : Array Nat :=
  ((Text.Lines.split file.text.toList).map Text.Units.length).toArray

end TapeMachine
