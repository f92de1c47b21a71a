/-!
# Blank characters

The characters that are trimmed from both ends of an interactive line:
Unicode's space separators, the line and paragraph separators, the five ASCII
controls from tab to carriage return, and the byte order mark.
-/

namespace TapeMachine.Text.Blank

/-- The blank characters as ranges of code points. -/
def ranges : List (Nat × Nat) :=
  [(0x0009, 0x000D), (0x0020, 0x0020), (0x00A0, 0x00A0), (0x1680, 0x1680),
   (0x2000, 0x200A), (0x2028, 0x2029), (0x202F, 0x202F), (0x205F, 0x205F),
   (0x3000, 0x3000), (0xFEFF, 0xFEFF)]

/-- Whether a character is trimmed. -/
def isBlank (c : Char) : Bool :=
  ranges.any fun range => range.1 ≤ c.toNat && c.toNat ≤ range.2

/-- A text without the blanks at its ends. -/
def trim (text : List Char) : List Char :=
  (((text.dropWhile isBlank).reverse).dropWhile isBlank).reverse

end TapeMachine.Text.Blank
