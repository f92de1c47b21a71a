/-!
# UTF-8

Encoding of text as bytes, and decoding of any byte string as text. Decoding
never fails: each maximal subpart of an ill-formed sequence becomes one
U+FFFD. The decoder is a machine that takes one byte at a time, so a text may
arrive in pieces; `heldLength` is the number of bytes at the end of a piece
that a reader keeps back because they have the shape of an unfinished
character.
-/

namespace TapeMachine.Text.Utf8

/-- The bytes of a text. -/
def encode (text : String) : List UInt8 :=
  text.toList.flatMap String.utf8EncodeChar

/-- The character that stands for an ill-formed sequence. -/
def replacement : Char := '\ufffd'

/-- The byte order mark, which may stand in front of a text. -/
def byteOrderMark : Char := '\ufeff'

/-- A character whose lead byte has been read: the value bits so far, the
number of bytes still owed, and the range the next of them must lie in. -/
structure Unfinished where
  bits : Nat
  owed : Nat
  low : UInt8
  high : UInt8

/-- What a lead byte of two or more bytes announces. The ranges of the second
byte exclude overlong forms, surrogates and values above U+10FFFF. -/
def lead? (b : UInt8) : Option Unfinished :=
  if 0xC2 ≤ b ∧ b ≤ 0xDF then some ⟨b.toNat - 0xC0, 1, 0x80, 0xBF⟩
  else if b = 0xE0 then some ⟨0, 2, 0xA0, 0xBF⟩
  else if b = 0xED then some ⟨0xD, 2, 0x80, 0x9F⟩
  else if 0xE1 ≤ b ∧ b ≤ 0xEF then some ⟨b.toNat - 0xE0, 2, 0x80, 0xBF⟩
  else if b = 0xF0 then some ⟨0, 3, 0x90, 0xBF⟩
  else if 0xF1 ≤ b ∧ b ≤ 0xF3 then some ⟨b.toNat - 0xF0, 3, 0x80, 0xBF⟩
  else if b = 0xF4 then some ⟨4, 3, 0x80, 0x8F⟩
  else none

/-- The machine between two bytes: the character it is inside of, if any, and
the text so far, last character first. -/
structure Decoder where
  inside : Option Unfinished := none
  written : List Char := []

namespace Decoder

/-- Adds a character to the text. -/
def write (d : Decoder) (c : Char) : Decoder :=
  ⟨none, c :: d.written⟩

/-- Takes a byte between characters. -/
def start (d : Decoder) (b : UInt8) : Decoder :=
  if b < 0x80 then d.write (Char.ofNat b.toNat)
  else
    match lead? b with
    | some unfinished => { d with inside := some unfinished }
    | none => d.write replacement

/-- Takes one byte. A byte that cannot continue the current character ends it
as ill-formed and is then taken between characters. -/
def push (d : Decoder) (b : UInt8) : Decoder :=
  match d.inside with
  | none => d.start b
  | some u =>
    if u.low ≤ b ∧ b ≤ u.high then
      let bits := u.bits * 64 + (b.toNat - 0x80)
      if u.owed ≤ 1 then d.write (Char.ofNat bits)
      else { d with inside := some ⟨bits, u.owed - 1, 0x80, 0xBF⟩ }
    else (d.write replacement).start b

/-- The whole text; a character left unfinished is ill-formed. -/
def finish (d : Decoder) : List Char :=
  match d.inside with
  | none => d.written.reverse
  | some _ => (replacement :: d.written).reverse

end Decoder

/-- The characters of a byte string. -/
def decodeChars (bytes : List UInt8) : List Char :=
  (bytes.foldl Decoder.push {}).finish

/-- The text of a byte string. -/
def decode (bytes : List UInt8) : String :=
  String.ofList (decodeChars bytes)

/-- Whether a byte has the form of a second or later byte of a character. -/
def isTail (b : UInt8) : Bool :=
  0x80 ≤ b && b < 0xC0

/-- The length of the sequence that a byte begins by its form alone; zero for
a byte that begins no sequence of two or more. -/
def announcedLength (b : UInt8) : Nat :=
  if 0xC0 ≤ b ∧ b < 0xE0 then 2
  else if 0xE0 ≤ b ∧ b < 0xF0 then 3
  else if 0xF0 ≤ b ∧ b < 0xF8 then 4
  else 0

/-- Looks for the lead byte from the last byte backwards; `seen` counts the
bytes from the current one to the end. -/
def heldFrom : List UInt8 → Nat → Nat
  | [], _ => 0
  | b :: before, seen =>
    if isTail b then heldFrom before (seen + 1)
    else if seen < announcedLength b then seen else 0

/-- The number of bytes at the end that form an unfinished character by shape:
a lead byte with fewer bytes after it than it announces. -/
def heldLength (bytes : List UInt8) : Nat :=
  heldFrom (bytes.reverse.take 3) 1

end TapeMachine.Text.Utf8
