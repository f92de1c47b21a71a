import TapeMachine.Text.Utf8

/-!
# Reading a source in pieces

A source may arrive in pieces of text or of bytes. Bytes that end inside a
character wait for the rest of it; a byte order mark is dropped from the front
of the first piece that yields any text. Texts have no lone surrogates, as decoded
text never does, and are put together whatever their length.
-/

namespace TapeMachine.Source

/-- A value that is no piece of a source, by the name of its type. -/
structure UnsupportedPiece where
  typeName : String
  deriving DecidableEq, Repr

/-- The wording of the fault. -/
def UnsupportedPiece.message (piece : UnsupportedPiece) : String :=
  "Unsupported stream chunk: " ++ piece.typeName

/-- A piece of a source. -/
inductive Piece where
  | text (text : String)
  | bytes (bytes : List UInt8)
  | unsupported (piece : UnsupportedPiece)
  deriving DecidableEq, Repr

/-- What has been read: the text, piece by piece with the last first, the bytes
that wait for the rest of their character, and whether any text has come. -/
structure Reader where
  parts : List (List Char) := []
  waiting : List UInt8 := []
  started : Bool := false
  deriving DecidableEq, Repr

namespace Reader

/-- Adds text; the first text loses a byte order mark. -/
def addText (reader : Reader) (text : List Char) : Reader :=
  match text, reader.started with
  | [], _ => reader
  | c :: rest, false =>
    let kept := if c = Text.Utf8.byteOrderMark then rest else c :: rest
    { reader with parts := kept :: reader.parts, started := true }
  | text, true => { reader with parts := text :: reader.parts }

/-- Adds bytes, keeping back an unfinished character at their end. -/
def addBytes (reader : Reader) (bytes : List UInt8) : Reader :=
  let all := reader.waiting ++ bytes
  let ready := all.length - Text.Utf8.heldLength all
  { reader with waiting := all.drop ready }.addText (Text.Utf8.decodeChars (all.take ready))

/-- Takes a piece. -/
def take (reader : Reader) : Piece → Except UnsupportedPiece Reader
  | .text text => .ok (reader.addText text.toList)
  | .bytes bytes => .ok (reader.addBytes bytes)
  | .unsupported piece => .error piece

/-- The whole text; an unfinished character at the end is ill-formed. That a host has
no texts longer than `Text.Units.maxLength` is left out here. -/
def finish (reader : Reader) : String :=
  String.ofList (reader.parts.reverse.flatten ++ Text.Utf8.decodeChars reader.waiting)

end Reader

/-- Reads a source from its pieces. -/
def read (pieces : List Piece) : Except UnsupportedPiece String := do
  let reader ← pieces.foldlM Reader.take {}
  return reader.finish

/-- Reads a source from its bytes. -/
def ofBytes (bytes : List UInt8) : String :=
  (Reader.addBytes {} bytes).finish

end TapeMachine.Source
