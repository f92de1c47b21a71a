import TapeMachine.Compile
import TapeMachine.Proofs.Text.Held
import TapeMachine.Source.Framing

/-!
# Sources in pieces

What a reader holds is determined by the bytes that have come, or by the text, and not by
the pieces that they came in (`Holds.addText`, `HoldsBytes.addBytes`). So it reads the
same source however this is cut into pieces (`readsWhole`).
-/

namespace TapeMachine.Source

open Text.Utf8

/-! ## The byte order mark -/

/-- Text without the byte order mark at its front. A second mark behind it stays. -/
def withoutMark : List Char → List Char
  | [] => []
  | c :: rest => if c = byteOrderMark then rest else c :: rest

/-- The source that a text holds. -/
def ofText (text : String) : String :=
  String.ofList (withoutMark text.toList)

theorem withoutMark_append {front : List Char} (some : front ≠ []) (back : List Char) :
    withoutMark (front ++ back) = withoutMark front ++ back := by
  cases front with
  | nil => exact absurd rfl some
  | cons c rest =>
    rw [List.cons_append, withoutMark, withoutMark]
    split
    · rfl
    · rfl

/-- What was begun and never finished shows no mark. -/
theorem withoutMark_held (bytes : List UInt8) :
    withoutMark (decodeChars (held bytes)) = decodeChars (held bytes) := by
  rcases decodeChars_held_cases bytes with nothing | ⟨rest, begins⟩
  · rw [nothing]
    rfl
  · have other : replacement ≠ byteOrderMark := by decide
    rw [begins, withoutMark, if_neg other]

/-! ## What a reader holds -/

namespace Reader

/-- The reader has taken this text. -/
structure Holds (reader : Reader) (text : List Char) : Prop where
  parts : reader.parts.reverse.flatten = withoutMark text
  started : reader.started = !text.isEmpty

theorem Holds.addText {reader : Reader} {text : List Char} (holds : reader.Holds text)
    (more : List Char) : (reader.addText more).Holds (text ++ more) := by
  obtain ⟨parts, started⟩ := holds
  cases more with
  | nil =>
    rw [List.append_nil]
    exact ⟨parts, started⟩
  | cons c rest =>
    cases text with
    | nil =>
      obtain ⟨_, _, begun⟩ := reader
      obtain rfl : begun = false := started
      refine ⟨?_, rfl⟩
      show (List.reverse (_ :: _)).flatten = _
      rw [List.reverse_cons, List.flatten_append, parts]
      simp [withoutMark]
    | cons first others =>
      obtain ⟨_, _, begun⟩ := reader
      obtain rfl : begun = true := started
      refine ⟨?_, rfl⟩
      show (List.reverse (_ :: _)).flatten = _
      rw [List.reverse_cons, List.flatten_append, parts, withoutMark_append (by simp)]
      simp

theorem waiting_addText (reader : Reader) (more : List Char) :
    (reader.addText more).waiting = reader.waiting := by
  obtain ⟨_, _, _ | _⟩ := reader <;> cases more <;> rfl

/-- The reader has taken these bytes. -/
structure HoldsBytes (reader : Reader) (bytes : List UInt8) : Prop where
  decoded : reader.Holds (decodeChars (ready bytes))
  waits : reader.waiting = held bytes

theorem HoldsBytes.addBytes {reader : Reader} {bytes : List UInt8}
    (holds : reader.HoldsBytes bytes) (more : List UInt8) :
    (reader.addBytes more).HoldsBytes (bytes ++ more) := by
  obtain ⟨decoded, waits⟩ := holds
  refine ⟨?_, ?_⟩
  · rw [decodeChars_ready_append, ← waits]
    -- The bytes that wait are not among what a reader has taken.
    have kept : Holds { reader with waiting := held (reader.waiting ++ more) }
        (decodeChars (ready bytes)) := ⟨decoded.parts, decoded.started⟩
    exact kept.addText _
  · rw [held_append, ← waits]
    exact waiting_addText _ _

/-- At the end, what still waits is decoded as it would have been in one piece. -/
theorem HoldsBytes.finish {reader : Reader} {bytes : List UInt8}
    (holds : reader.HoldsBytes bytes) : reader.finish = ofText (decode bytes) := by
  obtain ⟨⟨parts, _⟩, waits⟩ := holds
  rw [Reader.finish, ofText, decode, String.toList_ofList, parts, waits]
  congr 1
  rw [← decodeChars_ready_held bytes]
  -- A mark is taken from the first text only; what still waits may be the first.
  cases before : decodeChars (ready bytes) with
  | nil => exact (withoutMark_held bytes).symm
  | cons c rest => rw [withoutMark_append (by simp)]

/-! ## Runs of pieces -/

theorem exists_reader_of_texts (texts : List String) {reader : Reader} {text : List Char}
    (holds : reader.Holds text) : ∃ after : Reader,
      (texts.map Piece.text).foldlM Reader.take reader = .ok after ∧
        after.Holds (text ++ (String.join texts).toList) ∧ after.waiting = reader.waiting := by
  induction texts generalizing reader text with
  | nil => exact ⟨reader, rfl, by simpa using holds, rfl⟩
  | cons first rest ih =>
    obtain ⟨after, runs, holds, waits⟩ := ih (holds.addText first.toList)
    refine ⟨after, runs, ?_, waits.trans (waiting_addText reader first.toList)⟩
    rw [String.toList_join, List.flatMap_cons, ← String.toList_join, ← List.append_assoc]
    exact holds

theorem exists_reader_of_bytes (chunks : List (List UInt8)) {reader : Reader}
    {bytes : List UInt8} (holds : reader.HoldsBytes bytes) : ∃ after : Reader,
      (chunks.map Piece.bytes).foldlM Reader.take reader = .ok after ∧
        after.HoldsBytes (bytes ++ chunks.flatten) := by
  induction chunks generalizing reader bytes with
  | nil => exact ⟨reader, rfl, by simpa using holds⟩
  | cons first rest ih =>
    obtain ⟨after, runs, holds⟩ := ih (holds.addBytes first)
    refine ⟨after, runs, ?_⟩
    rw [List.flatten_cons, ← List.append_assoc]
    exact holds

theorem holds_nil : Holds {} [] := ⟨rfl, rfl⟩

theorem holdsBytes_nil : HoldsBytes {} [] := ⟨holds_nil, rfl⟩

end Reader

theorem read_texts (texts : List String) :
    read (texts.map .text) = .ok (ofText (String.join texts)) := by
  obtain ⟨after, runs, ⟨parts, _⟩, waits⟩ := Reader.exists_reader_of_texts texts Reader.holds_nil
  rw [read, runs]
  show Except.ok after.finish = _
  rw [Reader.finish, parts, waits, List.nil_append, ofText]
  congr 2
  exact List.append_nil _

theorem read_bytes (chunks : List (List UInt8)) :
    read (chunks.map .bytes) = .ok (ofText (decode chunks.flatten)) := by
  obtain ⟨after, runs, holds⟩ := Reader.exists_reader_of_bytes chunks Reader.holdsBytes_nil
  rw [read, runs]
  show Except.ok after.finish = _
  rw [holds.finish, List.nil_append]

/-- Bytes that come in one piece. -/
theorem ofBytes_eq (bytes : List UInt8) : ofBytes bytes = ofText (decode bytes) :=
  (Reader.holdsBytes_nil.addBytes bytes).finish

/-! ## Framings -/

/-- Pieces that a text comes in: its bytes, cut anywhere, or parts of the text itself. -/
inductive Framing : String → List Piece → Prop where
  | bytes (chunks : List (List UInt8)) :
    Framing (decode chunks.flatten) (chunks.map .bytes)
  | texts (texts : List String) : Framing (String.join texts) (texts.map .text)

/-- Compiles the source that is read from pieces. -/
def compilePieces (pieces : List Piece) (name : String) (options : Optimize.Options) :
    Except UnsupportedPiece (Except CompileError Compiled) :=
  (read pieces).map fun text => compile { text, name } options

/-- How a source is cut into pieces has no bearing on what is read. -/
structure ReadsWhole : Prop where
  /-- From chunks of bytes, the text of all of the bytes is read. -/
  bytes : ∀ chunks : List (List UInt8),
    read (chunks.map .bytes) = .ok (ofText (decode chunks.flatten))
  /-- From pieces of text, all of the text is read. -/
  texts : ∀ texts : List String, read (texts.map .text) = .ok (ofText (String.join texts))
  /-- The source of a file is read as if the file came in chunks. -/
  file : ∀ chunks : List (List UInt8), read (chunks.map .bytes) = .ok (ofBytes chunks.flatten)
  /-- The bytes of a text, cut anywhere, are pieces of the text. -/
  encoded : ∀ (text : String) (chunks : List (List UInt8)), chunks.flatten = encode text →
    Framing text (chunks.map .bytes)
  /-- Two framings of a text give the same source, and compile to the same. -/
  alike : ∀ (text : String) (pieces other : List Piece), Framing text pieces →
    Framing text other → read pieces = read other ∧
      ∀ name options, compilePieces pieces name options = compilePieces other name options

theorem Framing.read_eq {text : String} {pieces : List Piece} (framing : Framing text pieces) :
    read pieces = .ok (ofText text) := by
  cases framing with
  | bytes chunks => exact read_bytes chunks
  | texts texts => exact read_texts texts

theorem readsWhole : ReadsWhole := by
  refine {
    bytes := read_bytes
    texts := read_texts
    file := ?file
    encoded := ?encoded
    alike := ?alike }
  case file =>
    intro chunks
    rw [ofBytes_eq, read_bytes]
  case encoded =>
    intro text chunks whole
    have framing := Framing.bytes chunks
    rw [whole, decode_encode] at framing
    exact framing
  case alike =>
    intro text pieces other framing framing'
    have same : read pieces = read other := by rw [framing.read_eq, framing'.read_eq]
    refine ⟨same, ?_⟩
    intro name options
    rw [compilePieces, compilePieces, same]

end TapeMachine.Source
