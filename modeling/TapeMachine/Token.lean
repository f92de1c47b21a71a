import TapeMachine.Instruction
import TapeMachine.StructureError

/-!
# Tokens

A token is an instruction together with the place it stands at. Tokens are
numbered from zero in the order of the text.
-/

namespace TapeMachine

/-- An instruction at its place in the text. -/
structure Token where
  instruction : Instruction
  /-- Counted from 1. -/
  line : Int
  /-- Counted from 1, in characters. -/
  column : Int
  /-- Counted from 0, in UTF-16 units. -/
  offset : Int
  deriving DecidableEq, Repr, Inhabited

/-- The tokens of a text, numbered by their position. -/
structure Tokens where
  entries : Array Token := #[]
  deriving DecidableEq, Repr

namespace Tokens

/-- The number of tokens. -/
def count (tokens : Tokens) : Nat :=
  tokens.entries.size

/-- Adds a token behind the others. -/
def add (tokens : Tokens) (token : Token) : Tokens :=
  ⟨tokens.entries.push token⟩

/-- The tokens in order. -/
def toList (tokens : Tokens) : List Token :=
  tokens.entries.toList

/-- The tokens in order with their numbers. -/
def numbered (tokens : Tokens) : List (Nat × Token) :=
  tokens.toList.zipIdx.map Prod.swap

/-- The token with a given number. -/
def get (tokens : Tokens) (id : Int) : Except StructureError Token :=
  match id with
  | .ofNat n =>
    match tokens.entries[n]? with
    | some token => .ok token
    | none => .error (.invalidToken id)
  | .negSucc _ => .error (.invalidToken id)

/-- The instructions of the tokens. -/
def instructions (tokens : Tokens) : List Instruction :=
  tokens.toList.map Token.instruction

/-- The tokens written out as bare program text. -/
def render (tokens : Tokens) : String :=
  Instruction.render tokens.instructions

end Tokens

/-! ## Scanning -/

namespace Token

/-- A place in a text. -/
structure Place where
  line : Nat := 1
  column : Nat := 1
  offset : Nat := 0
  deriving DecidableEq, Repr

/-- The place after a character. Only a line feed starts a new line. -/
def Place.after (place : Place) (c : Char) : Place :=
  if c = '\n' then ⟨place.line + 1, 1, place.offset + Text.Units.ofChar c⟩
  else ⟨place.line, place.column + 1, place.offset + Text.Units.ofChar c⟩

/-- An instruction at a place. -/
def Place.token (place : Place) (instruction : Instruction) : Token :=
  ⟨instruction, place.line, place.column, place.offset⟩

/-- The tokens of the characters that start at a place. -/
def scanFrom (place : Place) : List Char → List Token
  | [] => []
  | c :: rest =>
    match Instruction.ofChar? c with
    | some instruction => place.token instruction :: scanFrom (place.after c) rest
    | none => scanFrom (place.after c) rest

/-- The tokens of a text. A byte order mark in front takes up an offset but no
column. -/
def scan : List Char → List Token
  | '\ufeff' :: rest => scanFrom ⟨1, 1, 1⟩ rest
  | text => scanFrom {} text

end Token

/-- The tokens of a source text. -/
def Tokens.ofSource (source : String) : Tokens :=
  ⟨(Token.scan source.toList).toArray⟩

end TapeMachine
