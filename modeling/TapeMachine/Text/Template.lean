import TapeMachine.Number.Decimal

/-!
# Message templates

A template is text with placeholders: an opening brace, one or more word
characters and a closing brace. A template is split into pieces once, from left
to right, and only then are the placeholders filled, so text that is filled in
is never read as a template again. Templates and values are texts of whole
characters; a lone surrogate is not one, so texts with lone surrogates are left
out.
-/

namespace TapeMachine.Text.Template

/-- A value that a placeholder can be filled with. -/
inductive Value where
  | text (words : String)
  | number (n : Int)
  deriving DecidableEq, Repr

/-- The text that a value is written as. -/
def Value.render : Value → String
  | .text words => words
  | .number n => Position.render n

/-- Values by key, in the order they were supplied. -/
abbrev Args := List (String × Value)

/-- A piece of a template: one literal character, or a placeholder's key. -/
inductive Piece where
  | literal (c : Char)
  | placeholder (key : List Char)
  deriving DecidableEq, Repr

/-- Whether a character may stand in a key: ASCII letters, digits and `_`. -/
def isWord (c : Char) : Bool :=
  c.isAlphanum || c == '_'

/-- Splits a template. While the characters after an opening brace may still be
a key, `key` holds them, last first; once they cannot, the brace and they turn
out to be literal text. -/
def piecesFrom : Option (List Char) → List Char → List Piece
  | none, [] => []
  | some key, [] => .literal '\x7b' :: key.reverse.map .literal
  | none, c :: rest =>
    if c = '\x7b' then piecesFrom (some []) rest
    else .literal c :: piecesFrom none rest
  | some key, c :: rest =>
    if isWord c then piecesFrom (some (c :: key)) rest
    else if c = '\x7d' ∧ key ≠ [] then
      .placeholder key.reverse :: piecesFrom none rest
    else
      .literal '\x7b' :: key.reverse.map .literal ++
        (if c = '\x7b' then piecesFrom (some []) rest
         else .literal c :: piecesFrom none rest)

/-- The pieces of a template. -/
def pieces (template : String) : List Piece :=
  piecesFrom none template.toList

/-- Keys that every record of values answers for although nobody supplied
them, with the text they answer. A supplied value under the same key wins. -/
def builtin : List (String × String) :=
  [("constructor", "function Object() \x7b [native code] \x7d"),
   ("__proto__", "[object Object]")] ++
  (["__defineGetter__", "__defineSetter__", "__lookupGetter__", "__lookupSetter__",
    "hasOwnProperty", "isPrototypeOf", "propertyIsEnumerable", "toLocaleString",
    "toString", "valueOf"].map fun name =>
      (name, "function " ++ name ++ "() \x7b [native code] \x7d"))

/-- The text under a key: the supplied value, or else the built-in answer. -/
def lookup? (args : Args) (key : String) : Option String :=
  match args.lookup key with
  | some value => some value.render
  | none => builtin.lookup key

/-- A placeholder as it is written in a template. -/
def bracedKey (key : List Char) : List Char :=
  '\x7b' :: key ++ ['\x7d']

/-- The text of a piece; a placeholder without a value stays as written. -/
def Piece.fill (args : Args) : Piece → List Char
  | .literal c => [c]
  | .placeholder key =>
    match lookup? args (String.ofList key) with
    | some text => text.toList
    | none => bracedKey key

/-- Fills a template. Without a record of values it stays as it is. -/
def interpolate (template : String) : Option Args → String
  | none => template
  | some args => String.ofList ((pieces template).flatMap (Piece.fill args))

end TapeMachine.Text.Template
