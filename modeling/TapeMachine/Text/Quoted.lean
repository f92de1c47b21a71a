import TapeMachine.Text.Lines
import TapeMachine.Text.Units

/-!
# Quoted text

How a text that may hold anything is shown inside a message: between quotes that
it does not need to escape where there are such, with every control character
written out. A long text is broken after its line feeds, one quoted part for each
line.
-/

namespace TapeMachine.Text.Quoted

/-- Whether a character is one of the two blocks of control characters. -/
def isControl (c : Char) : Bool :=
  c.toNat < 0x20 || (0x7f ≤ c.toNat && c.toNat < 0xa0)

/-- The upper-case hexadecimal digit of a number below 16. -/
def hexDigit (digit : Nat) : Char :=
  if digit < 10 then Char.ofNat (0x30 + digit) else Char.ofNat (0x37 + digit)

/-- The control characters that have a letter of their own. -/
def letters : List (Char × Char) :=
  [('\x08', 'b'), ('\t', 't'), ('\n', 'n'), ('\x0c', 'f'), ('\r', 'r')]

/-- A character as it is written between quotes. -/
def escape (quote c : Char) : List Char :=
  if c = quote ∨ c = '\x5c' then ['\x5c', c]
  else if isControl c then
    match letters.lookup c with
    | some letter => ['\x5c', letter]
    | none => ['\x5c', 'x', hexDigit (c.toNat / 16), hexDigit (c.toNat % 16)]
  else [c]

/-- Whether a dollar sign stands before an opening brace, which means something
else between back quotes. -/
def opensBrace : List Char → Bool
  | '$' :: '\x7b' :: _ => true
  | _ :: rest => opensBrace rest
  | [] => false

/-- The quote around a text: the first of single, double and back quotes that need
not be escaped in it, and the single quote if there is none. -/
def quoteFor (text : List Char) : Char :=
  if '\x27' ∉ text then '\x27'
  else if '\x22' ∉ text then '\x22'
  else if '\x60' ∉ text ∧ opensBrace text = false then '\x60'
  else '\x27'

/-- A text between quotes. -/
def enclose (text : List Char) : List Char :=
  quoteFor text :: text.flatMap (escape (quoteFor text)) ++ [quoteFor text]

/-- The parts of a text, each up to and with a line feed. -/
def parts : List Char → List (List Char)
  | [] => []
  | c :: rest => if c = '\n' then [c] :: parts rest else Lines.extend c (parts rest)

/-- The greatest length of a text that is shown unbroken, in units. -/
def longestUnbroken : Nat := 124

/-- A text as it is shown. -/
def render (text : List Char) : List Char :=
  if longestUnbroken < Units.length text then
    [' ', '+', '\n', ' ', ' '].intercalate ((parts text).map enclose)
  else enclose text

/-- How much of a text is looked at for an excerpt, in units. -/
def horizon : Nat := 10000

/-- A text as it is shown, cut to at most `limit` units; dots tell that something
was cut off. What lies beyond the `horizon` is not looked at. -/
def excerpt (limit : Nat) (text : String) : String :=
  let shown := render (Units.take horizon text.toList)
  String.ofList (if limit < Units.length shown then Units.take limit shown ++ ['.', '.', '.']
    else shown)

/-! ## What is written -/

/-- The parts of a text make up the text. -/
theorem flatten_parts (text : List Char) : (parts text).flatten = text := by
  induction text with
  | nil => rfl
  | cons c rest ih =>
    by_cases line : c = '\n'
    · simp [parts, line, ih]
    · simp only [parts, line, if_false]
      cases found : parts rest with
      | nil => simpa [Lines.extend, found] using ih
      | cons first others => simpa [Lines.extend, found] using ih

/-- No control character is written between quotes. -/
theorem isControl_of_mem_escape {quote c d : Char} (plain : isControl quote = false)
    (written : d ∈ escape quote c) : isControl d = false := by
  have digits : ∀ n, n < 16 → isControl (hexDigit n) = false := by decide
  have named : ∀ pair ∈ letters, isControl pair.2 = false := by decide
  unfold escape at written
  split at written
  · rename_i special
    rcases special with rfl | rfl <;> simp at written <;> rcases written with rfl | rfl <;>
      first | rfl | exact plain
  · split at written
    · rename_i control
      have small : c.toNat < 0xa0 := by
        simp [isControl] at control
        omega
      split at written
      · rename_i letter found
        obtain ⟨before, after, split, _⟩ := List.lookup_eq_some_iff.1 found
        have := named (c, letter) (by simp [split])
        simp at written
        rcases written with rfl | rfl
        · rfl
        · exact this
      · simp at written
        rcases written with rfl | rfl | rfl | rfl
        · rfl
        · rfl
        · exact digits _ (by omega)
        · exact digits _ (by omega)
    · rename_i other
      simp at written
      simpa [written] using other

end TapeMachine.Text.Quoted
