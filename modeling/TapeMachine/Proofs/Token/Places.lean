import Mathlib.Data.List.DropRight
import Mathlib.Data.List.Forall2
import TapeMachine.Proofs.Diagnostic.Length
import TapeMachine.Proofs.Source.Framing
import TapeMachine.Token

/-!
# The places of tokens

Scanning carries three counts along: lines, characters since the line began, and UTF-16 units.
What they are at a character is a matter of the text before it alone (`Place.behind`), so each
token says where in the source its own character stands (`exists_placed`). Only a byte order
mark at the very front is counted by one of them and not by the others.
-/

namespace TapeMachine

/-! ## Units -/

namespace Text.Units

theorem ofChar_pos (c : Char) : 0 < ofChar c := by
  unfold ofChar
  split <;> omega

theorem length_take_lt {text : List Char} {place later : Nat} (before : place < later)
    (inside : later ≤ text.length) : length (text.take place) < length (text.take later) := by
  have split : text.take later = text.take place ++ (text.take later).drop place := by
    have front : (text.take later).take place = text.take place := by
      rw [List.take_take, Nat.min_eq_left (Nat.le_of_lt before)]
    rw [← front, List.take_append_drop]
  cases between : (text.take later).drop place with
  | nil =>
    have short := List.drop_eq_nil_iff.1 between
    rw [List.length_take] at short
    omega
  | cons c rest =>
    have positive := ofChar_pos c
    rw [split, between, length_append, length]
    omega

/-- The units before a character are the index of the character. -/
theorem charAt?_length (before : List Char) (c : Char) (behind : List Char) :
    charAt? (before ++ c :: behind) (length before) = some c := by
  induction before with
  | nil => simp [charAt?, length]
  | cons first rest ih =>
    have positive := ofChar_pos first
    rw [List.cons_append, charAt?, length, if_neg (by omega), if_neg (by omega),
      Nat.add_sub_cancel_left]
    exact ih

end Text.Units

/-! ## The place behind a text -/

/-- What a text has behind its last line feed. A byte order mark at the front of the text is
not part of it. -/
def Text.lastLine (text : List Char) : List Char :=
  (Source.withoutMark text).rtakeWhile (· != '\n')

theorem Source.withoutMark_suffix (text : List Char) : withoutMark text <:+ text := by
  cases text with
  | nil => exact List.suffix_refl []
  | cons first rest =>
    rw [withoutMark]
    split
    · exact List.suffix_cons first rest
    · exact List.suffix_refl _

theorem Source.withoutMark_concat {before : List Char} {c : Char}
    (other : before ≠ [] ∨ c ≠ Text.Utf8.byteOrderMark) :
    withoutMark (before ++ [c]) = withoutMark before ++ [c] := by
  cases before with
  | cons first rest => exact withoutMark_append (by simp) [c]
  | nil =>
    have notMark : c ≠ Text.Utf8.byteOrderMark := by simpa using other
    simp [withoutMark, notMark]

theorem Text.lastLine_concat {before : List Char} {c : Char}
    (other : before ≠ [] ∨ c ≠ Utf8.byteOrderMark) :
    lastLine (before ++ [c]) = if c = '\n' then [] else lastLine before ++ [c] := by
  unfold lastLine
  rw [Source.withoutMark_concat other, List.rtakeWhile_concat]
  by_cases feed : c = '\n'
  · simp [feed]
  · simp [feed]

namespace Token

/-- The place that scanning a text leads to. -/
def Place.behind (before : List Char) : Place where
  line := 1 + before.count '\n'
  column := 1 + (Text.lastLine before).length
  offset := Text.Units.length before

theorem Place.after_behind {before : List Char} {c : Char}
    (other : before ≠ [] ∨ c ≠ Text.Utf8.byteOrderMark) :
    (behind before).after c = behind (before ++ [c]) := by
  unfold after behind
  rw [Text.lastLine_concat other, Text.Units.length_append]
  by_cases feed : c = '\n'
  · subst feed
    simp [Text.Units.length, Nat.add_assoc]
  · simp [feed, Text.Units.length, List.count_append, Nat.add_assoc]

/-! ## Tokens at their places -/

/-- The token is the instruction that stands at a place of the text, counted in characters,
and says where that is. -/
structure PlacedAt (text : List Char) (place : Nat) (token : Token) : Prop where
  symbol : text[place]? = some token.instruction.symbol
  /-- The offset is the index of the character in UTF-16 units. -/
  offset : token.offset = Text.Units.length (text.take place)
  charAt : Text.Units.charAt? text token.offset.toNat = some token.instruction.symbol
  line : token.line = 1 + (text.take place).count '\n'
  column : token.column = 1 + (Text.lastLine (text.take place)).length

theorem placedAt_behind {before : List Char} {c : Char} {instruction : Instruction}
    (read : Instruction.ofChar? c = some instruction) (rest : List Char) :
    PlacedAt (before ++ c :: rest) before.length ((Place.behind before).token instruction) := by
  have written : instruction.symbol = c := Instruction.symbol_of_ofChar? read
  have front : (before ++ c :: rest).take before.length = before := by simp
  constructor
  · simp [Place.token, written]
  · rw [front]
    rfl
  · show Text.Units.charAt? (before ++ c :: rest) (Text.Units.length before) = _
    rw [Text.Units.charAt?_length]
    simp [Place.token, written]
  · rw [front]
    simp [Place.token, Place.behind]
  · rw [front]
    simp [Place.token, Place.behind]

/-- Whether an instruction stands at a place of the text. -/
def standsAt (text : List Char) (place : Nat) : Bool :=
  (text[place]?.bind Instruction.ofChar?).isSome

theorem standsAt_iff (text : List Char) (place : Nat) :
    standsAt text place = true ↔
      ∃ instruction : Instruction, text[place]? = some instruction.symbol := by
  unfold standsAt
  constructor
  · intro stands
    obtain ⟨instruction, read⟩ := Option.isSome_iff_exists.1 stands
    obtain ⟨c, found, read⟩ := Option.bind_eq_some_iff.1 read
    exact ⟨instruction, by rw [found, Instruction.symbol_of_ofChar? read]⟩
  · rintro ⟨instruction, found⟩
    simp [found, Instruction.ofChar?_symbol]

/-- Scanning goes from instruction to instruction. What is scanned follows the text before it,
which is what it is counted from. -/
theorem forall₂_scanFrom {before rest : List Char}
    (other : before ≠ [] ∨ rest.head? ≠ some Text.Utf8.byteOrderMark) :
    List.Forall₂ (PlacedAt (before ++ rest))
      ((List.range' before.length rest.length).filter (standsAt (before ++ rest)))
      (scanFrom (Place.behind before) rest) := by
  induction rest generalizing before with
  | nil => exact .nil
  | cons c rest ih =>
    have notMark : before ≠ [] ∨ c ≠ Text.Utf8.byteOrderMark := by simpa using other
    have shift : before ++ c :: rest = (before ++ [c]) ++ rest := by simp
    have length : before.length + 1 = (before ++ [c]).length := by simp
    have later := ih (.inl (show before ++ [c] ≠ [] by simp))
    rw [← shift, ← length, ← Place.after_behind notMark] at later
    have here : standsAt (before ++ c :: rest) before.length = (Instruction.ofChar? c).isSome := by
      simp [standsAt]
    rw [List.length_cons, List.range'_succ, List.filter_cons, here, scanFrom]
    cases read : Instruction.ofChar? c with
    | none => simpa using later
    | some instruction => simpa using ⟨placedAt_behind read rest, later⟩

theorem forall₂_scan (text : List Char) :
    List.Forall₂ (PlacedAt text) ((List.range text.length).filter (standsAt text)) (scan text) := by
  unfold scan
  split
  · next rest =>
    have scanned := @forall₂_scanFrom ['\ufeff'] rest (.inl (by simp))
    have mark : standsAt ('\ufeff' :: rest) 0 = false := rfl
    rw [List.length_cons, List.range_eq_range', List.range'_succ, List.filter_cons, mark]
    exact scanned
  · next noMark =>
    rw [List.range_eq_range']
    refine @forall₂_scanFrom [] text (.inr ?_)
    intro front
    obtain ⟨rest, whole⟩ := List.head?_eq_some_iff.1 front
    exact noMark rest whole

theorem exists_placedAt {text : List Char} {id : Nat} {token : Token}
    (found : (scan text)[id]? = some token) : ∃ place, PlacedAt text place token := by
  obtain ⟨inside, rfl⟩ := List.getElem?_eq_some_iff.1 found
  obtain ⟨length, placed⟩ := List.forall₂_iff_get.1 (forall₂_scan text)
  exact ⟨_, placed id (length ▸ inside) inside⟩

end Token

/-! ## The tokens of a source -/

/-- The tokens of a source are one for each instruction in it, at these places in the order of
the text. -/
structure Tokens.Placed (source : String) (places : List Nat) : Prop where
  ascending : places.Pairwise (· < ·)
  /-- The places are those where the character of an instruction stands. -/
  instructions : ∀ place, place ∈ places ↔
    ∃ instruction : Instruction, source.toList[place]? = some instruction.symbol
  tokens : List.Forall₂ (Token.PlacedAt source.toList) places (ofSource source).toList
  offsets : (ofSource source).toList.Pairwise fun token later => token.offset < later.offset

theorem Token.PlacedAt.offset_lt {text : List Char} {place later : Nat} {token other : Token}
    (placed : PlacedAt text place token) (placed' : PlacedAt text later other)
    (before : place < later) : token.offset < other.offset := by
  have inside := (List.getElem?_eq_some_iff.1 placed'.symbol).1
  rw [placed.offset, placed'.offset]
  exact Int.ofNat_lt.2 (Text.Units.length_take_lt before (Nat.le_of_lt inside))

/-- Every token stands where it says. -/
theorem Tokens.exists_placed (source : String) : ∃ places, Placed source places := by
  have tokens : List.Forall₂ (Token.PlacedAt source.toList) _ (ofSource source).toList :=
    Token.forall₂_scan source.toList
  have ascending : ((List.range source.toList.length).filter
      (Token.standsAt source.toList)).Pairwise (· < ·) :=
    List.pairwise_lt_range.filter _
  refine ⟨_, ascending, ?_, tokens, ?_⟩
  · intro place
    rw [List.mem_filter, List.mem_range, Token.standsAt_iff]
    constructor
    · rintro ⟨_, stands⟩
      exact stands
    · rintro ⟨instruction, found⟩
      exact ⟨(List.getElem?_eq_some_iff.1 found).1, instruction, found⟩
  · rw [List.pairwise_iff_getElem] at ascending ⊢
    obtain ⟨length, placed⟩ := List.forall₂_iff_get.1 tokens
    intro i j insideI insideJ less
    exact (placed i (length ▸ insideI) insideI).offset_lt (placed j (length ▸ insideJ) insideJ)
      (ascending i j (length ▸ insideI) (length ▸ insideJ) less)

end TapeMachine
