import Mathlib.Data.List.Basic
import TapeMachine.Text.Template

/-!
# Filling templates

A template is split in one way only, if from left to right every placeholder is taken where it
starts (`Splits.unique`), and the scan with a possible key in hand splits it like that
(`splits_pieces`). Each piece is then filled by itself. A placeholder nobody supplied a value for
stays as it is written unless its key is inherited, that is, answered by every record of values
(`fills`).
-/

namespace TapeMachine.Text.Template

/-! ## Splitting from left to right -/

/-- One or more word characters. -/
structure IsKey (key : List Char) : Prop where
  some : key ≠ []
  words : ∀ c ∈ key, isWord c = true

/-- A placeholder starts here. -/
def Opens (text : List Char) : Prop :=
  ∃ key rest, IsKey key ∧ text = bracedKey key ++ rest

/-- The split of a text: from left to right, every placeholder where one starts, and one literal
character where none does. -/
inductive Splits : List Char → List Piece → Prop
  | nil : Splits [] []
  | placeholder {key rest : List Char} {pieces : List Piece} (word : IsKey key)
      (behind : Splits rest pieces) : Splits (bracedKey key ++ rest) (.placeholder key :: pieces)
  | literal {c : Char} {rest : List Char} {pieces : List Piece} (none : ¬ Opens (c :: rest))
      (behind : Splits rest pieces) : Splits (c :: rest) (.literal c :: pieces)

variable {key rest text : List Char}

theorem isWord_ne_brace {c : Char} (word : isWord c = true) : c ≠ '\x7b' ∧ c ≠ '\x7d' := by
  constructor
  · rintro rfl
    exact absurd word (by decide)
  · rintro rfl
    exact absurd word (by decide)

/-- The word characters behind an opening brace are the only possible key. -/
theorem takeWhile_isWord (words : ∀ c ∈ key, isWord c = true)
    (stop : ∀ c ∈ rest.head?, isWord c = false) : (key ++ rest).takeWhile isWord = key := by
  rw [List.takeWhile_append_of_pos words]
  cases rest with
  | nil => exact List.append_nil key
  | cons c rest =>
    rw [List.takeWhile_cons, stop c rfl]
    exact List.append_nil key

theorem takeWhile_bracedKey (word : IsKey key) (rest : List Char) :
    (key ++ '\x7d' :: rest).takeWhile isWord = key :=
  takeWhile_isWord word.words fun _ first => Option.some.inj first ▸ (by decide)

/-- Where a placeholder starts, its key is known from the text. -/
theorem bracedKey_inj {key' rest' : List Char} (word : IsKey key) (word' : IsKey key')
    (same : bracedKey key ++ rest = bracedKey key' ++ rest') : key = key' ∧ rest = rest' := by
  simp only [bracedKey, List.cons_append, List.append_assoc, List.nil_append] at same
  have behind := (List.cons.inj same).2
  obtain rfl : key = key' := by
    rw [← takeWhile_bracedKey word rest, behind, takeWhile_bracedKey word' rest']
  exact ⟨rfl, (List.cons.inj (List.append_cancel_left behind)).2⟩

/-- A text is split in one way only. -/
theorem Splits.unique {pieces pieces' : List Piece} (splits : Splits text pieces)
    (splits' : Splits text pieces') : pieces = pieces' := by
  induction splits generalizing pieces' with
  | nil =>
    cases splits' with
    | nil => rfl
  | placeholder word behind ih =>
    generalize same : bracedKey _ ++ _ = text at splits'
    cases splits' with
    | nil => cases same
    | placeholder word' behind' =>
      obtain ⟨rfl, rfl⟩ := bracedKey_inj word word' same
      rw [ih behind']
    | literal none _ => exact absurd ⟨_, _, word, same.symm⟩ none
  | literal none behind ih =>
    generalize same : _ :: _ = text at splits'
    cases splits' with
    | nil => cases same
    | placeholder word' _ => exact absurd ⟨_, _, word', same⟩ none
    | literal _ behind' =>
      obtain ⟨rfl, rfl⟩ := List.cons.inj same
      rw [ih behind']

/-! ## The scan -/

/-- A placeholder starts with an opening brace. -/
theorem not_opens_of_ne {c : Char} (other : c ≠ '\x7b') (rest : List Char) :
    ¬ Opens (c :: rest) := by
  rintro ⟨key, rest', -, same⟩
  exact other (List.cons.inj same).1

/-- Behind word characters that are not a key no closing brace follows. -/
theorem not_opens_of_stop (words : ∀ c ∈ key, isWord c = true)
    (stop : ∀ c ∈ rest.head?, isWord c = false ∧ (c = '\x7d' → key = [])) :
    ¬ Opens ('\x7b' :: (key ++ rest)) := by
  rintro ⟨key', rest', word', same⟩
  simp only [bracedKey, List.cons_append, List.append_assoc, List.nil_append] at same
  have behind := (List.cons.inj same).2
  obtain rfl : key = key' := by
    rw [← takeWhile_bracedKey word' rest', ← behind,
      takeWhile_isWord words fun c first => (stop c first).1]
  have first := List.append_cancel_left behind
  exact word'.some ((stop '\x7d' (first ▸ rfl)).2 rfl)

/-- Word characters that belong to no placeholder are literal. -/
theorem splits_words {pieces : List Piece} (words : ∀ c ∈ key, isWord c = true)
    (behind : Splits rest pieces) : Splits (key ++ rest) (key.map .literal ++ pieces) := by
  induction key with
  | nil => exact behind
  | cons c key ih =>
    rw [List.forall_mem_cons] at words
    exact .literal (not_opens_of_ne (isWord_ne_brace words.1).1 _) (ih words.2)

/-- An opening brace that starts no placeholder is literal, and so are the words behind it. -/
theorem splits_brace {pieces : List Piece} (words : ∀ c ∈ key, isWord c = true)
    (stop : ∀ c ∈ rest.head?, isWord c = false ∧ (c = '\x7d' → key = []))
    (behind : Splits rest pieces) :
    Splits ('\x7b' :: (key ++ rest)) (.literal '\x7b' :: (key.map .literal ++ pieces)) :=
  .literal (not_opens_of_stop words stop) (splits_words words behind)

/-- The scan splits what it has in hand together with what is still to come. -/
theorem splits_piecesFrom (text : List Char) : Splits text (piecesFrom none text) ∧
    ∀ key : List Char, (∀ c ∈ key, isWord c = true) →
      Splits ('\x7b' :: (key.reverse ++ text)) (piecesFrom (some key) text) := by
  induction text with
  | nil =>
    refine ⟨.nil, fun key words => ?_⟩
    have words' : ∀ c ∈ key.reverse, isWord c = true :=
      fun c among => words c (List.mem_reverse.1 among)
    have stop : ∀ c ∈ ([] : List Char).head?, isWord c = false ∧ (c = '\x7d' → key.reverse = []) :=
      fun _ none => nomatch none
    have split := splits_brace words' stop .nil
    rwa [List.append_nil (key.reverse.map _)] at split
  | cons c rest ih =>
    have start : Splits (c :: rest) (if c = '\x7b' then piecesFrom (some []) rest
        else .literal c :: piecesFrom none rest) := by
      split
      · next brace => exact brace ▸ ih.2 [] (fun _ none => nomatch none)
      · next other => exact .literal (not_opens_of_ne other rest) ih.1
    refine ⟨by rw [piecesFrom]; exact start, fun key words => ?_⟩
    have words' : ∀ d ∈ key.reverse, isWord d = true :=
      fun d among => words d (List.mem_reverse.1 among)
    rw [piecesFrom]
    split
    · next word =>
      have longer := ih.2 (c :: key) (List.forall_mem_cons.2 ⟨word, words⟩)
      rwa [List.reverse_cons, List.append_assoc] at longer
    · next stop =>
      split
      · next closes =>
        obtain ⟨rfl, some⟩ := closes
        have key : IsKey key.reverse := ⟨mt List.reverse_eq_nil_iff.1 some, words'⟩
        have split := Splits.placeholder key ih.1
        simpa only [bracedKey, List.cons_append, List.append_assoc, List.nil_append] using split
      · next remains =>
        refine splits_brace words' ?_ start
        intro d first
        obtain rfl := Option.some.inj first
        refine ⟨Bool.eq_false_iff.2 stop, fun closing => List.reverse_eq_nil_iff.2 ?_⟩
        exact Classical.byContradiction fun some => remains ⟨closing, some⟩

/-- The pieces of a template are its split from left to right. -/
theorem splits_pieces (template : String) : Splits template.toList (pieces template) :=
  (splits_piecesFrom template.toList).1

/-! ## Filling -/

/-- A piece as it stands in the template. -/
def Piece.written : Piece → List Char
  | .literal c => [c]
  | .placeholder key => bracedKey key

/-- A piece with the supplied value in place of a placeholder, or as it stands. -/
def Piece.replace (args : Args) : Piece → List Char
  | .literal c => [c]
  | .placeholder key =>
    match args.lookup (String.ofList key) with
    | some value => value.render.toList
    | none => bracedKey key

/-- A template with each placeholder replaced by the value supplied for its key. -/
def replaced (args : Args) (template : String) : String :=
  String.ofList ((pieces template).flatMap (Piece.replace args))

/-- A record of values answers for a key that nobody supplied. -/
def Inherited (args : Args) (key : List Char) : Prop :=
  args.lookup (String.ofList key) = none ∧ (builtin.lookup (String.ofList key)).isSome

/-- A template whose placeholders are replaced by supplied values, and by nothing else. -/
def FillsSupplied (template : String) (args : Args) : Prop :=
  interpolate template (some args) = replaced args template

theorem Splits.flatMap_written {pieces : List Piece} (splits : Splits text pieces) :
    pieces.flatMap Piece.written = text := by
  induction splits with
  | nil => rfl
  | placeholder word behind ih => rw [List.flatMap_cons, ih, Piece.written]
  | literal none behind ih => rw [List.flatMap_cons, ih]; rfl

/-- The inherited values, as values to supply. -/
def inherited : Args :=
  builtin.map fun (key, text) => (key, .text text)

theorem lookup_inherited (key : String) :
    inherited.lookup key = (builtin.lookup key).map .text := by
  rw [inherited]
  induction builtin with
  | nil => rfl
  | cons entry rest ih =>
    obtain ⟨other, text⟩ := entry
    rw [List.map_cons, List.lookup_cons, List.lookup_cons, ih]
    split <;> rfl

/-- Inherited values are found behind the supplied ones. -/
theorem fill_eq_replace (args : Args) (piece : Piece) :
    piece.fill args = piece.replace (args ++ inherited) := by
  cases piece with
  | literal c => rfl
  | placeholder key =>
    rw [Piece.fill, Piece.replace, lookup?, List.lookup_append, lookup_inherited]
    cases args.lookup (String.ofList key) with
    | some value => rfl
    | none => cases builtin.lookup (String.ofList key) <;> rfl

theorem fill_eq_replace_of_not_inherited {args : Args} {piece : Piece}
    (own : ∀ key, piece = .placeholder key → ¬ Inherited args key) :
    piece.fill args = piece.replace args := by
  cases piece with
  | literal c => rfl
  | placeholder key =>
    rw [Piece.fill, Piece.replace, lookup?]
    cases supplied : args.lookup (String.ofList key) with
    | some value => rfl
    | none =>
      have none := mt (And.intro supplied) (own key rfl)
      rw [Option.not_isSome_iff_eq_none.1 none]

/-- What filling makes of a template. -/
structure Fills (template : String) (args : Args) : Prop where
  /-- There is one split from left to right. -/
  split : ∀ pieces', Splits template.toList pieces' ↔ pieces' = pieces template
  /-- If nothing is inherited, the placeholders with a supplied value are replaced. -/
  supplied : (∀ key, .placeholder key ∈ pieces template → ¬ Inherited args key) →
    FillsSupplied template args
  /-- Inherited values are filled in as if they had been supplied. -/
  exactly : interpolate template (some args) = replaced (args ++ inherited) template
  /-- Without values for its placeholders a template stays as it is. -/
  unchanged : (∀ key, .placeholder key ∈ pieces template →
      args.lookup (String.ofList key) = none ∧ ¬ Inherited args key) →
    interpolate template (some args) = template
  /-- Without a record of values a template stays as it is. -/
  absent : interpolate template none = template

/-- Filling is one pass over the split of the template. -/
theorem fills (template : String) (args : Args) : Fills template args where
  split pieces' := by
    constructor
    · intro splits
      exact splits.unique (splits_pieces template)
    · rintro rfl
      exact splits_pieces template
  supplied own := by
    refine congrArg String.ofList (List.flatMap_congr fun piece among => ?_)
    exact fill_eq_replace_of_not_inherited fun key same => own key (same ▸ among)
  exactly := congrArg String.ofList (List.flatMap_congr fun piece _ => fill_eq_replace args piece)
  unchanged none := by
    have written : ∀ piece ∈ pieces template, piece.fill args = piece.written := by
      intro piece among
      cases piece with
      | literal c => rfl
      | placeholder key =>
        obtain ⟨supplied, own⟩ := none key among
        rw [fill_eq_replace_of_not_inherited fun _ same => Piece.placeholder.inj same ▸ own,
          Piece.replace, supplied, Piece.written]
    rw [interpolate, List.flatMap_congr written, (splits_pieces template).flatMap_written,
      String.ofList_toList]
  absent := rfl

/-- A placeholder may be filled although no value was supplied for it. -/
theorem not_fillsSupplied_toString : ¬ FillsSupplied "\x7btoString\x7d" [] := by
  unfold FillsSupplied
  decide +kernel

end TapeMachine.Text.Template
