import TapeMachine.Proofs.Compile.Acceptance

/-!
# The reports of a parse

Parsing reports exactly the brackets without a match: first the closes, then the opens, each in
the order of the source. Deleting them from the source makes it parse, and deleting fewer of
its tokens never does.
-/

namespace TapeMachine

/-! ## Deleting tokens -/

/-- Leaves out the instructions whose tokens are chosen, counted from a number on. -/
def Source.strike (chosen : List Nat) (token : Nat) : List Char → List Char
  | [] => []
  | c :: rest =>
    if (Instruction.ofChar? c).isNone then c :: strike chosen token rest
    else if token ∈ chosen then strike chosen (token + 1) rest
    else c :: strike chosen (token + 1) rest

/-- A source without the tokens that are chosen. -/
def Source.without (chosen : List Nat) (source : String) : String :=
  String.ofList (strike chosen 0 source.toList)

theorem Source.ofChars_strike (chosen : List Nat) (token : Nat) (text : List Char) :
    Instruction.ofChars (strike chosen token text) =
      Brackets.strike chosen token (Instruction.ofChars text) := by
  induction text generalizing token with
  | nil => rfl
  | cons c rest ih =>
    unfold Instruction.ofChars at ih ⊢
    rw [strike]
    cases read : Instruction.ofChar? c with
    | none =>
      rw [Option.isNone_none, if_pos rfl, List.filterMap_cons_none read,
        List.filterMap_cons_none read, ih]
    | some instruction =>
      rw [List.filterMap_cons_some read, Brackets.strike, Option.isNone_some,
        if_neg Bool.false_ne_true]
      split
      · exact ih (token + 1)
      · rw [List.filterMap_cons_some read, ih]

theorem Source.instructions_without (chosen : List Nat) (source : String) :
    (Tokens.ofSource (without chosen source)).instructions =
      Brackets.strike chosen 0 (Tokens.ofSource source).instructions := by
  rw [Tokens.instructions_ofSource, Tokens.instructions_ofSource, without, String.toList_ofList,
    ofChars_strike]

namespace ParseTree

/-! ## What is reported -/

theorem exists_table_of_balanced {tokens : Tokens}
    (balanced : Brackets.Balanced tokens.instructions) : ∃ table, parse tokens = .ok table := by
  obtain ⟨trees, grown⟩ := exists_grown balanced 0
  exact ⟨_, parse_of_grown balanced grown⟩

/-- The brackets of a source that are reported: closes and opens, by the numbers of their
tokens. -/
structure Reports (source : String) (closes opens : List Nat) : Prop where
  closesInOrder : closes.Pairwise (· < ·)
  opensInOrder : opens.Pairwise (· < ·)
  /-- A close is reported if there is no open that it matches. -/
  close : ∀ closing, closing ∈ closes ↔
    (Tokens.ofSource source).instructions[closing]? = some .loopClose ∧
      ∀ opening, ¬ Brackets.Matches (Tokens.ofSource source).instructions opening closing
  /-- An open is reported if there is no close that it matches. -/
  unclosed : ∀ opening, opening ∈ opens ↔
    (Tokens.ofSource source).instructions[opening]? = some .loopOpen ∧
      ∀ closing, ¬ Brackets.Matches (Tokens.ofSource source).instructions opening closing
  /-- If something is reported there is no table, and nothing else is reported. -/
  rejected : closes ++ opens ≠ [] → parse (.ofSource source) =
    .error (.faulty (closes.map (reportAbout (.ofSource source) .unmatchedClose) ++
      opens.map (reportAbout (.ofSource source) .unclosedOpen)))
  parsed : closes ++ opens = [] → ∃ table, parse (.ofSource source) = .ok table
  /-- Without the reported brackets the source parses. -/
  repaired : ∃ table, parse (.ofSource (Source.without (closes ++ opens) source)) = .ok table
  /-- It does not if fewer tokens are left out, whichever they are. -/
  fewer : ∀ chosen : List Nat, chosen.length < (closes ++ opens).length →
    ∃ reports, parse (.ofSource (Source.without chosen source)) = .error (.faulty reports)

/-- Parsing names exactly the unmatched brackets. -/
theorem exists_reports (source : String) : ∃ closes opens, Reports source closes opens := by
  have balanced := Brackets.unmatched_eq_nil_iff (Tokens.ofSource source).instructions
  refine ⟨Brackets.strayCloses (Tokens.ofSource source).instructions,
    Brackets.unclosedOpens (Tokens.ofSource source).instructions, ?_⟩
  constructor
  · exact Brackets.strayCloses_ascending _
  · exact Brackets.unclosedOpens_ascending _
  · exact fun _ => Brackets.mem_strayCloses_iff
  · exact fun _ => Brackets.mem_unclosedOpens_iff
  · intro some
    exact parse_of_not_balanced (mt balanced.2 some)
  · intro none
    exact exists_table_of_balanced (balanced.1 none)
  · refine exists_table_of_balanced ?_
    rw [Source.instructions_without]
    exact Brackets.balanced_strike _
  · intro chosen few
    refine ⟨_, parse_of_not_balanced ?_⟩
    rw [Source.instructions_without]
    rw [List.length_append] at few
    exact Brackets.not_balanced_strike_of_length_lt few

end ParseTree

end TapeMachine
