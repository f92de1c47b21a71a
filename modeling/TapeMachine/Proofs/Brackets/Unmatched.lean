import Mathlib.Data.List.Induction
import TapeMachine.Proofs.Brackets.Balance

/-!
# Unmatched brackets

What a scan leaves over is cut out of the text by `Leaves`: in front of, between and behind the
brackets that are left there is balanced text. So exactly the brackets without a match are
left, in order; without them the text is balanced, and it takes no fewer to balance it.
-/

namespace TapeMachine.Brackets

/-- The unmatched brackets stand before a position. -/
def Unmatched.Before (left : Unmatched) (position : Nat) : Prop :=
  (∀ opening ∈ left.opens, opening < position) ∧ ∀ closing ∈ left.closes, closing < position

/-! ## The shape of a text -/

/-- A text, read from its end, with the brackets in it that have no match. -/
inductive Leaves : List Instruction → Unmatched → Prop
  | nil : Leaves [] {}
  | plain {text : List Instruction} {left : Unmatched} {instruction : Instruction} :
      Leaves text left → instruction ≠ .loopOpen → instruction ≠ .loopClose →
        Leaves (text ++ [instruction]) left
  | unclosed {text : List Instruction} {left : Unmatched} :
      Leaves text left →
        Leaves (text ++ [.loopOpen]) { left with opens := text.length :: left.opens }
  /-- A close behind a text that leaves no open. -/
  | stray {text : List Instruction} {closes : List Nat} :
      Leaves text ⟨[], closes⟩ → Leaves (text ++ [.loopClose]) ⟨[], text.length :: closes⟩
  | pair {before inner : List Instruction} {left : Unmatched} :
      Leaves before left → Balanced inner →
        Leaves (before ++ .loopOpen :: inner ++ [.loopClose]) left

/-- The innermost open that is left has balanced text behind it. -/
theorem Leaves.exists_innermost {text : List Instruction} {left : Unmatched}
    (leaves : Leaves text left) {opening : Nat} {outer : List Nat}
    (opens : left.opens = opening :: outer) :
    ∃ before inner, text = before ++ .loopOpen :: inner ∧ Balanced inner ∧
      opening = before.length ∧ Leaves before ⟨outer, left.closes⟩ := by
  induction leaves with
  | nil => cases opens
  | @plain text left instruction leaves notOpen notClose ih =>
    obtain ⟨before, inner, rfl, balanced, place, leaves⟩ := ih opens
    refine ⟨before, inner ++ [instruction], by simp, ?_, place, leaves⟩
    exact balanced.append (.plain notOpen notClose .nil)
  | @unclosed text left leaves =>
    cases opens
    exact ⟨text, [], rfl, .nil, rfl, leaves⟩
  | stray => cases opens
  | @pair before inner left leaves balanced ih =>
    obtain ⟨before, inner', rfl, balanced', place, leaves⟩ := ih opens
    refine ⟨before, inner' ++ .loopOpen :: inner ++ [.loopClose], by simp, ?_, place, leaves⟩
    rw [List.append_assoc]
    exact balanced'.append (.loop balanced .nil)

theorem scan_concat (text : List Instruction) (instruction : Instruction) :
    scanFrom {} 0 (text ++ [instruction]) =
      (scanFrom {} 0 text).take text.length instruction := by
  rw [scanFrom_append, Nat.zero_add]
  rfl

/-- Every text has the shape of what a scan of it leaves. -/
theorem leaves_scan (text : List Instruction) : Leaves text (scanFrom {} 0 text) := by
  induction text using List.reverseRecOn with
  | nil => exact .nil
  | append_singleton text instruction ih =>
    rw [scan_concat]
    by_cases isOpen : instruction = .loopOpen
    · subst isOpen
      exact .unclosed ih
    by_cases isClose : instruction = .loopClose
    · subst isClose
      cases scanned : scanFrom {} 0 text with
      | mk opens closes =>
        rw [scanned] at ih
        cases opens with
        | nil => exact .stray ih
        | cons opening outer =>
          obtain ⟨before, inner, rfl, balanced, _, leaves⟩ := ih.exists_innermost rfl
          exact .pair leaves balanced
    · rw [Unmatched.take_plain _ _ isOpen isClose]
      exact .plain ih isOpen isClose

/-! ## In order -/

/-- The unmatched brackets are listed from the last to the first, and stand in the text. -/
structure Unmatched.Descends (left : Unmatched) (position : Nat) : Prop where
  opens : left.opens.Pairwise (· > ·)
  closes : left.closes.Pairwise (· > ·)
  before : left.Before position

theorem Leaves.descends {text : List Instruction} {left : Unmatched} (leaves : Leaves text left) :
    left.Descends text.length := by
  have later {left : Unmatched} {position more : Nat} (before : left.Before position) :
      left.Before (position + more) :=
    ⟨fun _ among => Nat.lt_add_right more (before.1 _ among),
      fun _ among => Nat.lt_add_right more (before.2 _ among)⟩
  induction leaves with
  | nil => exact ⟨.nil, .nil, by simp, by simp⟩
  | plain _ _ _ ih =>
    rw [List.length_append]
    exact ⟨ih.opens, ih.closes, later ih.before⟩
  | unclosed _ ih =>
    refine ⟨.cons ih.before.1 ih.opens, ih.closes, ?_⟩
    rw [List.length_append]
    exact ⟨List.forall_mem_cons.2 ⟨Nat.lt_succ_self _, (later ih.before).1⟩, (later ih.before).2⟩
  | stray _ ih =>
    refine ⟨ih.opens, .cons ih.before.2 ih.closes, ?_⟩
    rw [List.length_append]
    exact ⟨(later ih.before).1, List.forall_mem_cons.2 ⟨Nat.lt_succ_self _, (later ih.before).2⟩⟩
  | pair _ _ ih =>
    rw [List.append_assoc, List.length_append]
    exact ⟨ih.opens, ih.closes, later ih.before⟩

theorem descends_scan (program : List Instruction) :
    (scanFrom {} 0 program).Descends program.length :=
  (leaves_scan program).descends

theorem strayCloses_ascending (program : List Instruction) :
    (strayCloses program).Pairwise (· < ·) :=
  List.pairwise_reverse.2 (descends_scan program).closes

theorem unclosedOpens_ascending (program : List Instruction) :
    (unclosedOpens program).Pairwise (· < ·) :=
  List.pairwise_reverse.2 (descends_scan program).opens

theorem lt_of_mem_strayCloses {program : List Instruction} {closing : Nat}
    (stray : closing ∈ strayCloses program) : closing < program.length :=
  (descends_scan program).before.2 closing (List.mem_reverse.1 stray)

theorem lt_of_mem_unclosedOpens {program : List Instruction} {opening : Nat}
    (unclosed : opening ∈ unclosedOpens program) : opening < program.length :=
  (descends_scan program).before.1 opening (List.mem_reverse.1 unclosed)

/-! ## Matched or left over -/

theorem Unmatched.mem_take {left : Unmatched} {position : Nat} {instruction : Instruction}
    {place : Nat} :
    (place ∈ (left.take position instruction).opens → place ∈ left.opens ∨ place = position) ∧
      (place ∈ (left.take position instruction).closes →
        place ∈ left.closes ∨ place = position) := by
  cases instruction with
  | loopOpen => exact ⟨fun among => (List.mem_cons.1 among).symm, .inl⟩
  | loopClose =>
    obtain ⟨_ | ⟨opening, outer⟩, stray⟩ := left
    · exact ⟨.inl, fun among => (List.mem_cons.1 among).symm⟩
    · exact ⟨fun among => .inl (List.mem_cons_of_mem _ among), .inl⟩
  | _ => exact ⟨.inl, .inl⟩

/-- A close that is left over stays so. -/
theorem Unmatched.mem_closes_take {left : Unmatched} {position place : Nat}
    {instruction : Instruction} (stray : place ∈ left.closes) :
    place ∈ (left.take position instruction).closes := by
  cases instruction with
  | loopClose =>
    obtain ⟨_ | ⟨opening, outer⟩, closes⟩ := left
    · exact List.mem_cons_of_mem _ stray
    · exact stray
  | _ => exact stray

/-- What a scan leaves it was given, or it has read it. -/
theorem mem_scanFrom {left : Unmatched} {position : Nat} {text : List Instruction} {place : Nat} :
    (place ∈ (scanFrom left position text).opens → place ∈ left.opens ∨ position ≤ place) ∧
      (place ∈ (scanFrom left position text).closes → place ∈ left.closes ∨ position ≤ place) := by
  induction text generalizing left position with
  | nil => exact ⟨.inl, .inl⟩
  | cons instruction rest ih =>
    rw [scanFrom]
    constructor
    · intro among
      rcases ih.1 among with taken | late
      · exact (Unmatched.mem_take.1 taken).imp id fun here => Nat.le_of_eq here.symm
      · exact .inr (Nat.le_of_succ_le late)
    · intro among
      rcases ih.2 among with taken | late
      · exact (Unmatched.mem_take.2 taken).imp id fun here => Nat.le_of_eq here.symm
      · exact .inr (Nat.le_of_succ_le late)

/-- Brackets that match are not left over. -/
theorem not_mem_scan_of_matches {program : List Instruction} {opening closing : Nat}
    (matched : Matches program opening closing) :
    opening ∉ (scanFrom {} 0 program).opens ∧ closing ∉ (scanFrom {} 0 program).closes := by
  obtain ⟨before, inner, behind, rfl, balanced, rfl, rfl⟩ := (matches_iff ..).1 matched
  have loop : Balanced (.loopOpen :: inner ++ [.loopClose]) := .loop balanced .nil
  have cut : before ++ Instruction.loopOpen :: inner ++ .loopClose :: behind =
      before ++ (.loopOpen :: inner ++ [.loopClose]) ++ behind := by simp
  have places := (descends_scan before).before
  rw [cut, scanFrom_append, scanFrom_append, scanFrom_of_balanced loop]
  constructor
  · intro left
    rcases mem_scanFrom.1 left with early | late
    · exact Nat.lt_irrefl _ (places.1 _ early)
    · simp only [List.length_append, List.length_cons, List.length_nil] at late
      omega
  · intro left
    rcases mem_scanFrom.2 left with early | late
    · have order := places.2 _ early
      omega
    · simp only [List.length_append, List.length_cons, List.length_nil] at late
      omega

theorem Matches.append {program : List Instruction} {opening closing : Nat}
    (matched : Matches program opening closing) (more : List Instruction) :
    Matches (program ++ more) opening closing := by
  obtain ⟨before, inner, behind, rfl, balanced, places⟩ := (matches_iff ..).1 matched
  exact (matches_iff ..).2 ⟨before, inner, behind ++ more, by simp, balanced, places⟩

/-- A close behind a text matches the innermost open that the text leaves. -/
theorem matches_innermost {text : List Instruction} {opening : Nat} {outer : List Nat}
    (opens : (scanFrom {} 0 text).opens = opening :: outer) :
    Matches (text ++ [.loopClose]) opening text.length := by
  obtain ⟨before, inner, rfl, balanced, rfl, _⟩ := (leaves_scan text).exists_innermost opens
  refine (matches_iff ..).2 ⟨before, inner, [], by simp, balanced, rfl, ?_⟩
  simp
  omega

theorem getElem?_concat {text : List Instruction} {instruction found : Instruction} {place : Nat}
    (here : (text ++ [instruction])[place]? = some found) :
    text[place]? = some found ∨ place = text.length ∧ instruction = found := by
  rw [List.getElem?_append] at here
  split at here
  · exact .inl here
  · have inside := (List.getElem?_eq_some_iff.1 here).1
    have last : place = text.length := by
      rw [List.length_singleton] at inside
      omega
    rw [last, Nat.sub_self] at here
    exact .inr ⟨last, Option.some.inj here⟩

/-- Every bracket is left over or matches another one. -/
theorem mem_scan_or_matches (program : List Instruction) :
    (∀ opening, program[opening]? = some .loopOpen →
      opening ∈ (scanFrom {} 0 program).opens ∨ ∃ closing, Matches program opening closing) ∧
    (∀ closing, program[closing]? = some .loopClose →
      closing ∈ (scanFrom {} 0 program).closes ∨ ∃ opening, Matches program opening closing) := by
  induction program using List.reverseRecOn with
  | nil => simp
  | append_singleton text instruction ih =>
    rw [scan_concat]
    constructor
    · intro opening isOpen
      rcases getElem?_concat isOpen with early | ⟨rfl, rfl⟩
      · rcases ih.1 opening early with left | ⟨closing, matched⟩
        · -- Only a close takes an open away, and that is the innermost one.
          cases instruction with
          | loopOpen => exact .inl (List.mem_cons_of_mem _ left)
          | loopClose =>
            cases scanned : scanFrom {} 0 text with
            | mk opens closes =>
              rw [scanned] at left
              cases opens with
              | nil => cases left
              | cons innermost outer =>
                rcases List.mem_cons.1 left with rfl | left
                · exact .inr ⟨_, matches_innermost (congrArg Unmatched.opens scanned)⟩
                · exact .inl left
          | _ => exact .inl left
        · exact .inr ⟨closing, matched.append _⟩
      · exact .inl List.mem_cons_self
    · intro closing isClose
      rcases getElem?_concat isClose with early | ⟨rfl, rfl⟩
      · rcases ih.2 closing early with left | ⟨opening, matched⟩
        · exact .inl (Unmatched.mem_closes_take left)
        · exact .inr ⟨opening, matched.append _⟩
      · cases scanned : scanFrom {} 0 text with
        | mk opens closes =>
          cases opens with
          | nil => exact .inl List.mem_cons_self
          | cons innermost outer =>
            exact .inr ⟨_, matches_innermost (congrArg Unmatched.opens scanned)⟩

/-- What is left over are brackets. -/
theorem Leaves.brackets {text : List Instruction} {left : Unmatched} (leaves : Leaves text left) :
    (∀ opening ∈ left.opens, text[opening]? = some .loopOpen) ∧
      ∀ closing ∈ left.closes, text[closing]? = some .loopClose := by
  have earlier {text more : List Instruction} {place : Nat} {instruction : Instruction}
      (here : text[place]? = some instruction) : (text ++ more)[place]? = some instruction := by
    rw [List.getElem?_append_left (List.getElem?_eq_some_iff.1 here).1, here]
  induction leaves with
  | nil => simp
  | plain _ _ _ ih =>
    exact ⟨fun _ among => earlier (ih.1 _ among), fun _ among => earlier (ih.2 _ among)⟩
  | unclosed _ ih =>
    refine ⟨List.forall_mem_cons.2 ⟨?_, fun _ among => earlier (ih.1 _ among)⟩,
      fun _ among => earlier (ih.2 _ among)⟩
    simp
  | stray _ ih =>
    refine ⟨fun _ among => earlier (ih.1 _ among),
      List.forall_mem_cons.2 ⟨?_, fun _ among => earlier (ih.2 _ among)⟩⟩
    simp
  | pair _ _ ih =>
    rw [List.append_assoc]
    exact ⟨fun _ among => earlier (ih.1 _ among), fun _ among => earlier (ih.2 _ among)⟩

/-- The closes that are left over are those that match no open. -/
theorem mem_strayCloses_iff {program : List Instruction} {closing : Nat} :
    closing ∈ strayCloses program ↔
      program[closing]? = some .loopClose ∧ ∀ opening, ¬ Matches program opening closing := by
  rw [strayCloses, List.mem_reverse]
  constructor
  · intro left
    exact ⟨(leaves_scan program).brackets.2 closing left,
      fun opening matched => (not_mem_scan_of_matches matched).2 left⟩
  · rintro ⟨isClose, unmatched⟩
    rcases (mem_scan_or_matches program).2 closing isClose with left | ⟨opening, matched⟩
    · exact left
    · exact absurd matched (unmatched opening)

/-- The opens that are left over are those that match no close. -/
theorem mem_unclosedOpens_iff {program : List Instruction} {opening : Nat} :
    opening ∈ unclosedOpens program ↔
      program[opening]? = some .loopOpen ∧ ∀ closing, ¬ Matches program opening closing := by
  rw [unclosedOpens, List.mem_reverse]
  constructor
  · intro left
    exact ⟨(leaves_scan program).brackets.1 opening left,
      fun closing matched => (not_mem_scan_of_matches matched).1 left⟩
  · rintro ⟨isOpen, unmatched⟩
    rcases (mem_scan_or_matches program).1 opening isOpen with left | ⟨closing, matched⟩
    · exact left
    · exact absurd matched (unmatched closing)

theorem unmatched_eq_nil_iff (program : List Instruction) :
    strayCloses program ++ unclosedOpens program = [] ↔ Balanced program := by
  rw [← balanced_eq_true_iff, balanced, List.append_eq_nil_iff, Bool.and_eq_true,
    List.isEmpty_iff, List.isEmpty_iff]

/-! ## Deleting brackets -/

/-- Leaves out the instructions at chosen positions. -/
def strike (chosen : List Nat) (position : Nat) : List Instruction → List Instruction
  | [] => []
  | instruction :: rest =>
    if position ∈ chosen then strike chosen (position + 1) rest
    else instruction :: strike chosen (position + 1) rest

theorem strike_append (chosen : List Nat) (position : Nat) (front back : List Instruction) :
    strike chosen position (front ++ back) =
      strike chosen position front ++ strike chosen (position + front.length) back := by
  induction front generalizing position with
  | nil => rfl
  | cons instruction rest ih =>
    rw [List.cons_append, strike, strike, ih, List.length_cons, Nat.add_right_comm,
      ← Nat.add_assoc]
    split
    · rfl
    · rfl

theorem strike_congr {chosen chosen' : List Nat} {position : Nat} {text : List Instruction}
    (same : ∀ place, position ≤ place → place < position + text.length →
      (place ∈ chosen ↔ place ∈ chosen')) :
    strike chosen position text = strike chosen' position text := by
  induction text generalizing position with
  | nil => rfl
  | cons instruction rest ih =>
    rw [List.length_cons] at same
    have later : strike chosen (position + 1) rest = strike chosen' (position + 1) rest :=
      ih fun place lower upper => same place (by omega) (by omega)
    rw [strike, strike, later]
    simp only [same position (Nat.le_refl _) (by omega)]

/-- Text without chosen positions stays as it is. -/
theorem strike_of_before {chosen : List Nat} {position : Nat}
    (before : ∀ place ∈ chosen, place < position) (text : List Instruction) :
    strike chosen position text = text := by
  induction text generalizing position with
  | nil => rfl
  | cons instruction rest ih =>
    have notHere : position ∉ chosen := fun among => Nat.lt_irrefl _ (before position among)
    rw [strike, if_neg notHere, ih fun place among => Nat.lt_succ_of_lt (before place among)]

/-- Leaves out the last instruction along with others. -/
theorem strike_concat {chosen chosen' : List Nat} {text : List Instruction}
    (last : ∀ place, place ∈ chosen' ↔ place ∈ chosen ∨ place = text.length)
    (instruction : Instruction) :
    strike chosen' 0 (text ++ [instruction]) = strike chosen 0 text := by
  have struck : text.length ∈ chosen' := (last _).2 (.inr rfl)
  have same : strike chosen' 0 text = strike chosen 0 text := by
    apply strike_congr
    intro place _ early
    rw [last]
    exact or_iff_left (by omega)
  rw [strike_append, Nat.zero_add, same, strike, if_pos struck]
  exact List.append_nil _

/-- The positions of all unmatched brackets. -/
def Unmatched.places (left : Unmatched) : List Nat :=
  left.closes ++ left.opens

theorem Unmatched.Before.places {left : Unmatched} {position : Nat}
    (before : left.Before position) : ∀ place ∈ left.places, place < position := by
  intro place among
  rcases List.mem_append.1 among with close | opening
  · exact before.2 place close
  · exact before.1 place opening

/-- Without the brackets that are left over, a text is balanced. -/
theorem Leaves.balanced_strike {text : List Instruction} {left : Unmatched}
    (leaves : Leaves text left) : Balanced (strike left.places 0 text) := by
  induction leaves with
  | nil => exact .nil
  | @plain text left instruction leaves notOpen notClose ih =>
    rw [strike_append, Nat.zero_add, strike_of_before leaves.descends.before.places]
    exact ih.append (.plain notOpen notClose .nil)
  | @unclosed text left leaves ih =>
    rwa [strike_concat fun place => ?_]
    simp [Unmatched.places, or_comm, or_assoc]
  | @stray text closes leaves ih =>
    rwa [strike_concat fun place => ?_]
    simp [Unmatched.places, or_comm]
  | @pair before inner left leaves balanced ih =>
    rw [List.append_assoc, strike_append, Nat.zero_add,
      strike_of_before leaves.descends.before.places]
    exact ih.append (.loop balanced .nil)

/-! ## No fewer -/

/-- The number of brackets that are left over behind so many opens. -/
def countUnmatched : Nat → List Instruction → Nat
  | opens, [] => opens
  | opens, .loopOpen :: rest => countUnmatched (opens + 1) rest
  | 0, .loopClose :: rest => countUnmatched 0 rest + 1
  | opens + 1, .loopClose :: rest => countUnmatched opens rest
  | opens, _ :: rest => countUnmatched opens rest

theorem countUnmatched_eq (left : Unmatched) (position : Nat) (text : List Instruction) :
    (scanFrom left position text).opens.length + (scanFrom left position text).closes.length =
      countUnmatched left.opens.length text + left.closes.length := by
  induction text generalizing left position with
  | nil => rfl
  | cons instruction rest ih =>
    rw [scanFrom, ih]
    obtain ⟨opens, closes⟩ := left
    cases instruction with
    | loopOpen => rfl
    | loopClose =>
      cases opens with
      | nil =>
        simp only [Unmatched.take, List.length_cons, List.length_nil, countUnmatched]
        omega
      | cons opening outer => rfl
    | _ => cases opens <;> rfl

theorem length_reported (program : List Instruction) :
    (strayCloses program).length + (unclosedOpens program).length = countUnmatched 0 program := by
  have counted := countUnmatched_eq {} 0 program
  rw [strayCloses, unclosedOpens, List.length_reverse, List.length_reverse, Nat.add_comm]
  exact counted

/-- One open more in front makes a difference of one. -/
theorem countUnmatched_succ (opens : Nat) (text : List Instruction) :
    countUnmatched (opens + 1) text ≤ countUnmatched opens text + 1 ∧
      countUnmatched opens text ≤ countUnmatched (opens + 1) text + 1 := by
  induction text generalizing opens with
  | nil => exact ⟨Nat.le_refl _, by simp only [countUnmatched]; omega⟩
  | cons instruction rest ih =>
    cases instruction with
    | loopOpen => exact ih (opens + 1)
    | loopClose =>
      cases opens with
      | zero => simp only [countUnmatched]; omega
      | succ opens => exact ih opens
    | _ => cases opens <;> exact ih _

/-- So does one instruction more. -/
theorem countUnmatched_cons_le (opens : Nat) (instruction : Instruction)
    (rest : List Instruction) :
    countUnmatched opens (instruction :: rest) ≤ countUnmatched opens rest + 1 := by
  cases instruction with
  | loopOpen => exact (countUnmatched_succ opens rest).1
  | loopClose =>
    cases opens with
    | zero => exact Nat.le_refl _
    | succ opens => exact (countUnmatched_succ opens rest).2
  | _ => cases opens <;> exact Nat.le_succ _

theorem countUnmatched_cons_mono {text other : List Instruction} {more : Nat}
    (le : ∀ opens, countUnmatched opens text ≤ countUnmatched opens other + more)
    (opens : Nat) (instruction : Instruction) :
    countUnmatched opens (instruction :: text) ≤
      countUnmatched opens (instruction :: other) + more := by
  cases instruction with
  | loopOpen => exact le (opens + 1)
  | loopClose =>
    cases opens with
    | zero =>
      have := le 0
      simp only [countUnmatched]
      omega
    | succ opens => exact le opens
  | _ => cases opens <;> exact le _

theorem countP_le_eq (chosen : List Nat) (position : Nat) :
    chosen.countP (position ≤ ·) = chosen.countP (position + 1 ≤ ·) + chosen.count position := by
  induction chosen with
  | nil => rfl
  | cons place rest ih =>
    simp only [List.countP_cons, List.count_cons, decide_eq_true_eq, beq_iff_eq]
    split <;> split <;> split <;> omega

/-- Leaving out so many instructions takes away no more unmatched brackets. -/
theorem countUnmatched_le_strike (chosen : List Nat) (opens position : Nat)
    (text : List Instruction) :
    countUnmatched opens text ≤ countUnmatched opens (strike chosen position text) +
      chosen.countP (position ≤ ·) := by
  induction text generalizing opens position with
  | nil => exact Nat.le_add_right _ _
  | cons instruction rest ih =>
    have counted := countP_le_eq chosen position
    rw [strike]
    split
    · next struck =>
      have one := countUnmatched_cons_le opens instruction rest
      have others := ih opens (position + 1)
      have here : 0 < chosen.count position := List.count_pos_iff.2 struck
      omega
    · refine countUnmatched_cons_mono (fun opens => ?_) opens instruction
      have others := ih opens (position + 1)
      omega

theorem countUnmatched_of_balanced {program : List Instruction} (balanced : Balanced program) :
    countUnmatched 0 program = 0 := by
  rw [← length_reported, strayCloses, unclosedOpens, scanFrom_of_balanced balanced]
  rfl

/-- A text is not balanced by leaving out fewer instructions than it has unmatched brackets. -/
theorem not_balanced_strike_of_length_lt {program : List Instruction} {chosen : List Nat}
    (few : chosen.length < (strayCloses program).length + (unclosedOpens program).length) :
    ¬ Balanced (strike chosen 0 program) := by
  intro balanced
  have enough := countUnmatched_le_strike chosen 0 0 program
  have most : chosen.countP (0 ≤ ·) ≤ chosen.length := List.countP_le_length
  rw [countUnmatched_of_balanced balanced] at enough
  rw [length_reported] at few
  omega

/-- It is balanced by leaving out the unmatched brackets. -/
theorem balanced_strike (program : List Instruction) :
    Balanced (strike (strayCloses program ++ unclosedOpens program) 0 program) := by
  have same : strike (strayCloses program ++ unclosedOpens program) 0 program =
      strike (scanFrom {} 0 program).places 0 program := by
    apply strike_congr
    intro place _ _
    simp [strayCloses, unclosedOpens, Unmatched.places]
  rw [same]
  exact (leaves_scan program).balanced_strike

end TapeMachine.Brackets
