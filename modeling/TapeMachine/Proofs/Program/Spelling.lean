import TapeMachine.Program.Spelling
import TapeMachine.Proofs.ParseTree.Building

/-!
# Programs built from text

A program spells text if each of its nodes stands for one instruction of it, or for
a loop. From every source whose brackets match a program is built that spells the
instructions of the source.
-/

namespace TapeMachine

/-- The node that an instruction becomes, unless it is a bracket. -/
def Instruction.node? : Instruction → Option Node
  | .increment => some (.addAt 0 1)
  | .decrement => some (.addAt 0 (-1))
  | .moveRight => some (.move 1)
  | .moveLeft => some (.move (-1))
  | .output => some (.outputAt 0)
  | .input => some (.inputAt 0)
  | .loopOpen | .loopClose => none

theorem Instruction.not_bracket_of_node? {instruction : Instruction} {node : Node}
    (becomes : instruction.node? = some node) :
    instruction ≠ .loopOpen ∧ instruction ≠ .loopClose := by
  constructor
  · rintro rfl
    cases becomes
  · rintro rfl
    cases becomes

namespace Program

theorem spell?_nil : spell? [] = some [] := by rw [spell?]

theorem spell?_cons {node : Node} {rest : Block} {text : List Instruction} :
    spell? (node :: rest) = some text ↔ ∃ first others,
      spellNode? node = some first ∧ spell? rest = some others ∧ text = first ++ others := by
  rw [spell?]
  cases spellNode? node <;> cases spell? rest <;> simp [eq_comm]

theorem spellNode?_loop {body : Block} {text : List Instruction} :
    spellNode? (.loop body) = some text ↔ ∃ inner,
      spell? body = some inner ∧ text = .loopOpen :: inner ++ [.loopClose] := by
  rw [spellNode?]
  cases spell? body <;> simp [eq_comm]

theorem spellNode?_of_node? {instruction : Instruction} {node : Node}
    (becomes : instruction.node? = some node) : spellNode? node = some [instruction] := by
  cases instruction <;> cases becomes <;> rw [spellNode?] <;> rfl

/-- A node that spells anything is an instruction that is not a bracket, or a loop. -/
theorem spellNode?_cases {node : Node} {text : List Instruction}
    (spelled : spellNode? node = some text) :
    (∃ instruction, instruction.node? = some node ∧ text = [instruction]) ∨
      ∃ body inner, node = .loop body ∧ spell? body = some inner ∧
        text = .loopOpen :: inner ++ [.loopClose] := by
  cases node with
  | loop body =>
    obtain ⟨inner, within, rfl⟩ := spellNode?_loop.1 spelled
    exact .inr ⟨body, inner, rfl, within, rfl⟩
  | addAt offset delta =>
    rw [spellNode?] at spelled
    split_ifs at spelled with more less
    · obtain ⟨rfl, rfl⟩ := more
      exact .inl ⟨.increment, rfl, (Option.some.inj spelled).symm⟩
    · obtain ⟨rfl, rfl⟩ := less
      exact .inl ⟨.decrement, rfl, (Option.some.inj spelled).symm⟩
  | move delta =>
    rw [spellNode?] at spelled
    split_ifs at spelled with right left
    · subst right
      exact .inl ⟨.moveRight, rfl, (Option.some.inj spelled).symm⟩
    · subst left
      exact .inl ⟨.moveLeft, rfl, (Option.some.inj spelled).symm⟩
  | outputAt offset =>
    rw [spellNode?] at spelled
    split_ifs at spelled with here
    subst here
    exact .inl ⟨.output, rfl, (Option.some.inj spelled).symm⟩
  | inputAt offset =>
    rw [spellNode?] at spelled
    split_ifs at spelled with here
    subst here
    exact .inl ⟨.input, rfl, (Option.some.inj spelled).symm⟩
  | _ =>
    rw [spellNode?] at spelled
    cases spelled

/-- A program that spells text starts with an instruction that is not a bracket, or
with a loop. -/
theorem spell?_cons_cases {node : Node} {rest : Block} {text : List Instruction}
    (spelled : spell? (node :: rest) = some text) :
    (∃ instruction others, instruction.node? = some node ∧ spell? rest = some others ∧
      text = instruction :: others) ∨
    ∃ body inner others, node = .loop body ∧ spell? body = some inner ∧
      spell? rest = some others ∧ text = .loopOpen :: inner ++ .loopClose :: others := by
  obtain ⟨first, others, front, later, rfl⟩ := spell?_cons.1 spelled
  rcases spellNode?_cases front with ⟨instruction, becomes, rfl⟩ | ⟨body, inner, rfl, within, rfl⟩
  · exact .inl ⟨instruction, others, becomes, later, rfl⟩
  · exact .inr ⟨body, inner, others, rfl, within, later, by simp⟩

theorem balanced_of_spell? {block : Block} : ∀ {text : List Instruction},
    spell? block = some text → Brackets.Balanced text := by
  induction block using Node.block_induction with
  | nil =>
    intro text spelled
    rw [spell?_nil] at spelled
    cases spelled
    exact .nil
  | loop body rest ihBody ihRest =>
    intro text spelled
    rcases spell?_cons_cases spelled with
      ⟨instruction, _, becomes, _, _⟩ | ⟨_, inner, others, same, within, later, rfl⟩
    · -- No single instruction becomes a loop.
      cases instruction <;> cases becomes
    · cases same
      exact .loop (ihBody within) (ihRest later)
  | single node rest single ih =>
    intro text spelled
    rcases spell?_cons_cases spelled with
      ⟨instruction, others, becomes, later, rfl⟩ | ⟨body, _, _, same, _, _, _⟩
    · obtain ⟨notOpen, notClose⟩ := Instruction.not_bracket_of_node? becomes
      exact .plain notOpen notClose (ih later)
    · exact absurd same (single body)

theorem spell?_append {front back : Block} {text more : List Instruction}
    (first : spell? front = some text) (second : spell? back = some more) :
    spell? (front ++ back) = some (text ++ more) := by
  induction front generalizing text with
  | nil =>
    rw [spell?_nil] at first
    cases first
    exact second
  | cons node rest ih =>
    obtain ⟨head, others, spelled, later, rfl⟩ := spell?_cons.1 first
    rw [List.append_assoc]
    exact spell?_cons.2 ⟨head, others ++ more, spelled, ih later, rfl⟩

theorem eq_of_node? {instruction : Instruction} {node node' : Node}
    (becomes : instruction.node? = some node) (becomes' : instruction.node? = some node') :
    node' = node :=
  Option.some.inj (becomes'.symm.trans becomes)

theorem eq_nil_of_spell? {block : Block} (spelled : spell? block = some []) : block = [] := by
  cases block with
  | nil => rfl
  | cons node rest =>
    rcases spell?_cons_cases spelled with ⟨_, _, _, _, same⟩ | ⟨_, _, _, _, _, _, same⟩
    · cases same
    · cases same

/-- No two programs spell the same text. -/
theorem eq_of_spell? {block : Block} : ∀ {other : Block} {text : List Instruction},
    spell? block = some text → spell? other = some text → other = block := by
  induction block using Node.block_induction with
  | nil =>
    intro other text spelled spelled'
    rw [spell?_nil] at spelled
    cases spelled
    exact eq_nil_of_spell? spelled'
  | loop body rest ihBody ihRest =>
    intro other text spelled spelled'
    rcases spell?_cons_cases spelled with
      ⟨instruction, _, becomes, _, _⟩ | ⟨_, inner, others, same, within, later, rfl⟩
    · cases instruction <;> cases becomes
    cases same
    obtain _ | ⟨node', rest'⟩ := other
    · rw [spell?_nil] at spelled'
      cases spelled'
    rcases spell?_cons_cases spelled' with
      ⟨instruction, _, becomes, _, same⟩ | ⟨body', inner', others', rfl, within', later', same⟩
    · cases same
      cases becomes
    -- Both loops are closed at the first close that is not used up before.
    rw [List.cons_append, List.cons_append, List.cons.injEq] at same
    have closes := (balanced_of_spell? within).passed 0 (.loopClose :: others)
    rw [same.2, (balanced_of_spell? within').passed 0] at closes
    have lengths : inner'.length = inner.length := by simpa [Brackets.distance] using closes
    obtain ⟨rfl, tail⟩ := List.append_inj same.2 lengths.symm
    cases tail
    rw [ihBody within within', ihRest later later']
  | single node rest single ih =>
    intro other text spelled spelled'
    rcases spell?_cons_cases spelled with
      ⟨instruction, others, becomes, later, rfl⟩ | ⟨body, _, _, same, _, _, _⟩
    · obtain _ | ⟨node', rest'⟩ := other
      · rw [spell?_nil] at spelled'
        cases spelled'
      rcases spell?_cons_cases spelled' with
        ⟨instruction', _, becomes', later', same⟩ | ⟨_, _, _, rfl, _, _, same⟩
      · cases same
        rw [eq_of_node? becomes becomes', ih later later']
      · cases same
        cases becomes
    · exact absurd same (single body)

/-! ## Building -/

open ParseTree

theorem nodeOfEntry_leaf {instruction : Instruction} {kind : Kind}
    (isLeaf : Kind.ofInstruction? instruction = some kind) (token size : Int) (body : Block) :
    ∃ node, instruction.node? = some node ∧ nodeOfEntry ⟨kind, token, size⟩ body = .ok node := by
  cases instruction <;> cases isLeaf <;> exact ⟨_, rfl, rfl⟩

/-- The trees of a text become a program that spells it. -/
theorem exists_folded {token : Nat} {text : List Instruction} {trees : List Tree}
    (grown : Grown token text trees) :
    ∃ block, Table.Folded nodeOfEntry trees block ∧ spell? block = some text := by
  induction grown with
  | nil => exact ⟨[], .nil, spell?_nil⟩
  | @leaf token instruction kind rest trees isLeaf _ ih =>
    obtain ⟨later, folded, spelled⟩ := ih
    obtain ⟨node, becomes, made⟩ :=
      nodeOfEntry_leaf isLeaf token (ParseTree.Tree.node kind token []).size []
    refine ⟨node :: later, .cons .nil made folded, ?_⟩
    exact spell?_cons.2 ⟨[instruction], rest, spellNode?_of_node? becomes, spelled, rfl⟩
  | @loop token body rest inner trees _ _ ihBody ihRest =>
    obtain ⟨block, foldedBody, spelledBody⟩ := ihBody
    obtain ⟨later, folded, spelled⟩ := ihRest
    refine ⟨.loop block :: later, .cons foldedBody rfl folded, ?_⟩
    exact spell?_cons.2 ⟨.loopOpen :: body ++ [.loopClose], rest,
      spellNode?_loop.2 ⟨body, spelledBody, rfl⟩, spelled, by simp⟩

theorem exists_spelled {text : List Instruction} (balanced : Brackets.Balanced text) :
    ∃ block, spell? block = some text := by
  obtain ⟨trees, grown⟩ := exists_grown balanced 0
  obtain ⟨block, _, spelled⟩ := exists_folded grown
  exact ⟨block, spelled⟩

/-- The program made of a listed tree has the values of its children. -/
theorem ofTable_ofTree {kind : Kind} {token : Int} {trees : List Tree} {block : Block}
    (folded : Table.Folded nodeOfEntry trees block) :
    ofTable (.ofTree (.node kind token trees)) (Table.ofTree (.node kind token trees)).root =
      .ok block := by
  have has := Table.hasAt_ofTree (.node kind token trees)
  have children := Table.children_of_hasAt has
  rw [Tree.postorder] at has
  rw [ofTable, Table.root_ofTree, children]
  exact Table.mapM_foldM_of_hasAt folded has.left

end Program

/-! ## From source to program -/

theorem Token.instructions_scanFrom (place : Place) (text : List Char) :
    (scanFrom place text).map Token.instruction = Instruction.ofChars text := by
  induction text generalizing place with
  | nil => rfl
  | cons c rest ih =>
    rw [scanFrom]
    cases read : Instruction.ofChar? c with
    | none =>
      rw [Instruction.ofChars, List.filterMap_cons_none read]
      exact ih _
    | some instruction =>
      rw [Instruction.ofChars, List.filterMap_cons_some read, List.map_cons, ih]
      rfl

/-- The tokens of a source are its instruction characters. -/
theorem Tokens.instructions_ofSource (source : String) :
    (Tokens.ofSource source).instructions = Instruction.ofChars source.toList := by
  show (Token.scan source.toList).map Token.instruction = _
  unfold Token.scan
  split
  · next rest marked =>
    rw [marked]
    exact Token.instructions_scanFrom _ rest
  · exact Token.instructions_scanFrom _ _

/-- A program is built from every source whose brackets match, and spells it. -/
theorem exists_built {source : String}
    (balanced : Brackets.Balanced (Instruction.ofChars source.toList)) :
    ∃ table program, ParseTree.parse (.ofSource source) = .ok table ∧
      Program.ofTable table table.root = .ok program ∧
        Program.spell? program = some (Instruction.ofChars source.toList) := by
  rw [← Tokens.instructions_ofSource] at balanced ⊢
  obtain ⟨trees, grown⟩ := ParseTree.exists_grown balanced 0
  obtain ⟨program, folded, spelled⟩ := Program.exists_folded grown
  exact ⟨_, program, ParseTree.parse_of_grown balanced grown, Program.ofTable_ofTree folded,
    spelled⟩

end TapeMachine
