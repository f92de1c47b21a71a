import TapeMachine.ParseTree.Parse
import TapeMachine.Proofs.Brackets.Balance
import TapeMachine.Proofs.ParseTree.Postorder

/-!
# Parsed tables

Balanced text has a tree for each instruction that is not inside a loop: a leaf, or
a loop over the trees of its contents. Parsing lists these trees, and over them the
program node, in postorder.
-/

namespace TapeMachine.ParseTree

/-- The kind of node of an instruction that is not a bracket. -/
def Kind.ofInstruction? : Instruction → Option Kind
  | .increment => some .increment
  | .decrement => some .decrement
  | .moveRight => some .moveRight
  | .moveLeft => some .moveLeft
  | .output => some .output
  | .input => some .input
  | .loopOpen | .loopClose => none

theorem Kind.exists_ofInstruction? {instruction : Instruction} (notOpen : instruction ≠ .loopOpen)
    (notClose : instruction ≠ .loopClose) : ∃ kind, ofInstruction? instruction = some kind := by
  cases instruction with
  | loopOpen => exact absurd rfl notOpen
  | loopClose => exact absurd rfl notClose
  | _ => exact ⟨_, rfl⟩

open ParseTree.Tree

/-! ## Trees of a text -/

/-- The trees of balanced text whose first token has the given number. A leaf has the
number of its own token, a loop that of its open bracket. -/
inductive Grown : Nat → List Instruction → List Tree → Prop
  | nil {token : Nat} : Grown token [] []
  | leaf {token : Nat} {instruction : Instruction} {kind : Kind} {rest : List Instruction}
      {trees : List Tree} : Kind.ofInstruction? instruction = some kind →
        Grown (token + 1) rest trees →
          Grown token (instruction :: rest) (.node kind token [] :: trees)
  | loop {token : Nat} {body rest : List Instruction} {inner trees : List Tree} :
      Grown (token + 1) body inner → Grown (token + 1 + body.length + 1) rest trees →
        Grown token (.loopOpen :: body ++ .loopClose :: rest) (.node .loop token inner :: trees)

theorem exists_grown {text : List Instruction} (balanced : Brackets.Balanced text) (token : Nat) :
    ∃ trees, Grown token text trees := by
  induction balanced generalizing token with
  | nil => exact ⟨[], .nil⟩
  | plain notOpen notClose _ ih =>
    obtain ⟨kind, isLeaf⟩ := Kind.exists_ofInstruction? notOpen notClose
    obtain ⟨trees, grown⟩ := ih (token + 1)
    exact ⟨_, .leaf isLeaf grown⟩
  | @loop body _ _ _ ihBody ihRest =>
    obtain ⟨inner, grown⟩ := ihBody (token + 1)
    obtain ⟨trees, grown'⟩ := ihRest (token + 1 + body.length + 1)
    exact ⟨_, .loop grown grown'⟩

/-! ## Building -/

namespace Builder

/-- The builder after more entries. -/
def extend (b : Builder) (entries : List Entry) : Builder :=
  { b with table := ⟨(b.table.toList ++ entries).toArray⟩ }

theorem extend_nil (b : Builder) : b.extend [] = b := by
  simp [extend, Table.toList]

theorem extend_extend (b : Builder) (front back : List Entry) :
    (b.extend front).extend back = b.extend (front ++ back) := by
  simp [extend, Table.toList]

theorem count_extend (b : Builder) (entries : List Entry) :
    (b.extend entries).table.count = b.table.count + entries.length := by
  simp [extend, Table.count, Table.toList]

theorem add_eq_extend (b : Builder) (entry : Entry) :
    { b with table := b.table.add entry } = b.extend [entry] := by
  simp only [extend, Table.add, Table.toList, ← Array.toList_push, Array.toArray_toList]

theorem take_leaf {instruction : Instruction} {kind : Kind}
    (isLeaf : Kind.ofInstruction? instruction = some kind) (b : Builder) (token : Nat) :
    b.take token instruction = .ok (b.extend (Tree.node kind token []).postorder) := by
  have entry : (Tree.node kind token []).postorder = [⟨kind, token, 1⟩] := rfl
  rw [entry, ← add_eq_extend]
  cases instruction <;> cases isLeaf <;> rfl

/-- A close adds a loop over all that was added since its open. -/
theorem take_close (b : Builder) (opening token : Nat) (inner : List Tree) :
    ({ b with unfinished := (opening, b.table.count) :: b.unfinished }.extend
      (postorders inner)).take token .loopClose =
        .ok (b.extend (Tree.node .loop opening inner).postorder) := by
  have covered : ((b.extend (postorders inner)).table.count : Int) - b.table.count + 1 =
      (Tree.node .loop opening inner).size := by
    rw [count_extend, length_postorders, size]
    omega
  show Except.ok { b with table := (b.extend (postorders inner)).table.add ⟨.loop, opening,
    ((b.extend (postorders inner)).table.count : Int) - b.table.count + 1⟩ } = _
  rw [covered, postorder, ← extend_extend, ← add_eq_extend]
  rfl

/-- Balanced text adds the listing of its trees. -/
theorem takeAll_of_grown {token : Nat} {text : List Instruction} {trees : List Tree}
    (grown : Grown token text trees) (b : Builder) (more : List Instruction) :
    b.takeAll token (text ++ more) =
      (b.extend (postorders trees)).takeAll (token + text.length) more := by
  induction grown generalizing b more with
  | nil => rw [postorders, extend_nil]; rfl
  | @leaf token instruction kind rest trees isLeaf _ ih =>
    rw [List.cons_append, takeAll, take_leaf isLeaf]
    show takeAll _ _ _ = _
    rw [ih, extend_extend, postorders, List.length_cons, Nat.add_right_comm, Nat.add_assoc]
  | @loop token body rest inner trees _ _ ihBody ihRest =>
    have text : Instruction.loopOpen :: body ++ .loopClose :: rest ++ more =
        .loopOpen :: (body ++ .loopClose :: (rest ++ more)) := by simp
    rw [text, takeAll]
    show takeAll { b with unfinished := (token, b.table.count) :: b.unfinished } _ _ = _
    rw [ihBody, takeAll, take_close]
    show takeAll _ _ _ = _
    rw [ihRest, extend_extend, postorders]
    congr 1
    simp only [List.cons_append, List.length_cons, List.length_append]
    omega

end Builder

/-- The table that lists one tree. -/
def Table.ofTree (tree : Tree) : Table :=
  ⟨tree.postorder.toArray⟩

theorem Table.hasAt_ofTree (tree : Tree) : (ofTree tree).HasAt 0 tree.postorder :=
  ⟨[], [], by simp [ofTree, toList], rfl⟩

theorem Table.root_ofTree (tree : Tree) :
    (ofTree tree).root = ((0 : Nat) : Int) + tree.size - 1 := by
  simp [root, ofTree, count, length_postorder]

theorem ofInstructions_of_grown {program : List Instruction} {trees : List Tree}
    (grown : Grown 0 program trees) :
    Table.ofInstructions program = .ok (.ofTree (.node .program 0 trees)) := by
  have built := Builder.takeAll_of_grown grown {} []
  rw [List.append_nil, Builder.takeAll] at built
  rw [Table.ofInstructions, built]
  show Except.ok (Table.add _ _) = _
  simp [Table.ofTree, Table.add, postorder, Builder.extend, Table.toList, Table.count,
    rootEntry, size, length_postorders]

/-! ## Parsing -/

/-- Instructions written out are bare program text. -/
theorem failure?_render (program : List Instruction) :
    ProgramText.failure? (Instruction.render program) = none := by
  rw [ProgramText.failure?, Instruction.render, String.toList_ofList]
  induction program with
  | nil => rfl
  | cons instruction rest ih =>
    rw [List.map_cons, Text.Units.findIndex?, Instruction.ofChar?_symbol]
    simp [ih]

theorem bracketReports_of_balanced {tokens : Tokens}
    (balanced : Brackets.Balanced tokens.instructions) : bracketReports tokens = .ok [] := by
  rw [bracketReports, Brackets.strayCloses, Brackets.unclosedOpens,
    Brackets.scanFrom_of_balanced balanced]
  rfl

/-- Parsing balanced text gives the table of its trees. -/
theorem parse_of_grown {tokens : Tokens} {trees : List Tree}
    (balanced : Brackets.Balanced tokens.instructions)
    (grown : Grown 0 tokens.instructions trees) :
    parse tokens = .ok (.ofTree (.node .program 0 trees)) := by
  rw [parse, bracketReports_of_balanced balanced, Tokens.render, failure?_render,
    ofInstructions_of_grown grown]
  rfl

end TapeMachine.ParseTree
