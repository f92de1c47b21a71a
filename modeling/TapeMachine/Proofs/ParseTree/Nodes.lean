import TapeMachine.Proofs.Compile.Acceptance

/-!
# The nodes of a parsed source

A balanced source is stored as the listing of its tree, with exactly one node below the
root for each of its tokens that is not a close (`Grown.perm_nodeTokens`). Each node can be
found again in the text: its subtree is the tree of the piece of text that it is written
out as (`Grown.pieceAt`).
-/

namespace TapeMachine

/-! ## Pieces of program text -/

/-- The characters of a text from one position up to another. -/
def Text.piece (text : String) (start stop : Nat) : String :=
  String.ofList ((text.toList.take stop).drop start)

/-- Instructions between others are a piece of what is written for all of them. -/
theorem Instruction.piece_render (before piece behind : List Instruction) :
    Text.piece (render (before ++ piece ++ behind)) before.length
      (before.length + piece.length) = render piece := by
  have front : (before ++ piece).length = before.length + piece.length := List.length_append
  rw [Text.piece, render, String.toList_ofList, ← List.map_take, ← List.map_drop, ← front,
    List.take_left, List.drop_left]
  rfl

namespace ParseTree

open ParseTree.Tree

/-! ## Grown trees -/

theorem Grown.balanced {token : Nat} {text : List Instruction} {trees : List Tree}
    (grown : Grown token text trees) : Brackets.Balanced text := by
  induction grown with
  | nil => exact .nil
  | @leaf token instruction kind rest trees isLeaf _ ih =>
    refine .plain ?_ ?_ ih
    · rintro rfl
      cases isLeaf
    · rintro rfl
      cases isLeaf
  | loop _ _ ihBody ihRest => exact .loop ihBody ihRest

/-- A text with a single tree is one instruction or one loop. -/
theorem Grown.single_cases {token : Nat} {text : List Instruction} {tree : Tree}
    (grown : Grown token text [tree]) :
    (∃ instruction kind, Kind.ofInstruction? instruction = some kind ∧ text = [instruction] ∧
      tree = .node kind token []) ∨
    ∃ body inner, Grown (token + 1) body inner ∧
      text = .loopOpen :: body ++ [.loopClose] ∧ tree = .node .loop token inner := by
  cases grown with
  | leaf isLeaf none =>
    cases none
    exact .inl ⟨_, _, isLeaf, rfl, rfl⟩
  | loop inside none =>
    cases none
    exact .inr ⟨_, _, inside, rfl, rfl⟩

/-- The tree whose listing ends at a place is the tree of a piece of the text. -/
def PieceAt (token : Nat) (text : List Instruction) (trees : List Tree) (place : Nat) : Prop :=
  ∃ before piece behind tree front back,
    text = before ++ piece ++ behind ∧ Grown (token + before.length) piece [tree] ∧
      postorders trees = front ++ tree.postorder ++ back ∧
        front.length + tree.size = place + 1

theorem pieceAt_first {token : Nat} {piece : List Instruction} {tree : Tree}
    (grown : Grown token piece [tree]) (behind : List Instruction) (trees : List Tree) {place : Nat}
    (last : tree.size = place + 1) : PieceAt token (piece ++ behind) (tree :: trees) place := by
  refine ⟨[], piece, behind, tree, [], postorders trees, rfl, grown, rfl, ?_⟩
  rw [List.length_nil, Nat.zero_add, last]

/-- The trees behind a first one. -/
theorem PieceAt.behind {token : Nat} {first text : List Instruction} {trees : List Tree}
    {place : Nat} (found : PieceAt (token + first.length) text trees place) (tree : Tree) :
    PieceAt token (first ++ text) (tree :: trees) (tree.size + place) := by
  obtain ⟨before, piece, behind, inner, front, back, rfl, grown, listing, reached⟩ := found
  refine ⟨first ++ before, piece, behind, inner, tree.postorder ++ front, back, by simp, ?_, ?_, ?_⟩
  · rw [List.length_append, ← Nat.add_assoc]
    exact grown
  · rw [postorders, listing]
    simp
  · rw [List.length_append, length_postorder]
    omega

/-- The trees inside of a loop. -/
theorem PieceAt.inside {token : Nat} {body : List Instruction} {inner : List Tree} {place : Nat}
    (found : PieceAt (token + 1) body inner place) (rest : List Instruction)
    (trees : List Tree) :
    PieceAt token (.loopOpen :: body ++ .loopClose :: rest) (.node .loop token inner :: trees)
      place := by
  obtain ⟨before, piece, behind, tree, front, back, rfl, grown, listing, reached⟩ := found
  refine ⟨.loopOpen :: before, piece, behind ++ .loopClose :: rest, tree, front,
    back ++ (Tree.node .loop token inner).rootEntry :: postorders trees, by simp, ?_, ?_, reached⟩
  · rw [List.length_cons, Nat.add_comm before.length, ← Nat.add_assoc]
    exact grown
  · rw [postorders, postorder, listing]
    simp

/-- Every place of a listing is the root of the tree of a piece of the text. -/
theorem Grown.pieceAt {token : Nat} {text : List Instruction} {trees : List Tree}
    (grown : Grown token text trees) {place : Nat} (inside : place < sizes trees) :
    PieceAt token text trees place := by
  induction grown generalizing place with
  | nil => exact absurd inside (Nat.not_lt_zero _)
  | @leaf token instruction kind rest trees isLeaf _ ih =>
    have leafSize : (Tree.node kind token []).size = 1 := rfl
    rw [sizes, leafSize] at inside
    cases place with
    | zero => exact pieceAt_first (.leaf isLeaf .nil) rest trees leafSize
    | succ place =>
      have later : PieceAt (token + [instruction].length) rest trees place := ih (by omega)
      rw [Nat.add_comm place, ← leafSize]
      exact later.behind _
  | @loop token body rest inner trees grownBody _ ihBody ihRest =>
    have loopSize : (Tree.node .loop token inner).size = sizes inner + 1 := by rw [size]
    have loopText : Instruction.loopOpen :: body ++ .loopClose :: rest =
        (.loopOpen :: body ++ [.loopClose]) ++ rest := by simp
    rw [sizes, loopSize] at inside
    -- In a listing, what is in a loop comes before the loop.
    rcases Nat.lt_trichotomy place (sizes inner) with nested | rfl | later
    · exact (ihBody nested).inside rest trees
    · rw [loopText]
      exact pieceAt_first (.loop grownBody .nil) rest trees loopSize
    · obtain ⟨place, rfl⟩ := Nat.exists_eq_add_of_lt later
      have further : token + (Instruction.loopOpen :: body ++ [Instruction.loopClose]).length =
          token + 1 + body.length + 1 := by
        simp only [List.cons_append, List.length_cons, List.length_append, List.length_nil]
        omega
      have found : PieceAt (token + (Instruction.loopOpen :: body ++ [Instruction.loopClose]).length)
          rest trees place := by
        rw [further]
        exact ihRest (by omega)
      rw [loopText, Nat.add_right_comm, ← loopSize]
      exact found.behind _

/-! ## One node for each token -/

/-- The numbers of the tokens that get a node: all but the closes. -/
def nodeTokens (token : Nat) : List Instruction → List Int
  | [] => []
  | .loopClose :: rest => nodeTokens (token + 1) rest
  | _ :: rest => (token : Int) :: nodeTokens (token + 1) rest

theorem nodeTokens_of_ne_close {instruction : Instruction} (notClose : instruction ≠ .loopClose)
    (token : Nat) (rest : List Instruction) :
    nodeTokens token (instruction :: rest) = (token : Int) :: nodeTokens (token + 1) rest := by
  cases instruction with
  | loopClose => exact absurd rfl notClose
  | _ => rfl

theorem nodeTokens_append (token : Nat) (front back : List Instruction) :
    nodeTokens token (front ++ back) =
      nodeTokens token front ++ nodeTokens (token + front.length) back := by
  induction front generalizing token with
  | nil => rfl
  | cons instruction rest ih =>
    have next : token + (instruction :: rest).length = token + 1 + rest.length := by
      rw [List.length_cons]
      omega
    rw [List.cons_append, next]
    by_cases isClose : instruction = .loopClose
    · subst isClose
      exact ih (token + 1)
    · rw [nodeTokens_of_ne_close isClose, nodeTokens_of_ne_close isClose, ih, List.cons_append]

theorem le_of_mem_nodeTokens {token : Nat} {text : List Instruction} {number : Int}
    (among : number ∈ nodeTokens token text) : (token : Int) ≤ number := by
  induction text generalizing token with
  | nil => cases among
  | cons instruction rest ih =>
    by_cases isClose : instruction = .loopClose
    · subst isClose
      have later : number ∈ nodeTokens (token + 1) rest := among
      have := ih later
      omega
    · rw [nodeTokens_of_ne_close isClose] at among
      rcases List.mem_cons.1 among with rfl | later
      · exact Int.le_refl _
      · have := ih later
        omega

theorem nodup_nodeTokens (token : Nat) (text : List Instruction) :
    (nodeTokens token text).Nodup := by
  induction text generalizing token with
  | nil => exact List.nodup_nil
  | cons instruction rest ih =>
    by_cases isClose : instruction = .loopClose
    · subst isClose
      exact ih (token + 1)
    · rw [nodeTokens_of_ne_close isClose, List.nodup_cons]
      refine ⟨?_, ih (token + 1)⟩
      intro again
      have := le_of_mem_nodeTokens again
      omega

theorem mem_nodeTokens {text : List Instruction} {place : Nat} {instruction : Instruction}
    (found : text[place]? = some instruction) (notClose : instruction ≠ .loopClose) (token : Nat) :
    ((token + place : Nat) : Int) ∈ nodeTokens token text := by
  have inside := (List.getElem?_eq_some_iff.1 found).1
  have split : text = text.take place ++ instruction :: text.drop (place + 1) := by
    obtain ⟨_, rfl⟩ := List.getElem?_eq_some_iff.1 found
    rw [← List.drop_eq_getElem_cons inside, List.take_append_drop]
  rw [split, nodeTokens_append, nodeTokens_of_ne_close notClose, List.length_take,
    Nat.min_eq_left (Nat.le_of_lt inside)]
  exact List.mem_append_right _ List.mem_cons_self

theorem length_nodeTokens (token : Nat) (text : List Instruction) :
    (nodeTokens token text).length + text.count .loopClose = text.length := by
  induction text generalizing token with
  | nil => rfl
  | cons instruction rest ih =>
    have others := ih (token + 1)
    by_cases isClose : instruction = .loopClose
    · subst isClose
      rw [List.count_cons_self, List.length_cons]
      show (nodeTokens (token + 1) rest).length + _ = _
      omega
    · rw [nodeTokens_of_ne_close isClose, List.count_cons_of_ne isClose,
        List.length_cons, List.length_cons]
      omega

/-- The nodes of a text are those of its tokens that are not closes, in another order. -/
theorem Grown.perm_nodeTokens {token : Nat} {text : List Instruction} {trees : List Tree}
    (grown : Grown token text trees) :
    ((postorders trees).map Entry.token).Perm (nodeTokens token text) := by
  induction grown with
  | nil => exact .nil
  | @leaf token instruction kind rest trees isLeaf _ ih =>
    have notClose : instruction ≠ .loopClose := by
      rintro rfl
      cases isLeaf
    rw [nodeTokens_of_ne_close notClose]
    exact ih.cons _
  | @loop token body rest inner trees _ _ ihBody ihRest =>
    have notClose : Instruction.loopOpen ≠ .loopClose := by decide
    have closed : nodeTokens (token + 1 + body.length) (.loopClose :: rest) =
        nodeTokens (token + 1 + body.length + 1) rest := rfl
    rw [List.cons_append, nodeTokens_of_ne_close notClose, nodeTokens_append, closed,
      postorders, postorder, List.map_append, List.map_append]
    refine (List.Perm.append_right _ List.perm_append_comm).trans ?_
    exact (ihBody.append ihRest).cons _

/-! ## Nodes in the text -/

/-- The nodes below the root that a program calls for, each from its first token up to
where it ends: one for each instruction that is not a bracket, and one for each pair of
brackets that match. -/
inductive Spans (program : List Instruction) : Kind → Nat → Nat → Prop
  | plain {instruction : Instruction} {kind : Kind} {token : Nat} :
      program[token]? = some instruction → Kind.ofInstruction? instruction = some kind →
        Spans program kind token (token + 1)
  | pair {opening closing : Nat} : Brackets.Matches program opening closing →
      Spans program .loop opening (closing + 1)

/-- A node starts at a token that is not a close. -/
theorem Spans.exists_first {program : List Instruction} {kind : Kind} {first stop : Nat}
    (spans : Spans program kind first stop) :
    ∃ instruction : Instruction, program[first]? = some instruction ∧ instruction ≠ .loopClose ∧
      kind = (Kind.ofInstruction? instruction).getD .loop := by
  cases spans with
  | @plain instruction _ _ found isLeaf =>
    refine ⟨instruction, found, ?_, ?_⟩
    · rintro rfl
      cases isLeaf
    · rw [isLeaf]
      rfl
  | pair matched =>
    have notClose : Instruction.loopOpen ≠ .loopClose := by decide
    exact ⟨.loopOpen, matched.2.1, notClose, rfl⟩

/-- Only one kind of node starts at a token. -/
theorem Spans.kind_eq {program : List Instruction} {kind kind' : Kind} {first stop stop' : Nat}
    (spans : Spans program kind first stop) (spans' : Spans program kind' first stop') :
    kind' = kind := by
  obtain ⟨instruction, found, _, rfl⟩ := spans.exists_first
  obtain ⟨instruction', found', _, rfl⟩ := spans'.exists_first
  rw [found] at found'
  cases found'
  rfl

/-- The tree of a piece of a program is a node that spans the piece. -/
theorem Grown.spans {before piece : List Instruction} {tree : Tree}
    (grown : Grown before.length piece [tree]) (behind : List Instruction) :
    ∃ kind, tree.rootEntry = ⟨kind, before.length, tree.size⟩ ∧
      Spans (before ++ piece ++ behind) kind before.length (before.length + piece.length) := by
  rcases grown.single_cases with
    ⟨instruction, kind, isLeaf, rfl, rfl⟩ | ⟨body, inner, inside, rfl, rfl⟩
  · refine ⟨kind, rfl, Spans.plain ?_ isLeaf⟩
    simp
  · have matched : Brackets.Matches (before ++ (.loopOpen :: body ++ [.loopClose]) ++ behind)
        before.length (before.length + 1 + body.length) :=
      (Brackets.matches_iff _ _ _).2 ⟨before, body, behind, by simp, inside.balanced, rfl, rfl⟩
    have stop : before.length + (Instruction.loopOpen :: body ++ [Instruction.loopClose]).length =
        before.length + 1 + body.length + 1 := by
      simp only [List.cons_append, List.length_cons, List.length_append, List.length_nil]
      omega
    rw [stop]
    exact ⟨.loop, rfl, .pair matched⟩

/-! ## Stored trees -/

namespace Table

variable {table : Table}

/-- A listed tree is written out as the piece of text that it is the tree of. -/
theorem render_of_hasAt {start token : Nat} {tree : Tree} {piece : List Instruction}
    (has : table.HasAt start tree.postorder) (grown : Grown token piece [tree]) :
    table.render ((start : Int) + tree.size - 1) = .ok (Instruction.render piece) := by
  obtain ⟨spellings, folded, spelled⟩ := exists_spelling grown
  obtain ⟨spelling, rfl⟩ := List.length_eq_one_iff.1 folded.length_eq
  have found := foldM_of_hasAt has folded
  have found : table.fold spellEntry ((start : Int) + tree.size - 1) = .ok spelling := found
  have whole : spelling [] = piece := by
    have spelled := spelled []
    rwa [List.append_nil] at spelled
  unfold spellEntry at found
  rw [render, instructions, found]
  show Except.ok (Instruction.render (spelling [])) = _
  rw [whole]

/-- The table stores the tree of matched brackets of a program. -/
structure Stores (table : Table) (tokens : Tokens) : Prop where
  /-- The entries are the postorder listing of the tree. -/
  listing : ∃ trees, Grown 0 tokens.instructions trees ∧
    table.toList = (Tree.node .program 0 trees).postorder
  /-- The last entry is the root, a program node over all entries. -/
  root : table.get table.root = .ok ⟨.program, 0, table.count⟩
  /-- Every entry is the root of a listed tree and declares its number of nodes. -/
  size : ∀ id < table.count, ∃ (tree : Tree) (start : Nat), table.HasAt start tree.postorder ∧
    start + tree.size = id + 1 ∧ table.get id = .ok tree.rootEntry
  /-- Every node below the root spans a piece of the program, and is written out as it. -/
  node : ∀ id : Nat, (id : Int) < table.root → ∃ kind first stop size,
    Spans tokens.instructions kind first stop ∧
      table.get id = .ok ⟨kind, first, size⟩ ∧
        table.render id = .ok (Text.piece tokens.render first stop)
  /-- The root is written out as the whole program. -/
  whole : table.render table.root = .ok tokens.render
  /-- Nothing in the program is without a node or has two. -/
  exactly_one : ∀ kind first stop, Spans tokens.instructions kind first stop →
    ∃! id : Nat, (id : Int) < table.root ∧ ∃ size, table.get id = .ok ⟨kind, first, size⟩

section Listed

variable {program : List Instruction} {trees : List Tree}

theorem toList_ofTree (tree : Tree) : (ofTree tree).toList = tree.postorder := rfl

theorem count_ofTree (tree : Tree) : (ofTree tree).count = tree.size := by
  rw [← length_postorder tree, ← toList_ofTree tree]
  rfl

/-- Below the root stand the trees of the program. -/
theorem getElem?_ofTree {id : Nat} (inside : id < sizes trees) :
    (ofTree (.node .program 0 trees)).toList[id]? = (postorders trees)[id]? := by
  rw [toList_ofTree, postorder, List.getElem?_append_left]
  rwa [length_postorders]

/-- Every node below the root is the root of the tree of a piece of the program. -/
theorem exists_tree_ofTree (grown : Grown 0 program trees) {id : Nat} (inside : id < sizes trees) :
    ∃ before piece behind tree start, program = before ++ piece ++ behind ∧
      Grown before.length piece [tree] ∧ start + tree.size = id + 1 ∧
        (ofTree (.node .program 0 trees)).HasAt start tree.postorder := by
  obtain ⟨before, piece, behind, tree, front, back, rfl, found, listing, reached⟩ :=
    grown.pieceAt inside
  rw [Nat.zero_add] at found
  refine ⟨before, piece, behind, tree, front.length, rfl, found, reached, front,
    back ++ [(Tree.node .program 0 trees).rootEntry], ?_, rfl⟩
  rw [toList_ofTree, postorder, listing]
  simp

/-- The number of the node at the end of a subtree. -/
theorem natCast_of_reached {start size id : Nat} (reached : start + size = id + 1) :
    (start : Int) + size - 1 = id := by
  omega

theorem node_ofTree (grown : Grown 0 program trees) {id : Nat} (inside : id < sizes trees) :
    ∃ kind first stop size, Spans program kind first stop ∧
      (ofTree (.node .program 0 trees)).get id = .ok ⟨kind, first, size⟩ ∧
        (ofTree (.node .program 0 trees)).render id =
          .ok (Text.piece (Instruction.render program) first stop) := by
  obtain ⟨before, piece, behind, tree, start, rfl, found, reached, has⟩ :=
    exists_tree_ofTree grown inside
  obtain ⟨kind, entry, spans⟩ := found.spans behind
  have root := has.get_root
  have rendered := render_of_hasAt has found
  rw [natCast_of_reached reached] at root rendered
  refine ⟨kind, before.length, before.length + piece.length, tree.size, spans, ?_, ?_⟩
  · rw [root, entry]
  · rw [rendered, Instruction.piece_render]

/-- Nodes below the root are told apart by their tokens. -/
theorem eq_of_token_ofTree (grown : Grown 0 program trees) {id id' : Nat}
    (inside : id < sizes trees) (inside' : id' < sizes trees) {entry entry' : Entry}
    (found : (ofTree (.node .program 0 trees)).get id = .ok entry)
    (found' : (ofTree (.node .program 0 trees)).get id' = .ok entry')
    (same : entry.token = entry'.token) : id = id' := by
  have distinct : ((postorders trees).map Entry.token).Nodup :=
    grown.perm_nodeTokens.nodup_iff.2 (nodup_nodeTokens 0 program)
  rw [get_natCast, getElem?_ofTree inside] at found
  rw [get_natCast, getElem?_ofTree inside'] at found'
  apply (List.getElem?_inj (by rwa [List.length_map, length_postorders]) distinct).1
  rw [List.getElem?_map, List.getElem?_map, found, found', Option.map_some, Option.map_some, same]

theorem exactly_one_ofTree (grown : Grown 0 program trees) {kind : Kind} {first stop : Nat}
    (spans : Spans program kind first stop) :
    ∃! id : Nat, id < sizes trees ∧
      ∃ size, (ofTree (.node .program 0 trees)).get id = .ok ⟨kind, first, size⟩ := by
  -- The first token has a node, which can only be of the one kind.
  obtain ⟨instruction, token, notClose, _⟩ := spans.exists_first
  have among := grown.perm_nodeTokens.mem_iff.2 (mem_nodeTokens token notClose 0)
  obtain ⟨entry, listed, about⟩ := List.mem_map.1 among
  obtain ⟨id, inside, rfl⟩ := List.getElem_of_mem listed
  rw [length_postorders] at inside
  obtain ⟨kind', first', stop', size, spans', found, _⟩ := node_ofTree grown inside
  have entry := found
  rw [get_natCast, getElem?_ofTree inside] at entry
  obtain ⟨_, entry⟩ := List.getElem?_eq_some_iff.1 entry
  rw [entry, Nat.zero_add] at about
  obtain rfl := Int.ofNat_inj.1 about
  obtain rfl := spans.kind_eq spans'
  refine ⟨id, ⟨inside, size, found⟩, ?_⟩
  rintro other ⟨inside', size', found'⟩
  exact eq_of_token_ofTree grown inside' inside found' found rfl

/-- The listing of the tree of a program stores it. -/
theorem stores_ofTree {tokens : Tokens} (grown : Grown 0 tokens.instructions trees) :
    (ofTree (.node .program 0 trees)).Stores tokens := by
  have count : (ofTree (.node .program 0 trees)).count = sizes trees + 1 := by
    rw [count_ofTree, Tree.size]
  have root : (ofTree (.node .program 0 trees)).root = sizes trees := by
    rw [Table.root, count]
    omega
  have has := hasAt_ofTree (.node .program 0 trees)
  have atRoot := has.get_root
  rw [← root_ofTree] at atRoot
  refine {
    listing := ⟨trees, grown, rfl⟩
    root := ?root
    size := ?size
    node := ?node
    whole := render_of_grown grown
    exactly_one := ?exactly_one }
  case root =>
    rw [atRoot, count]
    rfl
  case size =>
    intro id inside
    rw [count] at inside
    rcases Nat.lt_succ_iff_lt_or_eq.1 inside with below | rfl
    · obtain ⟨_, _, _, tree, start, _, _, reached, has⟩ := exists_tree_ofTree grown below
      refine ⟨tree, start, has, reached, ?_⟩
      have found := has.get_root
      rwa [natCast_of_reached reached] at found
    · refine ⟨.node .program 0 trees, 0, has, by rw [Tree.size, Nat.zero_add], ?_⟩
      rwa [root] at atRoot
  case node =>
    intro id below
    rw [root] at below
    exact node_ofTree grown (Int.ofNat_lt.1 below)
  case exactly_one =>
    intro kind first stop spans
    simp only [root, Int.ofNat_lt]
    exact exactly_one_ofTree grown spans

end Listed

end Table

/-- A source whose brackets match is parsed into a table that stores the tree of its
brackets. -/
theorem stores_of_balanced (source : String)
    (balanced : Brackets.Balanced (Instruction.ofChars source.toList)) :
    ∃ table, parse (.ofSource source) = .ok table ∧ table.Stores (.ofSource source) := by
  rw [← Tokens.instructions_ofSource] at balanced
  obtain ⟨trees, grown⟩ := exists_grown balanced 0
  exact ⟨_, parse_of_grown balanced grown, Table.stores_ofTree grown⟩

/-- A comment, a loop with an empty loop in it, and text behind it. -/
theorem stores_of_balanced_nested :
    Brackets.Balanced (Instruction.ofChars "a loop: +[>[]-].".toList) ∧
      ∃ table, parse (.ofSource "a loop: +[>[]-].") = .ok table ∧
        table.Stores (.ofSource "a loop: +[>[]-].") := by
  have balanced : Brackets.Balanced (Instruction.ofChars "a loop: +[>[]-].".toList) :=
    (Brackets.balanced_eq_true_iff _).1 (by decide)
  exact ⟨balanced, stores_of_balanced _ balanced⟩

end ParseTree

end TapeMachine
