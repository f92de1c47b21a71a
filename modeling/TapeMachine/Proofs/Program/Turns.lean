import TapeMachine.Proofs.Program.Blocks
import TapeMachine.Proofs.Program.Walk

/-!
# Walks turn by turn

Seen from close by, both walks through a program are loops without an end in sight: they keep a
stack of blocks with an index into each of them, and every turn looks at the node at the innermost
index only. A node takes one turn, and the end of a loop's body takes one more. So, whatever the
stack is, the number of turns left can be read off it (`turnsLeft`), and every turn takes one from
it. What a loop has still to do is what `walkFrom` and `mapBlocksFrom` do with the nodes still to
come, before a turn as after it (`walkTurn_step`, `close_step`). So a loop ends after the turns left,
and then it has done just that (`walkWithin_eq`, `replaceWithin_eq`).
-/

namespace TapeMachine.Program

/-! ## The number of turns -/

/-- The turns that the nodes of a block take. The body of a loop takes one for its end as well. -/
def turns (block : Block) : Nat :=
  size block + countKind block .loop

@[simp] theorem turns_nil : turns [] = 0 := by
  rw [turns, size_nil, countKind_nil]

@[simp] theorem turns_loop (body rest : Block) :
    turns (.loop body :: rest) = turns body + 1 + turns rest + 1 := by
  simp only [turns, size_loop, countKind_loop, beq_self_eq_true, if_true]
  omega

theorem turns_single {node : Node} (notLoop : ∀ body, node ≠ .loop body) (rest : Block) :
    turns (node :: rest) = turns rest + 1 := by
  have kind : (node.kind == .loop) = false := by
    cases node with
    | loop body => exact absurd rfl (notLoop body)
    | _ => rfl
  simp only [turns, size_single notLoop, countKind_single notLoop, kind, Bool.false_eq_true,
    if_false]
  omega

/-- The turns until the ends of blocks are reached of which these nodes are still to come. -/
def turnsLeft : List Block → Nat
  | [] => 0
  | pending :: outer => turns pending + 1 + turnsLeft outer

/-! ## Cursors -/

/-- How far a loop has come in a block. -/
structure Cursor where
  nodes : Block
  index : Nat

namespace Cursor

/-- The nodes of the block from the index on. -/
def rest (cursor : Cursor) : Block :=
  cursor.nodes.drop cursor.index

/-- The cursor behind the node at the index. -/
def next (cursor : Cursor) : Cursor :=
  ⟨cursor.nodes, cursor.index + 1⟩

theorem rest_start (block : Block) : (⟨block, 0⟩ : Cursor).rest = block :=
  List.drop_zero

theorem rest_of_end {cursor : Cursor} (none : cursor.nodes[cursor.index]? = none) :
    cursor.rest = [] :=
  List.drop_eq_nil_of_le (List.getElem?_eq_none_iff.1 none)

theorem rest_of_node {cursor : Cursor} {node : Node}
    (found : cursor.nodes[cursor.index]? = some node) :
    cursor.rest = node :: cursor.next.rest := by
  obtain ⟨inside, rfl⟩ := List.getElem?_eq_some_iff.1 found
  exact List.drop_eq_getElem_cons inside

end Cursor

/-! ## Walking -/

/-- One turn of a walk: the node that it visits, if it does not come to the end of a block, and
the cursors behind it. The depth of a node is the number of blocks around its own. -/
def walkTurn (top : Cursor) (outer : List Cursor) : Option (Nat × Node) × List Cursor :=
  match top.nodes[top.index]? with
  | none => (none, outer)
  | some (.loop body) => (some (outer.length, .loop body), ⟨body, 0⟩ :: top.next :: outer)
  | some node => (some (outer.length, node), top.next :: outer)

/-- What a walk visits that ends within a number of turns. -/
def walkWithin : Nat → List Cursor → Option (List (Nat × Node))
  | _, [] => some []
  | 0, _ :: _ => none
  | turns + 1, top :: outer =>
    (walkWithin turns (walkTurn top outer).2).map ((walkTurn top outer).1.toList ++ ·)

theorem walkTurn_of_end {top : Cursor} (none : top.nodes[top.index]? = none)
    (outer : List Cursor) : walkTurn top outer = (.none, outer) := by
  rw [walkTurn, none]

theorem walkTurn_of_loop {top : Cursor} {body : Block}
    (found : top.nodes[top.index]? = some (.loop body)) (outer : List Cursor) :
    walkTurn top outer = (some (outer.length, .loop body), ⟨body, 0⟩ :: top.next :: outer) := by
  rw [walkTurn, found]

theorem walkTurn_of_not_loop {top : Cursor} {node : Node}
    (found : top.nodes[top.index]? = some node) (notLoop : ∀ body, node ≠ .loop body)
    (outer : List Cursor) :
    walkTurn top outer = (some (outer.length, node), top.next :: outer) := by
  rw [walkTurn, found]
  cases node with
  | loop body => exact absurd rfl (notLoop body)
  | _ => rfl

/-- One turn less is left after a turn, and what a walk visits is what it visits in this turn and
what it visits from then on. -/
theorem walkTurn_step (top : Cursor) (outer : List Cursor) :
    let cursors := (walkTurn top outer).2
    turnsLeft ((top :: outer).map Cursor.rest) = turnsLeft (cursors.map Cursor.rest) + 1 ∧
      walkFrom outer.length ((top :: outer).map Cursor.rest) =
        (walkTurn top outer).1.toList ++
          walkFrom (cursors.length - 1) (cursors.map Cursor.rest) := by
  cases found : top.nodes[top.index]? with
  | none =>
    simp only [walkTurn_of_end found, List.map_cons, Cursor.rest_of_end found]
    constructor
    · simp only [turnsLeft, turns_nil]
      omega
    · rw [walkFrom]
      rfl
  | some node =>
    obtain ⟨body, rfl⟩ | notLoop := node.loop_or_not
    · simp only [walkTurn_of_loop found, List.map_cons, Cursor.rest_of_node found,
        Cursor.rest_start]
      constructor
      · simp only [turnsLeft, turns_loop]
        omega
      · rw [walkFrom]
        rfl
    · simp only [walkTurn_of_not_loop found notLoop, List.map_cons, Cursor.rest_of_node found]
      constructor
      · simp only [turnsLeft, turns_single notLoop]
        omega
      · rw [walkFrom_of_not_loop notLoop]
        rfl

/-- A walk ends after exactly the turns that are left. -/
theorem walkWithin_eq (count : Nat) (cursors : List Cursor) :
    walkWithin count cursors =
      if turnsLeft (cursors.map Cursor.rest) ≤ count
      then some (walkFrom (cursors.length - 1) (cursors.map Cursor.rest)) else none := by
  induction count generalizing cursors with
  | zero =>
    cases cursors with
    | nil =>
      rw [walkWithin, List.map_nil, walkFrom]
      rfl
    | cons top outer =>
      rw [walkWithin, if_neg]
      simp only [List.map_cons, turnsLeft]
      omega
  | succ count ih =>
    cases cursors with
    | nil =>
      rw [walkWithin, List.map_nil, walkFrom]
      rfl
    | cons top outer =>
      obtain ⟨left, visits⟩ := walkTurn_step top outer
      rw [walkWithin, ih, left, List.length_cons, Nat.add_sub_cancel, visits]
      simp only [Nat.add_le_add_iff_right]
      split
      · rfl
      · rfl

/-! ## Replacing blocks -/

/-- How far a loop has come in a block that it builds anew. -/
structure OpenBlock extends Cursor where
  /-- The new nodes, in order. -/
  out : List Node

namespace OpenBlock

/-- A block of which nothing has been built. -/
def start (block : Block) : OpenBlock where
  nodes := block
  index := 0
  out := []

/-- The block with one more new node, behind the old one at the index. -/
def push (block : OpenBlock) (node : Node) : OpenBlock where
  toCursor := block.next
  out := block.out ++ [node]

/-- A block as it is set aside for the loop at its index. -/
def setAside (block : OpenBlock) : SetAside :=
  ⟨block.next.rest, block.out.reverse⟩

@[simp] theorem rest_start (block : Block) : (start block).rest = block :=
  Cursor.rest_start block

@[simp] theorem rest_push (block : OpenBlock) (node : Node) :
    (block.push node).rest = block.next.rest :=
  rfl

@[simp] theorem reverse_out_push (block : OpenBlock) (node : Node) :
    (block.push node).out.reverse = node :: block.out.reverse :=
  List.reverse_append

end OpenBlock

variable {m : Type → Type} [Monad m]

/-- One turn of replacing blocks: the new program if it is finished, and else the blocks that are
open then. -/
def replaceTurn (replace : Block → m Block) (top : OpenBlock) (outer : List OpenBlock) :
    m (Block ⊕ List OpenBlock) :=
  match top.nodes[top.index]? with
  | none => do
    let block ← replace top.out
    match outer with
    | [] => return .inl block
    | around :: outer => return .inr (around.push (.loop block) :: outer)
  | some (.loop body) => return .inr (.start body :: top :: outer)
  | some node => return .inr (top.push node :: outer)

/-- The program that replacing blocks comes to if it ends within a number of turns. -/
def replaceWithin (replace : Block → m Block) : Nat → List OpenBlock → m (Option Block)
  | _, [] => return some []
  | 0, _ :: _ => return none
  | turns + 1, top :: outer => do
    match ← replaceTurn replace top outer with
    | .inl program => return some program
    | .inr blocks => replaceWithin replace turns blocks

/-- The turns left while blocks are open, innermost first. The loop at the index of a block that is
set aside has taken its own turn. -/
def openTurns : List OpenBlock → Nat
  | [] => 0
  | top :: outer => turnsLeft (top.rest :: outer.map fun block => block.next.rest)

/-- What open blocks come to. -/
def close (replace : Block → m Block) : List OpenBlock → m Block
  | [] => return []
  | top :: outer =>
    mapBlocksFrom replace top.rest top.out.reverse (outer.map OpenBlock.setAside)

theorem replaceTurn_of_end (replace : Block → m Block) {top : OpenBlock}
    (none : top.nodes[top.index]? = none) (outer : List OpenBlock) :
    replaceTurn replace top outer = (do
      let block ← replace top.out
      match outer with
      | [] => return .inl block
      | around :: outer => return .inr (around.push (.loop block) :: outer)) := by
  rw [replaceTurn, none]

theorem replaceTurn_of_loop (replace : Block → m Block) {top : OpenBlock} {body : Block}
    (found : top.nodes[top.index]? = some (.loop body)) (outer : List OpenBlock) :
    replaceTurn replace top outer = pure (.inr (.start body :: top :: outer)) := by
  rw [replaceTurn, found]

theorem replaceTurn_of_not_loop (replace : Block → m Block) {top : OpenBlock} {node : Node}
    (found : top.nodes[top.index]? = some node) (notLoop : ∀ body, node ≠ .loop body)
    (outer : List OpenBlock) :
    replaceTurn replace top outer = pure (.inr (top.push node :: outer)) := by
  rw [replaceTurn, found]
  cases node with
  | loop body => exact absurd rfl (notLoop body)
  | _ => rfl

variable [LawfulMonad m]

/-- Open blocks come to what they come to after a turn. -/
theorem close_step (replace : Block → m Block) (top : OpenBlock) (outer : List OpenBlock) :
    close replace (top :: outer) =
      replaceTurn replace top outer >>= Sum.elim pure (close replace) := by
  rw [close]
  cases found : top.nodes[top.index]? with
  | none =>
    rw [Cursor.rest_of_end found, mapBlocksFrom, replaceTurn_of_end replace found,
      List.reverse_reverse]
    cases outer with
    | nil => simp
    | cons around outer =>
      -- The new loop goes to the end of the block around it, which is the innermost from now on.
      simp [close, OpenBlock.setAside]
  | some node =>
    rw [Cursor.rest_of_node found]
    obtain ⟨body, rfl⟩ | notLoop := node.loop_or_not
    · rw [replaceTurn_of_loop replace found, pure_bind, Sum.elim_inr, close, mapBlocksFrom,
        OpenBlock.rest_start]
      rfl
    · rw [replaceTurn_of_not_loop replace found notLoop, pure_bind, Sum.elim_inr, close,
        mapBlocksFrom_of_not_loop replace notLoop, OpenBlock.rest_push,
        OpenBlock.reverse_out_push]

/-- Whatever a replacement gives, one turn less is left after a turn. -/
theorem exists_replaceTurn_eq (replace : Block → m Block) (top : OpenBlock)
    (outer : List OpenBlock) :
    ∃ (α : Type) (first : m α) (after : α → Block ⊕ List OpenBlock),
      replaceTurn replace top outer = after <$> first ∧
        ∀ value blocks, after value = .inr blocks →
          openTurns (top :: outer) = openTurns blocks + 1 := by
  cases found : top.nodes[top.index]? with
  | none =>
    cases outer with
    | nil =>
      refine ⟨Block, replace top.out, .inl, ?_, fun _ _ same => nomatch same⟩
      simp [replaceTurn_of_end replace found]
    | cons around outer =>
      -- The replacement decides on the new block, but nothing still to come depends on it.
      refine ⟨Block, replace top.out, fun block => .inr (around.push (.loop block) :: outer), ?_, ?_⟩
      · simp [replaceTurn_of_end replace found]
      · rintro block _ ⟨⟩
        simp only [openTurns, turnsLeft, List.map_cons, OpenBlock.rest_push,
          Cursor.rest_of_end found, turns_nil]
        omega
  | some node =>
    obtain ⟨body, rfl⟩ | notLoop := node.loop_or_not
    · refine ⟨Unit, pure (), fun _ => .inr (.start body :: top :: outer), ?_, ?_⟩
      · rw [replaceTurn_of_loop replace found, map_pure]
      · rintro _ _ ⟨⟩
        simp only [openTurns, turnsLeft, List.map_cons, OpenBlock.rest_start,
          Cursor.rest_of_node found, turns_loop]
        omega
    · refine ⟨Unit, pure (), fun _ => .inr (top.push node :: outer), ?_, ?_⟩
      · rw [replaceTurn_of_not_loop replace found notLoop, map_pure]
      · rintro _ _ ⟨⟩
        simp only [openTurns, turnsLeft, OpenBlock.rest_push, Cursor.rest_of_node found,
          turns_single notLoop]
        omega

/-- Replacing blocks ends once there are no turns left. -/
theorem replaceWithin_eq (replace : Block → m Block) {count : Nat} {blocks : List OpenBlock}
    (enough : openTurns blocks ≤ count) :
    replaceWithin replace count blocks = some <$> close replace blocks := by
  induction count generalizing blocks with
  | zero =>
    cases blocks with
    | nil => simp [replaceWithin, close]
    | cons top outer =>
      simp only [openTurns, turnsLeft] at enough
      omega
  | succ count ih =>
    cases blocks with
    | nil => simp [replaceWithin, close]
    | cons top outer =>
      obtain ⟨α, first, after, turn, left⟩ := exists_replaceTurn_eq replace top outer
      rw [replaceWithin, close_step, turn]
      simp only [bind_map_left, map_bind]
      refine bind_congr fun value => ?_
      cases reached : after value with
      | inl program => simp
      | inr blocks =>
        have fewer := left value blocks reached
        exact ih (by omega)

end TapeMachine.Program
