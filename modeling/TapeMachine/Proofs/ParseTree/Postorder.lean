import Mathlib.Data.List.Induction
import TapeMachine.ParseTree.Tree
import TapeMachine.Program.OfTable

/-!
# Reading listed trees

Where a table lists trees in postorder, walking over the children of a node finds the
roots of the trees below it, and folding gives each tree the value that its root gets
from the values of its children.
-/

namespace TapeMachine.ParseTree

namespace Tree

theorem size_pos (tree : Tree) : 0 < tree.size := by
  cases tree
  rw [size]
  exact Nat.succ_pos _

theorem size_rootEntry (tree : Tree) : tree.rootEntry.size = tree.size := by
  cases tree
  rfl

theorem sizes_concat (front : List Tree) (tree : Tree) :
    sizes (front ++ [tree]) = sizes front + tree.size := by
  induction front with
  | nil => simp [sizes]
  | cons first rest ih =>
    rw [List.cons_append, sizes, sizes, ih]
    omega

theorem length_le_sizes (trees : List Tree) : trees.length ≤ sizes trees := by
  induction trees with
  | nil => exact Nat.zero_le _
  | cons tree rest ih =>
    have positive := tree.size_pos
    rw [List.length_cons, sizes]
    omega

theorem postorders_append (front back : List Tree) :
    postorders (front ++ back) = postorders front ++ postorders back := by
  induction front with
  | nil => rfl
  | cons tree rest ih => rw [List.cons_append, postorders, postorders, ih, List.append_assoc]

mutual

theorem length_postorder : ∀ tree : Tree, tree.postorder.length = tree.size
  | .node kind token children => by
    rw [postorder, List.length_append, length_postorders children, size]
    rfl

theorem length_postorders : ∀ trees : List Tree, (postorders trees).length = sizes trees
  | [] => rfl
  | tree :: rest => by
    rw [postorders, List.length_append, length_postorder tree, length_postorders rest, sizes]

end

end Tree

open ParseTree.Tree

/-! ## Pieces of a table -/

namespace Table

variable {table : Table}

theorem get_natCast {id : Nat} {entry : Entry} :
    table.get id = .ok entry ↔ table.toList[id]? = some entry := by
  have same : table.entries[id]? = table.toList[id]? := by
    rw [← Array.getElem?_toList]
    rfl
  show table.get (Int.ofNat id) = _ ↔ _
  rw [← same, Table.get]
  cases table.entries[id]? <;> simp

/-- The table has these entries in a row, the first of them with the given number. -/
def HasAt (table : Table) (start : Nat) (entries : List Entry) : Prop :=
  ∃ before behind, table.toList = before ++ entries ++ behind ∧ before.length = start

theorem HasAt.left {start : Nat} {front back : List Entry}
    (has : table.HasAt start (front ++ back)) : table.HasAt start front := by
  obtain ⟨before, behind, whole, place⟩ := has
  exact ⟨before, back ++ behind, by rw [whole]; simp, place⟩

theorem HasAt.right {start : Nat} {front back : List Entry}
    (has : table.HasAt start (front ++ back)) : table.HasAt (start + front.length) back := by
  obtain ⟨before, behind, whole, place⟩ := has
  exact ⟨before ++ front, behind, by rw [whole]; simp, by rw [List.length_append, place]⟩

theorem HasAt.get {start : Nat} {entry : Entry} {more : List Entry}
    (has : table.HasAt start (entry :: more)) : table.get start = .ok entry := by
  obtain ⟨before, behind, whole, place⟩ := has
  rw [get_natCast, whole, ← place]
  simp

theorem HasAt.length_le {start : Nat} {entries : List Entry} (has : table.HasAt start entries) :
    start + entries.length ≤ table.count := by
  obtain ⟨before, behind, whole, place⟩ := has
  have total : table.count = (before ++ entries ++ behind).length := by
    rw [← whole]
    rfl
  rw [total, List.length_append, List.length_append, place]
  omega

/-- The root stands at the end of its tree. -/
theorem HasAt.get_root {start : Nat} {tree : Tree} (has : table.HasAt start tree.postorder) :
    table.get ((start : Int) + tree.size - 1) = .ok tree.rootEntry := by
  obtain ⟨kind, token, children⟩ := tree
  rw [postorder] at has
  have place : (start : Int) + (Tree.node kind token children).size - 1 =
      ((start + (postorders children).length : Nat) : Int) := by
    rw [length_postorders, size]
    omega
  rw [place]
  exact has.right.get

/-! ## Children -/

/-- The roots of trees that are listed from a place on, with their numbers. -/
def roots (start : Int) : List Tree → List (Int × Entry)
  | [] => []
  | tree :: rest => (start + tree.size - 1, tree.rootEntry) :: roots (start + tree.size) rest

theorem roots_append (start : Int) (front back : List Tree) :
    roots start (front ++ back) = roots start front ++ roots (start + sizes front) back := by
  induction front generalizing start with
  | nil => simp [roots, sizes]
  | cons tree rest ih =>
    rw [List.cons_append, roots, roots, ih, sizes, List.cons_append, Int.natCast_add, Int.add_assoc]

/-- Walking back over listed trees finds their roots. -/
theorem childrenFrom_of_hasAt (id : Int) {start : Nat} (trees : List Tree)
    (has : table.HasAt start (postorders trees)) {steps : Nat} (enough : trees.length < steps)
    (found : List (Int × Entry)) :
    table.childrenFrom id start steps ((start : Int) + sizes trees - 1) found =
      .ok (roots start trees ++ found) := by
  -- The walk is from the last tree to the first.
  induction trees using List.reverseRecOn generalizing steps found with
  | nil =>
    obtain _ | steps := steps
    · exact absurd enough (Nat.not_lt_zero _)
    · rw [childrenFrom, if_pos (by rw [sizes]; omega)]
      rfl
  | append_singleton front tree ih =>
    obtain _ | steps := steps
    · exact absurd enough (Nat.not_lt_zero _)
    have positive := tree.size_pos
    have total := sizes_concat front tree
    rw [postorders_append, postorders, postorders, List.append_nil] at has
    have root := has.right.get_root
    rw [length_postorders] at root
    have place : (start : Int) + sizes (front ++ [tree]) - 1 =
        ((start + sizes front : Nat) : Int) + tree.size - 1 := by omega
    have before : (start : Int) + sizes (front ++ [tree]) - 1 - tree.rootEntry.size =
        (start : Int) + sizes front - 1 := by
      rw [size_rootEntry]
      omega
    rw [List.length_append, List.length_singleton] at enough
    rw [childrenFrom, if_neg (by omega), place, root, ← place]
    show table.childrenFrom id start steps _ _ = _
    rw [before, ih has.left (by omega), roots_append, place]
    simp [roots]

theorem children_of_hasAt {start : Nat} {kind : Kind} {token : Int} {trees : List Tree}
    (has : table.HasAt start (Tree.node kind token trees).postorder) :
    table.children ((start : Int) + (Tree.node kind token trees).size - 1) =
      .ok (roots start trees) := by
  have root := has.get_root
  have fits := has.length_le
  rw [length_postorder] at fits
  rw [postorder] at has
  have few := length_le_sizes trees
  have whole : (Tree.node kind token trees).size = sizes trees + 1 := by rw [size]
  have enough : trees.length < table.count + 2 := by omega
  have walked := childrenFrom_of_hasAt ((start : Int) + (Tree.node kind token trees).size - 1)
    trees has.left enough []
  rw [children, root]
  show table.childrenFrom _ _ _ _ _ = _
  rw [size_rootEntry, ← List.append_nil (roots start trees), ← walked, whole]
  congr 1 <;> omega

/-! ## Folding -/

section Folding

variable {α : Type} {combine : Entry → List α → Except StructureError α}

/-- The values of trees, each made at the root from the values of the children. -/
inductive Folded (combine : Entry → List α → Except StructureError α) :
    List Tree → List α → Prop
  | nil : Folded combine [] []
  | cons {kind : Kind} {token : Int} {children rest : List Tree} {values others : List α}
      {value : α} : Folded combine children values →
        combine (Tree.node kind token children).rootEntry values = .ok value →
          Folded combine rest others →
            Folded combine (.node kind token children :: rest) (value :: others)

theorem Folded.length_eq {trees : List Tree} {values : List α}
    (folded : Folded combine trees values) : values.length = trees.length := by
  induction folded with
  | nil => rfl
  | cons _ _ _ _ ih => rw [List.length_cons, List.length_cons, ih]

/-- Values that are still to become part of a larger tree, last first, with the number
of entries that each covers. -/
def stacked (trees : List Tree) (values : List α) : List (α × Int) :=
  (values.zip (trees.map fun tree => (tree.size : Int))).reverse

theorem stacked_cons (tree : Tree) (rest : List Tree) (value : α) (others : List α) :
    stacked (tree :: rest) (value :: others) =
      stacked rest others ++ [(value, (tree.size : Int))] := by
  simp [stacked]

theorem stacked_concat {front : List Tree} {start : List α} (same : start.length = front.length)
    (tree : Tree) (value : α) :
    stacked (front ++ [tree]) (start ++ [value]) =
      (value, (tree.size : Int)) :: stacked front start := by
  rw [stacked, List.map_append, List.zip_append (by rw [List.length_map, same]),
    List.reverse_append]
  rfl

/-- The values of trees are taken back from the stack by what the trees cover. -/
theorem gather_stacked {trees : List Tree} {values : List α}
    (same : values.length = trees.length) (done : List (α × Int)) (found : List α) :
    gather (stacked trees values ++ done) (sizes trees) found = some (values ++ found, done) := by
  induction trees using List.reverseRecOn generalizing values found with
  | nil =>
    rw [List.length_eq_zero_iff.1 same]
    cases done <;> simp [stacked, gather, sizes]
  | append_singleton front tree ih =>
    rcases List.eq_nil_or_concat values with rfl | ⟨start, value, rfl⟩
    · simp at same
    · have same' : start.length = front.length := by simpa using same
      have positive := tree.size_pos
      have total := sizes_concat front tree
      have owed : ¬ (sizes (front ++ [tree]) : Int) ≤ 0 := by omega
      have left : (sizes (front ++ [tree]) : Int) - tree.size = sizes front := by omega
      rw [List.concat_eq_append, stacked_concat same', List.cons_append, gather, if_neg owed,
        left, ih same']
      simp

theorem sweep_succ {left : Nat} {cursor : Int} {done before : List (α × Int)} {entry : Entry}
    {values : List α} {value : α} (found : table.get cursor = .ok entry)
    (gathered : gather done (entry.size - 1) [] = some (values, before))
    (combined : combine entry values = .ok value) :
    table.sweep combine (left + 1) cursor done =
      table.sweep combine left (cursor + 1) ((value, entry.size) :: before) := by
  simp only [sweep, found, gathered, combined, bind, Except.bind]

/-- Sweeping over listed trees stacks their values. -/
theorem sweep_of_hasAt {trees : List Tree} {values : List α}
    (folded : Folded combine trees values) {start : Nat}
    (has : table.HasAt start (postorders trees)) (more : Nat) (done : List (α × Int)) :
    table.sweep combine (sizes trees + more) start done =
      table.sweep combine more ((start + sizes trees : Nat) : Int)
        (stacked trees values ++ done) := by
  induction folded generalizing start more done with
  | nil => simp [sizes, stacked]
  | @cons kind token children rest values others value inner combined _ ihInner ihRest =>
    rw [postorders, postorder, List.append_assoc] at has
    have root := has.right.get
    have later := has.right.right
    rw [length_postorders] at root later
    rw [List.length_singleton] at later
    have whole : sizes (.node kind token children :: rest) = sizes children + 1 + sizes rest := by
      rw [sizes, size]
    have split : sizes (.node kind token children :: rest) + more =
        sizes children + (sizes rest + more + 1) := by omega
    have owed : (Tree.node kind token children).rootEntry.size - 1 = sizes children := by
      rw [size_rootEntry, size]
      omega
    have gathered : gather (stacked children values ++ done)
        ((Tree.node kind token children).rootEntry.size - 1) [] = some (values, done) := by
      rw [owed]
      rw [gather_stacked inner.length_eq, List.append_nil]
    -- First the children, then the node itself, then the trees after it.
    rw [split, ihInner has.left, sweep_succ root gathered combined, ← Int.natCast_succ,
      ihRest later, stacked_cons, size_rootEntry, whole]
    simp [Nat.add_assoc]

theorem foldM_of_hasAt {start : Nat} {tree : Tree} {value : α}
    (has : table.HasAt start tree.postorder) (folded : Folded combine [tree] [value]) :
    table.foldM combine ((start : Int) + tree.size - 1) = .ok value := by
  have single : postorders [tree] = tree.postorder := by simp [postorders]
  have total : sizes [tree] = tree.size := by simp [sizes]
  have swept := sweep_of_hasAt folded (single ▸ has) 0 []
  rw [total, Nat.add_zero] at swept
  have first : (start : Int) + tree.size - 1 - tree.size + 1 = start := by omega
  simp only [foldM, has.get_root, size_rootEntry, Int.toNat_natCast, first, swept, bind,
    Except.bind, sweep, stacked]
  simp

/-- Folding the listed trees one by one gives their values. -/
theorem mapM_foldM_of_hasAt {trees : List Tree} {values : List α}
    (folded : Folded combine trees values) {start : Nat}
    (has : table.HasAt start (postorders trees)) :
    (roots start trees).mapM (fun child => table.foldM combine child.1) = .ok values := by
  induction folded generalizing start with
  | nil => rfl
  | @cons kind token children rest values others value inner combined _ _ ih =>
    rw [postorders] at has
    have first := foldM_of_hasAt has.left (.cons inner combined .nil)
    have later := has.right
    rw [length_postorder] at later
    rw [roots, List.mapM_cons, first, ← Int.natCast_add, ih later]
    rfl

end Folding

end Table

end TapeMachine.ParseTree
