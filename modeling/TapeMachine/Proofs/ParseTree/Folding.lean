import Mathlib.Algebra.Ring.Int.Defs
import TapeMachine.Proofs.ParseTree.Postorder

/-!
# Tables that can be folded

A sweep takes values from its stack until they cover the entries that a node declares, and
does not ask whether they cover more of them, or whether a number of entries is below one.
Still it accepts exactly the entries that list a tree (`foldsListed`). No value declares more
entries than it was made from (`Piece.declared_le`), so where the root declares the true
number all that was taken on the way did (`Pieces.sum_le`).
-/

namespace TapeMachine.ParseTree

open ParseTree.Tree

namespace Table

variable {table : Table} {α : Type}

/-- The entries that a node declares exist and are the postorder listing of a tree with the
node at its root. In a listing every entry declares the number of nodes of its own tree. -/
structure Lists (table : Table) (id : Int) (tree : Tree) : Prop where
  root : table.get id = .ok tree.rootEntry
  entries : ∃ first : Nat, (first : Int) = id - tree.rootEntry.size + 1 ∧
    table.HasAt first tree.postorder

theorem HasAt.lists {start : Nat} {tree : Tree} (has : table.HasAt start tree.postorder) :
    table.Lists ((start : Int) + tree.size - 1) tree := by
  refine ⟨has.get_root, start, ?_, has⟩
  rw [size_rootEntry]
  omega

theorem Lists.exists_hasAt {id : Int} {tree : Tree} (lists : table.Lists id tree) :
    ∃ start : Nat, table.HasAt start tree.postorder ∧ id = (start : Int) + tree.size - 1 := by
  obtain ⟨start, place, has⟩ := lists.entries
  refine ⟨start, has, ?_⟩
  rw [size_rootEntry] at place
  omega

/-! ## Finding entries -/

theorem exists_natCast_of_get {id : Int} {entry : Entry} (found : table.get id = .ok entry) :
    ∃ place : Nat, id = place ∧ place < table.count := by
  cases id with
  | negSucc _ => cases found
  | ofNat place =>
    refine ⟨place, rfl, ?_⟩
    obtain ⟨inside, _⟩ := List.getElem?_eq_some_iff.1 (get_natCast.1 found)
    exact inside

theorem eq_of_get_error {id : Int} {fault : StructureError} (failed : table.get id = .error fault) :
    fault = .invalidNode id := by
  unfold Table.get at failed
  split at failed
  · split at failed
    · cases failed
    · cases failed
      rfl
  · cases failed
    rfl

theorem hasAt_nil {start : Nat} (inside : start ≤ table.count) : table.HasAt start [] := by
  refine ⟨table.toList.take start, table.toList.drop start, ?_, ?_⟩
  · simp
  · have total : table.toList.length = table.count := rfl
    rw [List.length_take]
    omega

theorem HasAt.concat {start : Nat} {entries : List Entry} {entry : Entry}
    (has : table.HasAt start entries)
    (found : table.get ((start + entries.length : Nat) : Int) = .ok entry) :
    table.HasAt start (entries ++ [entry]) := by
  obtain ⟨before, behind, whole, place⟩ := has
  have next : table.toList[(before ++ entries).length]? = some entry := by
    rw [List.length_append, place]
    exact get_natCast.1 found
  rw [whole] at next
  cases behind with
  | nil => simp at next
  | cons first behind =>
    have same : first = entry := by simpa using next
    subst same
    exact ⟨before, behind, by rw [whole]; simp, place⟩

/-! ## Pieces on the stack -/

/-- The entries that a value was made from, and the number of entries that it declares. -/
structure Piece (entries : List Entry) (declared : Int) : Prop where
  last : ∃ front entry, entries = front ++ [entry] ∧ entry.size = declared
  declared_le : declared ≤ entries.length
  tree : declared = entries.length → ∃ tree : Tree, entries = tree.postorder

/-- The entries swept over, cut into those that each value on the stack was made from. The
stack is given by what its values declare, last first. -/
inductive Pieces : List Entry → List Int → Prop
  | nil : Pieces [] []
  | cons {entries last : List Entry} {declared : Int} {others : List Int} :
      Pieces entries others → Piece last declared → Pieces (entries ++ last) (declared :: others)

/-- Pieces declare no more entries than there are. If they declare all of them they list
trees. -/
theorem Pieces.sum_le {entries : List Entry} {declared : List Int}
    (pieces : Pieces entries declared) :
    declared.sum ≤ entries.length ∧
      (declared.sum = entries.length → ∃ trees, entries = postorders trees) := by
  induction pieces with
  | nil => exact ⟨by simp, fun _ => ⟨[], rfl⟩⟩
  | cons _ piece ih =>
    obtain ⟨less, listed⟩ := ih
    have fits := piece.declared_le
    simp only [List.sum_cons, List.length_append, Int.natCast_add]
    refine ⟨by omega, ?_⟩
    intro total
    -- Neither part can make up for the other, so both declare all they have.
    obtain ⟨trees, rfl⟩ := listed (by omega)
    obtain ⟨tree, rfl⟩ := piece.tree (by omega)
    refine ⟨trees ++ [tree], ?_⟩
    simp [postorders_append, postorders]

theorem Pieces.split {entries : List Entry} {taken others : List Int}
    (pieces : Pieces entries (taken ++ others)) :
    ∃ front back, entries = front ++ back ∧ Pieces front others ∧ Pieces back taken := by
  induction taken generalizing entries with
  | nil => exact ⟨entries, [], by simp, pieces, .nil⟩
  | cons declared taken ih =>
    cases pieces with
    | @cons _ last _ _ inner piece =>
      obtain ⟨front, back, rfl, outer, taken⟩ := ih inner
      exact ⟨front, back ++ last, by simp, outer, .cons taken piece⟩

theorem Pieces.single {entries : List Entry} {declared : Int}
    (pieces : Pieces entries [declared]) : Piece entries declared := by
  cases pieces with
  | cons none piece =>
    cases none
    exact piece

/-! ## What a sweep accepts -/

/-- What is taken from the stack covers what is owed. -/
theorem exists_taken_of_gather {done before : List (α × Int)} {owed : Int} {found values : List α}
    (gathered : gather done owed found = some (values, before)) :
    ∃ taken : List (α × Int), done = taken ++ before ∧ owed ≤ (taken.map Prod.snd).sum := by
  induction done generalizing owed found with
  | nil =>
    unfold gather at gathered
    split at gathered
    · next enough =>
      cases gathered
      exact ⟨[], rfl, enough⟩
    · cases gathered
  | cons top rest ih =>
    obtain ⟨value, size⟩ := top
    unfold gather at gathered
    split at gathered
    · next enough =>
      cases gathered
      exact ⟨[], rfl, enough⟩
    · obtain ⟨taken, rfl, covers⟩ := ih gathered
      refine ⟨(value, size) :: taken, rfl, ?_⟩
      rw [List.map_cons, List.sum_cons]
      omega

/-- An entry makes one piece of itself and of those that it takes. -/
theorem Pieces.add {entries : List Entry} {done before : List (α × Int)} {entry : Entry}
    {values : List α} (pieces : Pieces entries (done.map Prod.snd))
    (gathered : gather done (entry.size - 1) [] = some (values, before)) (value : α) :
    Pieces (entries ++ [entry]) (((value, entry.size) :: before).map Prod.snd) := by
  obtain ⟨taken, rfl, covers⟩ := exists_taken_of_gather gathered
  rw [List.map_append] at pieces
  obtain ⟨front, back, rfl, outer, inner⟩ := pieces.split
  obtain ⟨less, listed⟩ := inner.sum_le
  have length : ((back ++ [entry]).length : Int) = back.length + 1 := by simp
  rw [List.append_assoc]
  refine .cons outer ⟨⟨back, entry, rfl, rfl⟩, by omega, ?_⟩
  intro all
  obtain ⟨trees, rfl⟩ := listed (by omega)
  refine ⟨.node entry.kind entry.token trees, ?_⟩
  have declared : entry.size = (Tree.node entry.kind entry.token trees).size := by
    rw [length_postorders] at length
    rw [Tree.size]
    omega
  rw [postorder, rootEntry, ← declared]

section Sweeping

variable {combine : Entry → List α → Except StructureError α}

theorem of_sweep_succ {left : Nat} {cursor : Int} {done final : List (α × Int)}
    (swept : table.sweep combine (left + 1) cursor done = .ok final) :
    ∃ entry values before value, table.get cursor = .ok entry ∧
      gather done (entry.size - 1) [] = some (values, before) ∧
        table.sweep combine left (cursor + 1) ((value, entry.size) :: before) = .ok final := by
  cases found : table.get cursor with
  | error fault => simp [sweep, found, bind, Except.bind] at swept
  | ok entry =>
    cases gathered : gather done (entry.size - 1) [] with
    | none => simp [sweep, found, gathered, bind, Except.bind] at swept
    | some taken =>
      obtain ⟨values, before⟩ := taken
      cases combined : combine entry values with
      | error fault => simp [sweep, found, gathered, combined, bind, Except.bind] at swept
      | ok value =>
        rw [sweep_succ found gathered combined] at swept
        exact ⟨entry, values, before, value, rfl, gathered, swept⟩

/-- A sweep leaves the entries that it went over in pieces. -/
theorem pieces_of_sweep {left start : Nat} {entries : List Entry} {done final : List (α × Int)}
    (has : table.HasAt start entries) (pieces : Pieces entries (done.map Prod.snd))
    (swept : table.sweep combine left ((start + entries.length : Nat) : Int) done = .ok final) :
    ∃ more, more.length = left ∧ table.HasAt start (entries ++ more) ∧
      Pieces (entries ++ more) (final.map Prod.snd) := by
  induction left generalizing entries done with
  | zero =>
    cases swept
    exact ⟨[], rfl, by simpa using has, by simpa using pieces⟩
  | succ left ih =>
    obtain ⟨entry, values, before, value, found, gathered, later⟩ := of_sweep_succ swept
    have next : ((start + entries.length : Nat) : Int) + 1 =
        ((start + (entries ++ [entry]).length : Nat) : Int) := by simp; omega
    rw [next] at later
    obtain ⟨more, length, has', pieces'⟩ := ih (has.concat found) (pieces.add gathered value) later
    refine ⟨entry :: more, by simp [length], ?_, ?_⟩
    · simpa using has'
    · simpa using pieces'

theorem exists_sweep_of_foldM {id : Int} {value : α} (folded : table.foldM combine id = .ok value) :
    ∃ root size, table.get id = .ok root ∧
      table.sweep combine root.size.toNat (id - root.size + 1) [] = .ok [(value, size)] := by
  cases found : table.get id with
  | error fault => simp [foldM, found, bind, Except.bind] at folded
  | ok root =>
    cases swept : table.sweep combine root.size.toNat (id - root.size + 1) [] with
    | error fault => simp [foldM, found, swept, bind, Except.bind] at folded
    | ok done =>
      simp only [foldM, found, swept, bind, Except.bind] at folded
      split at folded
      · cases folded
        exact ⟨root, _, rfl, swept⟩
      · cases folded

/-- What folds lists a tree, however the values are combined. -/
theorem exists_lists_of_foldM {id : Int} {value : α} (folded : table.foldM combine id = .ok value) :
    ∃ tree, table.Lists id tree := by
  obtain ⟨root, size, found, swept⟩ := exists_sweep_of_foldM folded
  obtain ⟨left, declared⟩ : ∃ left : Nat, root.size = left + 1 := by
    -- Without entries to sweep over the stack would be empty.
    cases count : root.size.toNat with
    | zero =>
      rw [count] at swept
      cases swept
    | succ left => exact ⟨left, by omega⟩
  have count : root.size.toNat = left + 1 := by omega
  rw [count] at swept
  obtain ⟨first, _, _, _, exists_first, _⟩ := of_sweep_succ swept
  obtain ⟨start, place, inside⟩ := exists_natCast_of_get exists_first
  rw [place] at swept
  have none : Pieces [] (([] : List (α × Int)).map Prod.snd) := .nil
  obtain ⟨entries, length, has, pieces⟩ :=
    pieces_of_sweep (hasAt_nil (Nat.le_of_lt inside)) none swept
  rw [List.nil_append] at has pieces
  have piece := pieces.single
  obtain ⟨front, entry, split, sized⟩ := piece.last
  have behind : front.length = left := by
    rw [split] at length
    simpa using length
  have atRoot : id = ((start + front.length : Nat) : Int) := by omega
  -- The last entry of the piece is the root, so the piece declares all of its entries.
  have isRoot : root = entry := by
    rw [split] at has
    have last := has.right.get
    rw [← atRoot, found] at last
    exact Except.ok.inj last
  obtain ⟨tree, rfl⟩ := piece.tree (by rw [← sized, ← isRoot, length, declared]; simp)
  rw [length_postorder] at length
  have listed := has.lists
  have whole : (start : Int) + tree.size - 1 = id := by omega
  rw [whole] at listed
  exact ⟨tree, listed⟩

end Sweeping

/-! ## Folding what is listed -/

section Folding

variable (combine : Entry → List α → α)

/-- The values of trees are made at the root from those of the children. -/
theorem folded_folds : ∀ trees : List Tree,
    Folded (fun entry values => .ok (combine entry values)) trees (folds combine trees)
  | [] => .nil
  | .node kind token children :: rest => by
    rw [folds, Tree.fold]
    exact .cons (folded_folds children) rfl (folded_folds rest)

theorem fold_of_lists {id : Int} {tree : Tree} (lists : table.Lists id tree) :
    table.fold combine id = .ok (tree.fold combine) := by
  obtain ⟨start, has, rfl⟩ := lists.exists_hasAt
  exact foldM_of_hasAt has (folded_folds combine [tree])

/-- Folding the children one by one gives the values that their parent's is made from. -/
theorem mapM_fold_of_lists {id : Int} {kind : Kind} {token : Int} {trees : List Tree}
    (lists : table.Lists id (.node kind token trees)) :
    ∃ children, table.children id = .ok children ∧
      children.mapM (fun child => table.fold combine child.1) = .ok (folds combine trees) := by
  obtain ⟨start, has, rfl⟩ := lists.exists_hasAt
  refine ⟨roots start trees, children_of_hasAt has, ?_⟩
  rw [postorder] at has
  exact mapM_foldM_of_hasAt (folded_folds combine trees) has.left

/-- Only nodes that do not exist and values that are missing stop a sweep. -/
theorem of_sweep_error {left : Nat} {cursor : Int} {done : List (α × Int)} {fault : StructureError}
    (failed : table.sweep (fun entry values => .ok (combine entry values)) left cursor done =
      .error fault) :
    ∃ number, fault = .invalidNode number ∨ fault = .malformedSubtree number := by
  induction left generalizing cursor done with
  | zero => cases failed
  | succ left ih =>
    cases found : table.get cursor with
    | error other =>
      obtain rfl := eq_of_get_error found
      simp only [sweep, found, bind, Except.bind] at failed
      cases failed
      exact ⟨cursor, .inl rfl⟩
    | ok entry =>
      cases gathered : gather done (entry.size - 1) [] with
      | none =>
        simp only [sweep, found, gathered, bind, Except.bind] at failed
        cases failed
        exact ⟨cursor, .inr rfl⟩
      | some taken =>
        obtain ⟨values, before⟩ := taken
        rw [sweep_succ found gathered rfl] at failed
        exact ih failed

theorem of_fold_error {id : Int} {fault : StructureError}
    (failed : table.fold combine id = .error fault) :
    ∃ number, fault = .invalidNode number ∨ fault = .malformedSubtree number := by
  unfold fold foldM at failed
  cases found : table.get id with
  | error other =>
    obtain rfl := eq_of_get_error found
    simp only [found, bind, Except.bind] at failed
    cases failed
    exact ⟨id, .inl rfl⟩
  | ok root =>
    simp only [found, bind, Except.bind] at failed
    split at failed
    · next swept =>
      cases failed
      exact of_sweep_error combine swept
    · split at failed
      · cases failed
      · cases failed
        exact ⟨id, .inr rfl⟩

/-- Folding answers exactly if the entries that the node declares list a tree. -/
theorem exists_fold_iff {id : Int} :
    (∃ value, table.fold combine id = .ok value) ↔ ∃ tree, table.Lists id tree := by
  constructor
  · rintro ⟨value, folded⟩
    exact exists_lists_of_foldM folded
  · rintro ⟨tree, lists⟩
    exact ⟨_, fold_of_lists combine lists⟩

theorem fold_of_not_lists {id : Int} (unlisted : ¬ ∃ tree, table.Lists id tree) :
    ∃ number, table.fold combine id = .error (.invalidNode number) ∨
      table.fold combine id = .error (.malformedSubtree number) := by
  cases folded : table.fold combine id with
  | ok value => exact absurd ((exists_fold_iff combine).1 ⟨value, folded⟩) unlisted
  | error fault =>
    obtain ⟨number, rfl | rfl⟩ := of_fold_error combine folded
    · exact ⟨number, .inl rfl⟩
    · exact ⟨number, .inr rfl⟩

theorem children_of_lists {id : Int} {kind : Kind} {token : Int} {trees : List Tree}
    (lists : table.Lists id (.node kind token trees)) :
    table.children id = .ok (roots (id - sizes trees) trees) := by
  obtain ⟨start, has, rfl⟩ := lists.exists_hasAt
  have first : (start : Int) + Tree.size (.node kind token trees) - 1 - sizes trees = start := by
    rw [Tree.size]
    omega
  rw [children_of_hasAt has, first]

end Folding

/-- Folding a node answers exactly if the entries that the node declares list a tree. -/
structure FoldsListed (table : Table) (id : Int) : Prop where
  accepts : ∀ {α : Type} (combine : Entry → List α → α),
    (∃ value, table.fold combine id = .ok value) ↔ ∃ tree, table.Lists id tree
  refuses : ∀ {α : Type} (combine : Entry → List α → α), (¬ ∃ tree, table.Lists id tree) →
    ∃ number, table.fold combine id = .error (.invalidNode number) ∨
      table.fold combine id = .error (.malformedSubtree number)
  /-- The answer is the value of the tree, combined from its leaves up. -/
  value : ∀ {α : Type} (combine : Entry → List α → α) (tree : Tree), table.Lists id tree →
    table.fold combine id = .ok (tree.fold combine)
  /-- The children of the node are the roots of the trees below it, in order. -/
  children : ∀ (kind : Kind) (token : Int) (trees : List Tree),
    table.Lists id (.node kind token trees) →
      table.children id = .ok (roots (id - sizes trees) trees)
  /-- The answer is made from the node and the answers for its children. -/
  combines : ∀ {α : Type} (combine : Entry → List α → α) (value : α),
    table.fold combine id = .ok value → ∃ node children values,
      table.get id = .ok node ∧ table.children id = .ok children ∧
        children.mapM (fun child => table.fold combine child.1) = .ok values ∧
          value = combine node values

theorem foldsListed (table : Table) (id : Int) : table.FoldsListed id where
  accepts combine := exists_fold_iff combine
  refuses combine unlisted := fold_of_not_lists combine unlisted
  value combine _ lists := fold_of_lists combine lists
  children _ _ _ lists := children_of_lists lists
  combines combine value folded := by
    obtain ⟨⟨kind, token, trees⟩, lists⟩ := (exists_fold_iff combine).1 ⟨value, folded⟩
    obtain ⟨children, found, values⟩ := mapM_fold_of_lists combine lists
    rw [fold_of_lists combine lists, Tree.fold] at folded
    exact ⟨_, children, _, lists.root, found, values, (Except.ok.inj folded).symm⟩

end Table

end TapeMachine.ParseTree
