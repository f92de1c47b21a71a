import TapeMachine.Proofs.Number.Numeral
import TapeMachine.Proofs.Program.EveryBlock
import TapeMachine.Proofs.Program.Walk

/-!
# What a listing says

The brackets owed by the walk are those that the recursion on the nesting of a program writes
(`linesFrom_walk`). From that recursion a program can be read back: the depth of a line is seen
from its indentation, a node from its label, and the end of a body from its bracket. So programs
that are listed alike are the same, and every bracket stands below the body it closes. Only where
the nesting is so deep that no text is long enough there is no listing (`legible_or_overlong`).
-/

namespace TapeMachine

/-- Whether all numbers of a node can be kept. -/
def Node.Representable (node : Node) : Prop :=
  ∀ n ∈ node.numbers, Precision.double.round n = n

namespace Program

variable {depth : Nat} {node : Node}

/-! ## Brackets -/

theorem lines_loop (depth : Nat) (body rest : Block) :
    lines depth (.loop body :: rest) = (depth, label (.loop body)) ::
      (lines (depth + 1) body ++ (if body = [] then [] else [closing depth]) ++
        lines depth rest) := by
  cases body with
  | nil => rfl
  | cons first others =>
    rw [if_neg (List.cons_ne_nil first others)]
    simp [lines, nodeLines]

theorem lines_of_not_loop (notLoop : ∀ body, node ≠ .loop body) (depth : Nat) (rest : Block) :
    lines depth (node :: rest) = (depth, label node) :: lines depth rest := by
  cases node with
  | loop body => exact absurd rfl (notLoop body)
  | _ => rfl

theorem hasBody_of_not_loop (notLoop : ∀ body, node ≠ .loop body) : node.hasBody = false := by
  cases node with
  | loop body => exact absurd rfl (notLoop body)
  | _ => rfl

theorem hasBody_loop (body : Block) : (Node.loop body).hasBody = !body.isEmpty := by
  cases body <;> rfl

/-- A node that is not deeper than a loop is not in the loop. -/
theorem linesFrom_due {opened : Nat} {rest : List (Nat × Node)}
    (behind : ∀ entry ∈ rest.head?, entry.1 ≤ opened) (owed : List Nat) :
    linesFrom (opened :: owed) rest = closing opened :: linesFrom owed rest := by
  cases rest with
  | nil => rfl
  | cons entry rest =>
    have due : decide (entry.1 ≤ opened) = true := decide_eq_true (behind entry rfl)
    simp only [linesFrom, List.takeWhile_cons, List.dropWhile_cons, due, if_true, List.map_cons,
      List.cons_append]

/-- A node that is deeper than every loop with an owed bracket is in all of them. -/
theorem linesFrom_inside {owed : List Nat} (inside : ∀ opened ∈ owed, opened < depth)
    (node : Node) (rest : List (Nat × Node)) :
    linesFrom owed ((depth, node) :: rest) =
      (depth, label node) :: linesFrom (if node.hasBody then depth :: owed else owed) rest := by
  have none : owed.takeWhile (fun opened => depth ≤ opened) = [] ∧
      owed.dropWhile (fun opened => depth ≤ opened) = owed := by
    cases owed with
    | nil => exact ⟨rfl, rfl⟩
    | cons opened owed =>
      have later : ¬decide (depth ≤ opened) = true := by
        rw [decide_eq_true_eq, Nat.not_le]
        exact inside opened List.mem_cons_self
      exact ⟨List.takeWhile_cons_of_neg later, List.dropWhile_cons_of_neg later⟩
  simp only [linesFrom, none, List.map_nil, List.nil_append]

theorem head?_preorder_append (block : Block) {rest : List (Nat × Node)}
    (behind : ∀ entry ∈ rest.head?, entry.1 ≤ depth) :
    ∀ entry ∈ (preorder depth block ++ rest).head?, entry.1 ≤ depth := by
  cases block with
  | nil => exact behind
  | cons node block =>
    intro entry first
    cases node with
    | _ =>
      cases first
      exact Nat.le_refl depth

/-- The walk owes exactly the brackets around the block it is in. -/
theorem linesFrom_preorder (block : Block) {owed : List Nat}
    (inside : ∀ opened ∈ owed, opened < depth) {rest : List (Nat × Node)}
    (behind : ∀ entry ∈ rest.head?, entry.1 ≤ depth) :
    linesFrom owed (preorder depth block ++ rest) = lines depth block ++ linesFrom owed rest := by
  induction block using Node.block_induction generalizing depth owed rest with
  | nil => rfl
  | single node block notLoop ih =>
    rw [preorder_of_not_loop notLoop, lines_of_not_loop notLoop, List.cons_append,
      linesFrom_inside inside, hasBody_of_not_loop notLoop]
    exact congrArg _ (ih inside behind)
  | loop body block ihBody ihBlock =>
    have next := head?_preorder_append block behind
    rw [preorder_loop, List.cons_append, List.append_assoc, linesFrom_inside inside, lines_loop,
      hasBody_loop]
    cases body with
    | nil => exact congrArg _ (ihBlock inside behind)
    | cons first others =>
      have inner : ∀ opened ∈ depth :: owed, opened < depth + 1 := by
        intro opened among
        rcases List.mem_cons.1 among with rfl | among
        · exact Nat.lt_succ_self _
        · exact Nat.lt_succ_of_lt (inside opened among)
      have outer : ∀ entry ∈ (preorder depth block ++ rest).head?, entry.1 ≤ depth + 1 :=
        fun entry head => Nat.le_succ_of_le (next entry head)
      simp only [List.isEmpty_cons, Bool.not_false, if_true, if_neg (List.cons_ne_nil first others)]
      rw [ihBody inner outer, linesFrom_due next, ihBlock inside behind]
      simp only [List.cons_append, List.append_assoc, List.nil_append]

/-- The owed brackets are those of the nesting. -/
theorem linesFrom_walk (program : Block) : linesFrom [] (walk program) = lines 0 program := by
  have inside : ∀ opened ∈ ([] : List Nat), opened < 0 := fun _ none => nomatch none
  have behind : ∀ entry ∈ ([] : List (Nat × Node)).head?, entry.1 ≤ 0 := fun _ none => nomatch none
  have whole := linesFrom_preorder program inside behind
  rw [List.append_nil] at whole
  rw [walk_eq_preorder, whole]
  exact List.append_nil _

/-- There is a line for every node, and one more for a loop around other nodes. -/
theorem length_lines (depth : Nat) (program : Block) :
    (lines depth program).length = size program + (nodes program).countP Node.hasBody := by
  induction program using Node.block_induction generalizing depth with
  | nil => simp [lines]
  | single node rest notLoop ih =>
    rw [lines_of_not_loop notLoop, size_single notLoop, nodes_single notLoop, List.length_cons,
      ih, List.countP_cons, hasBody_of_not_loop notLoop]
    simp only [Bool.false_eq_true, if_false]
    omega
  | loop body rest ihBody ihRest =>
    rw [lines_loop, size_loop, nodes_loop, List.countP_cons, List.countP_append, hasBody_loop]
    simp only [List.length_cons, List.length_append, ihBody, ihRest]
    cases body with
    | nil =>
      simp only [if_true, List.length_nil, List.isEmpty_nil, Bool.not_true, Bool.false_eq_true,
        if_false]
      omega
    | cons first others =>
      simp only [if_neg (List.cons_ne_nil first others), List.length_singleton, List.isEmpty_cons,
        Bool.not_false, if_true]
      omega

/-! ## Labels -/

/-- Numbers in a row are told apart by the commas between them. -/
theorem intercalate_inj {texts texts' : List (List Char)} (some : texts ≠ []) (some' : texts' ≠ [])
    (numerals : ∀ text ∈ texts, ∀ c ∈ text, Decimal.isNumeral c = true)
    (numerals' : ∀ text ∈ texts', ∀ c ∈ text, Decimal.isNumeral c = true)
    (same : [',', ' '].intercalate texts = [',', ' '].intercalate texts') : texts = texts' := by
  have blankless : ∀ {texts : List (List Char)},
      (∀ text ∈ texts, ∀ c ∈ text, Decimal.isNumeral c = true) →
      ([',', ' '].intercalate texts).filter (· ≠ ' ') = [','].intercalate texts := by
    intro texts numerals
    have kept : ∀ text ∈ texts, text.filter (· ≠ ' ') = text := by
      intro text among
      refine List.filter_eq_self.2 fun c within => decide_eq_true ?_
      rintro rfl
      exact absurd (numerals text among ' ' within) (by decide)
    induction texts with
    | nil => rfl
    | cons text texts ih =>
      have rest := ih (fun text among => numerals text (List.mem_cons_of_mem _ among))
        fun text among => kept text (List.mem_cons_of_mem _ among)
      cases texts with
      | nil =>
        rw [List.intercalate_singleton, List.intercalate_singleton]
        exact kept text List.mem_cons_self
      | cons second texts =>
        rw [List.intercalate_cons_cons, List.intercalate_cons_cons, List.filter_append,
          List.filter_append, rest, kept text List.mem_cons_self]
        rfl
  have commaless : ∀ {texts : List (List Char)},
      (∀ text ∈ texts, ∀ c ∈ text, Decimal.isNumeral c = true) → ∀ text ∈ texts, ',' ∉ text :=
    fun numerals text among within => absurd (numerals text among ',' within) (by decide)
  have commas : [','].intercalate texts = [','].intercalate texts' := by
    rw [← blankless numerals, same, blankless numerals']
  rw [← List.splitOn_intercalate ',' (commaless numerals) some, commas,
    List.splitOn_intercalate ',' (commaless numerals') some']

/-- The characters of a label that is not a loop's. -/
theorem toList_label (notLoop : ∀ body, node ≠ .loop body) : (label node).toList =
    node.kind.name.toList ++ '(' ::
      ([',', ' '].intercalate (node.numbers.map fun n => (Position.render n).toList) ++ [')']) := by
  have written : label node = node.kind.name ++ "(" ++
      ", ".intercalate (node.numbers.map Position.render) ++ ")" := by
    cases node with
    | loop body => exact absurd rfl (notLoop body)
    | _ => rfl
  rw [written]
  simp only [String.toList_append, String.toList_intercalate, List.map_map, List.append_assoc]
  rfl

/-- The name of a kind is a word. -/
theorem letters_name (kind : Node.Kind) :
    kind.name.toList ≠ [] ∧ ∀ c ∈ kind.name.toList, c.isAlpha = true := by
  simp only [← List.all_eq_true]
  cases kind <;> decide

/-- The label of a node starts with a letter. -/
theorem exists_label_eq_cons (node : Node) :
    ∃ c rest, (label node).toList = c :: rest ∧ c.isAlpha = true := by
  obtain ⟨body, rfl⟩ | notLoop := node.loop_or_not
  · cases body with
    | nil => exact ⟨'L', "oop []".toList, by decide, by decide⟩
    | cons first others => exact ⟨'L', "oop [".toList, (by decide : "Loop [".toList = _), by decide⟩
  · obtain ⟨some, letters⟩ := letters_name node.kind
    obtain ⟨c, rest, shape⟩ := List.exists_cons_of_ne_nil some
    rw [toList_label notLoop, shape]
    exact ⟨c, _, rfl, letters c (shape ▸ List.mem_cons_self)⟩

theorem mem_intercalate {c : Char} {separator : List Char} {texts : List (List Char)}
    (among : c ∈ separator.intercalate texts) : c ∈ separator ∨ ∃ text ∈ texts, c ∈ text := by
  induction texts with
  | nil => cases among
  | cons text texts ih =>
    cases texts with
    | nil =>
      rw [List.intercalate_singleton] at among
      exact .inr ⟨text, List.mem_cons_self, among⟩
    | cons second texts =>
      rw [List.intercalate_cons_cons, List.mem_append, List.mem_append] at among
      rcases among with (within | within) | within
      · exact .inr ⟨text, List.mem_cons_self, within⟩
      · exact .inl within
      · refine (ih within).imp_right ?_
        rintro ⟨text, among, within⟩
        exact ⟨text, List.mem_cons_of_mem _ among, within⟩

/-- The label of a node takes one line. -/
theorem newline_not_mem_label (node : Node) : '\n' ∉ (label node).toList := by
  obtain ⟨body, rfl⟩ | notLoop := node.loop_or_not
  · cases body with
    | nil => exact (by decide : '\n' ∉ "Loop []".toList)
    | cons first others => exact (by decide : '\n' ∉ "Loop [".toList)
  · rw [toList_label notLoop, List.mem_append, List.mem_cons, List.mem_append]
    rintro (name | opening | numbers | closing)
    · exact absurd ((letters_name node.kind).2 _ name) (by decide)
    · exact absurd opening (by decide)
    · rcases mem_intercalate numbers with comma | ⟨text, among, within⟩
      · exact absurd comma (by decide)
      · obtain ⟨n, -, rfl⟩ := List.mem_map.1 among
        exact absurd (Position.isNumeral_render within) (by decide)
    · exact absurd closing (by decide)

/-- A node that is not a loop is known from its kind and its numbers. -/
theorem eq_of_numbers_eq {other : Node} (notLoop : ∀ body, node ≠ .loop body)
    (kind : node.kind = other.kind) (numbers : node.numbers = other.numbers) : node = other := by
  cases node with
  | loop body => exact absurd rfl (notLoop body)
  | _ =>
    cases other with
    | _ => first
      | cases kind; done
      | simpa [Node.numbers, Int8.toInt_inj, UInt8.toNat_inj] using numbers

theorem numbers_ne_nil (notLoop : ∀ body, node ≠ .loop body) : node.numbers ≠ [] := by
  cases node with
  | loop body => exact absurd rfl (notLoop body)
  | _ => exact List.cons_ne_nil _ _

theorem name_inj {kind kind' : Node.Kind} (same : kind.name = kind'.name) : kind = kind' := by
  cases kind <;> cases kind' <;> first | rfl | exact absurd same (by decide)

theorem parenthesis_mem_label (node : Node) :
    '(' ∈ (label node).toList ↔ ∀ body, node ≠ .loop body := by
  constructor
  · rintro among body rfl
    cases body with
    | nil => exact absurd among (by decide)
    | cons first others => exact absurd among (by decide : '(' ∉ "Loop [".toList)
  · intro notLoop
    rw [toList_label notLoop]
    exact List.mem_append_right _ List.mem_cons_self

/-- Lists are the same if their elements are told apart. -/
theorem eq_of_map_eq {α β : Type} {f : α → β} {xs ys : List α}
    (apart : ∀ x ∈ xs, ∀ y ∈ ys, f x = f y → x = y) (same : xs.map f = ys.map f) : xs = ys := by
  induction xs generalizing ys with
  | nil => exact (List.map_eq_nil_iff.1 same.symm).symm
  | cons x xs ih =>
    obtain ⟨y, rest, rfl, first, others⟩ := List.map_eq_cons_iff.1 same.symm
    rw [apart x List.mem_cons_self y List.mem_cons_self first.symm,
      ih (fun x among y among' =>
        apart x (List.mem_cons_of_mem _ among) y (List.mem_cons_of_mem _ among')) others.symm]

/-- A label without a body is that of one node. -/
theorem label_inj_of_not_loop {other : Node} (kept : node.Representable)
    (kept' : other.Representable) (notLoop : ∀ body, node ≠ .loop body)
    (notLoop' : ∀ body, other ≠ .loop body) (same : label node = label other) : node = other := by
  have texts := congrArg String.toList same
  rw [toList_label notLoop, toList_label notLoop'] at texts
  have word (kind : Node.Kind) : '(' ∉ kind.name.toList :=
    fun among => absurd ((letters_name kind).2 _ among) (by decide)
  obtain ⟨front, back⟩ := Decimal.takeWhile_dropWhile_append_cons (word node.kind)
    ([',', ' '].intercalate (node.numbers.map fun n => (Position.render n).toList) ++ [')'])
  obtain ⟨front', back'⟩ := Decimal.takeWhile_dropWhile_append_cons (word other.kind)
    ([',', ' '].intercalate (other.numbers.map fun n => (Position.render n).toList) ++ [')'])
  rw [texts] at front back
  have name := name_inj (String.toList_injective (front.symm.trans front'))
  have rows := List.append_cancel_right (List.cons.inj (back.symm.trans back')).2
  have numerals (node : Node) : ∀ text ∈ node.numbers.map fun n => (Position.render n).toList,
      ∀ c ∈ text, Decimal.isNumeral c = true := by
    intro text among c within
    obtain ⟨n, -, rfl⟩ := List.mem_map.1 among
    exact Position.isNumeral_render within
  have written := intercalate_inj (mt List.map_eq_nil_iff.1 (numbers_ne_nil notLoop))
    (mt List.map_eq_nil_iff.1 (numbers_ne_nil notLoop')) (numerals node) (numerals other) rows
  refine eq_of_numbers_eq notLoop name (eq_of_map_eq (fun n among n' among' same => ?_) written)
  exact Position.render_inj (kept n among) (kept' n' among') (String.toList_injective same)

/-- A label is that of one node, or of all loops around other nodes. -/
theorem label_inj {other : Node} (kept : node.Representable) (kept' : other.Representable)
    (same : label node = label other) :
    node = other ∨ node.hasBody = true ∧ other.hasBody = true := by
  have kinds := parenthesis_mem_label node
  rw [same, parenthesis_mem_label other] at kinds
  obtain ⟨body, rfl⟩ | notLoop := node.loop_or_not
  · obtain ⟨body', rfl⟩ | notLoop' := other.loop_or_not
    · match body, body' with
      | [], [] => exact .inl rfl
      | _ :: _, _ :: _ => exact .inr ⟨rfl, rfl⟩
      | [], _ :: _ => exact absurd same (by decide : "Loop []" ≠ "Loop [")
      | _ :: _, [] => exact absurd same (by decide : "Loop [" ≠ "Loop []")
    · exact absurd rfl (kinds.1 notLoop' body)
  · exact .inl (label_inj_of_not_loop kept kept' notLoop (kinds.2 notLoop) same)

theorem eq_loop_of_label_eq {body : Block} {other : Node} (kept : (Node.loop body).Representable)
    (kept' : other.Representable) (same : label (.loop body) = label other) :
    ∃ body', other = .loop body' ∧ (body = [] ↔ body' = []) := by
  obtain rfl | ⟨some, some'⟩ := label_inj kept kept' same
  · exact ⟨body, rfl, Iff.rfl⟩
  · obtain ⟨first, rest, rfl⟩ : ∃ first rest, body = first :: rest := by
      cases body with
      | nil => cases some
      | cons first rest => exact ⟨first, rest, rfl⟩
    match other, some' with
    | .loop (first' :: rest'), _ =>
      exact ⟨_, rfl, iff_of_false (List.cons_ne_nil _ _) (List.cons_ne_nil _ _)⟩

/-! ## Reading a listing back -/

theorem label_ne_closing (node : Node) (depth depth' : Nat) :
    (depth, label node) ≠ closing depth' := by
  intro same
  obtain ⟨c, rest, shape, letter⟩ := exists_label_eq_cons node
  have text : label node = "]" := congrArg Prod.snd same
  rw [text] at shape
  rw [← (List.cons.inj shape).1] at letter
  exact absurd letter (by decide)

/-- Lines that cannot continue a block: none, or the bracket behind it first. -/
def Ends (rest : List ListedLine) : Prop :=
  ∀ line ∈ rest.head?, ∃ depth, line = closing depth

theorem exists_lines_append_eq_cons (depth : Nat) (node : Node) (block : Block)
    (rest : List ListedLine) :
    ∃ others, lines depth (node :: block) ++ rest = (depth, label node) :: others := by
  obtain ⟨body, rfl⟩ | notLoop := node.loop_or_not
  · rw [lines_loop]
    exact ⟨_, rfl⟩
  · rw [lines_of_not_loop notLoop]
    exact ⟨_, rfl⟩

/-- The first line of a block shows the label of its first node. -/
theorem label_eq_of_lines_append_eq {other : Node} {block block' : Block}
    {rest rest' : List ListedLine}
    (same : lines depth (node :: block) ++ rest = lines depth (other :: block') ++ rest') :
    label node = label other := by
  obtain ⟨others, shape⟩ := exists_lines_append_eq_cons depth node block rest
  obtain ⟨others', shape'⟩ := exists_lines_append_eq_cons depth other block' rest'
  rw [shape, shape'] at same
  exact congrArg Prod.snd (List.cons.inj same).1

theorem Ends.ne_lines {rest : List ListedLine} (ends : Ends rest) (depth : Nat) (node : Node)
    (block : Block) (rest' : List ListedLine) : rest ≠ lines depth (node :: block) ++ rest' := by
  rintro rfl
  obtain ⟨others, shape⟩ := exists_lines_append_eq_cons depth node block rest'
  rw [shape] at ends
  obtain ⟨_, bracket⟩ := ends _ rfl
  exact label_ne_closing node _ _ bracket

theorem ends_closing (depth : Nat) (rest : List ListedLine) : Ends (closing depth :: rest) := by
  intro line first
  cases first
  exact ⟨depth, rfl⟩

/-- Where a block ends can be seen from its lines and those behind it. -/
theorem lines_append_inj {a b : Block} (kept : ∀ node ∈ nodes a, node.Representable)
    (kept' : ∀ node ∈ nodes b, node.Representable) {rest rest' : List ListedLine}
    (ends : Ends rest) (ends' : Ends rest')
    (same : lines depth a ++ rest = lines depth b ++ rest') : a = b ∧ rest = rest' := by
  induction a using Node.block_induction generalizing depth b rest rest' with
  | nil =>
    cases b with
    | nil => exact ⟨rfl, same⟩
    | cons node' b => exact absurd same (ends.ne_lines depth node' b rest')
  | single node a notLoop ih =>
    cases b with
    | nil => exact absurd same.symm (ends'.ne_lines depth node a rest)
    | cons node' b =>
      rw [nodes_single notLoop, List.forall_mem_cons] at kept
      have label := label_eq_of_lines_append_eq same
      have kept'' := kept' node' (mem_nodes_iff.2 (.inl List.mem_cons_self))
      obtain rfl | ⟨body, -⟩ := label_inj kept.1 kept'' label
      · rw [nodes_single notLoop, List.forall_mem_cons] at kept'
        rw [lines_of_not_loop notLoop, lines_of_not_loop notLoop] at same
        obtain ⟨rfl, rfl⟩ := ih kept.2 kept'.2 ends ends' (List.cons.inj same).2
        exact ⟨rfl, rfl⟩
      · rw [hasBody_of_not_loop notLoop] at body
        cases body
  | loop body a ihBody ihRest =>
    cases b with
    | nil => exact absurd same.symm (ends'.ne_lines depth _ a rest)
    | cons node' b =>
      rw [nodes_loop, List.forall_mem_cons, List.forall_mem_append] at kept
      have label := label_eq_of_lines_append_eq same
      have kept'' := kept' node' (mem_nodes_iff.2 (.inl List.mem_cons_self))
      obtain ⟨body', rfl, empty⟩ := eq_loop_of_label_eq kept.1 kept'' label
      rw [nodes_loop, List.forall_mem_cons, List.forall_mem_append] at kept'
      rw [lines_loop, lines_loop, List.cons_append, List.cons_append] at same
      have tail := (List.cons.inj same).2
      by_cases none : body = []
      · have none' := empty.1 none
        subst none none'
        obtain ⟨rfl, rfl⟩ := ihRest kept.2.2 kept'.2.2 ends ends' tail
        exact ⟨rfl, rfl⟩
      · rw [if_neg none, if_neg (mt empty.2 none)] at tail
        simp only [List.append_assoc, List.cons_append, List.nil_append] at tail
        obtain ⟨rfl, behind⟩ := ihBody kept.2.1 kept'.2.1 (ends_closing _ _) (ends_closing _ _) tail
        obtain ⟨rfl, rfl⟩ := ihRest kept.2.2 kept'.2.2 ends ends' (List.cons.inj behind).2
        exact ⟨rfl, rfl⟩

/-! ## The rows of the text -/

/-- The rows of a listing. -/
def rows (program : Block) : List (List Char) :=
  (listingText program).toList.splitOn '\n'

/-- The blanks in front of a line. -/
def blanks (depth : Nat) : List Char :=
  List.replicate (2 * depth) ' '

/-- A line of text without blanks in front. -/
structure Solid (text : String) : Prop where
  first : ∃ c rest, text.toList = c :: rest ∧ c ≠ ' '
  line : '\n' ∉ text.toList

theorem solid_label (node : Node) : Solid (label node) where
  first := by
    obtain ⟨c, rest, shape, letter⟩ := exists_label_eq_cons node
    refine ⟨c, rest, shape, ?_⟩
    rintro rfl
    exact absurd letter (by decide)
  line := newline_not_mem_label node

theorem solid_closing (depth : Nat) : Solid (closing depth).2 where
  first := ⟨']', [], (by decide : "]".toList = _), by decide⟩
  line := (by decide : '\n' ∉ "]".toList)

theorem solid_of_mem_lines {program : Block} {line : ListedLine}
    (among : line ∈ lines depth program) : Solid line.2 := by
  induction program using Node.block_induction generalizing depth with
  | nil => cases among
  | single node rest notLoop ih =>
    rw [lines_of_not_loop notLoop] at among
    rcases List.mem_cons.1 among with rfl | behind
    · exact solid_label node
    · exact ih behind
  | loop body rest ihBody ihRest =>
    rw [lines_loop, List.mem_cons, List.mem_append, List.mem_append] at among
    rcases among with rfl | (inside | bracket) | behind
    · exact solid_label _
    · exact ihBody inside
    · split at bracket
      · cases bracket
      · rw [List.mem_singleton.1 bracket]
        exact solid_closing depth
    · exact ihRest behind

theorem toList_indented (line : ListedLine) :
    (indented line).toList = blanks line.1 ++ line.2.toList := by
  rw [indented, String.toList_append, String.toList_ofList]
  rfl

/-- A line is known from its row. -/
theorem indented_inj {line line' : ListedLine} (solid : Solid line.2) (solid' : Solid line'.2)
    (same : (indented line).toList = (indented line').toList) : line = line' := by
  rw [toList_indented, toList_indented] at same
  have front {line : ListedLine} (solid : Solid line.2) :
      (blanks line.1 ++ line.2.toList).takeWhile (· == ' ') = blanks line.1 := by
    obtain ⟨c, rest, shape, letter⟩ := solid.first
    have blank : ∀ d ∈ blanks line.1, (d == ' ') = true := by
      intro d among
      rw [List.eq_of_mem_replicate among, beq_self_eq_true]
    have stop : (c == ' ') = false := beq_false_of_ne letter
    rw [List.takeWhile_append_of_pos blank, shape, List.takeWhile_cons, stop]
    exact List.append_nil _
  have depths : blanks line.1 = blanks line'.1 := by
    rw [← front solid, same, front solid']
  rw [depths] at same
  have long := congrArg List.length depths
  rw [blanks, blanks, List.length_replicate, List.length_replicate] at long
  exact Prod.ext (by omega) (String.toList_injective (List.append_cancel_left same))

theorem rows_nil : rows [] = [[]] := by
  rw [rows, listingText, listed, linesFrom_walk, String.toList_intercalate]
  exact List.splitOn_nil '\n'

theorem lines_ne_nil {program : Block} (some : program ≠ []) (depth : Nat) :
    lines depth program ≠ [] := by
  cases program with
  | nil => exact absurd rfl some
  | cons node rest =>
    obtain ⟨others, shape⟩ := exists_lines_append_eq_cons depth node rest []
    rw [List.append_nil] at shape
    rw [shape]
    exact List.cons_ne_nil _ _

/-- Every line of a program is a row of its listing. -/
theorem rows_eq_map {program : Block} (some : program ≠ []) :
    rows program = (lines 0 program).map fun line => (indented line).toList := by
  have text : (listingText program).toList =
      ['\n'].intercalate ((lines 0 program).map fun line => (indented line).toList) := by
    rw [listingText, listed, linesFrom_walk, String.toList_intercalate, List.map_map]
    rfl
  rw [rows, text]
  refine List.splitOn_intercalate '\n' ?_ (mt List.map_eq_nil_iff.1 (lines_ne_nil some 0))
  intro row written
  obtain ⟨line, among, rfl⟩ := List.mem_map.1 written
  rw [toList_indented, List.mem_append, not_or]
  refine ⟨fun blank => ?_, (solid_of_mem_lines among).line⟩
  exact absurd (List.eq_of_mem_replicate blank) (by decide)

theorem nil_not_mem_rows {program : Block} (some : program ≠ []) : [] ∉ rows program := by
  rw [rows_eq_map some]
  intro written
  obtain ⟨line, among, empty⟩ := List.mem_map.1 written
  obtain ⟨c, rest, shape, -⟩ := (solid_of_mem_lines among).first
  rw [toList_indented, shape] at empty
  exact List.cons_ne_nil _ _ (List.append_eq_nil_iff.1 empty).2

/-- Programs with the same rows have the same lines. -/
theorem lines_eq_of_rows_eq {a b : Block} (same : rows a = rows b) : lines 0 a = lines 0 b := by
  have empty : [] ∈ rows [] := rows_nil ▸ List.mem_cons_self
  by_cases none : a = [] <;> by_cases none' : b = []
  · rw [none, none']
  · rw [none] at same
    exact absurd (same ▸ empty) (nil_not_mem_rows none')
  · rw [none'] at same
    exact absurd (same ▸ empty) (nil_not_mem_rows none)
  rw [rows_eq_map none, rows_eq_map none'] at same
  refine eq_of_map_eq (fun line among line' among' rows => ?_) same
  exact indented_inj (solid_of_mem_lines among) (solid_of_mem_lines among') rows

/-- Programs that are listed alike are the same. -/
theorem eq_of_listingText_eq {a b : Block} (kept : ∀ node ∈ nodes a, node.Representable)
    (kept' : ∀ node ∈ nodes b, node.Representable) (same : listingText a = listingText b) :
    a = b := by
  have lines : lines 0 a ++ [] = lines 0 b ++ [] := by
    rw [lines_eq_of_rows_eq (congrArg (fun text => text.toList.splitOn '\n') same)]
  have none : Ends [] := fun _ none => nomatch none
  exact (lines_append_inj kept kept' none none lines).1

/-! ## The length of the text -/

/-- The units that lines take, each with the end of its line. -/
def weight (lines : List ListedLine) : Nat :=
  (lines.map fun line => 2 * line.1 + Text.Units.length line.2.toList + 1).sum

theorem length_indented (line : ListedLine) :
    Text.Units.length (indented line).toList = 2 * line.1 + Text.Units.length line.2.toList := by
  have blank : Text.Units.ofChar ' ' = 1 := by decide
  rw [toList_indented, Text.Units.length_append, blanks, Text.Units.length_replicate, blank,
    Nat.mul_one]

/-- Behind the last line there is no end of a line. -/
theorem length_intercalate_indented (line : ListedLine) (lines : List ListedLine) :
    Text.Units.length ("\n".intercalate ((line :: lines).map indented)).toList + 1 =
      weight (line :: lines) := by
  induction lines generalizing line with
  | nil => simp [weight, length_indented]
  | cons next rest ih =>
    have newline : Text.Units.length "\n".toList = 1 := by decide
    have later := ih next
    simp only [weight, List.map_cons, List.sum_cons, String.intercalate_cons_cons,
      String.toList_append, Text.Units.length_append, length_indented, newline] at later ⊢
    omega

theorem foldl_units (lines : List ListedLine) (start : Nat) :
    lines.foldl (fun total line => total + (2 * line.1 + Text.Units.length line.2.toList)) start +
      lines.length = start + weight lines := by
  induction lines generalizing start with
  | nil => rfl
  | cons line rest ih =>
    have later := ih (start + (2 * line.1 + Text.Units.length line.2.toList))
    simp only [weight, List.foldl_cons, List.map_cons, List.sum_cons, List.length_cons] at later ⊢
    omega

theorem length_listingText {program : Block} (some : program ≠ []) :
    Text.Units.length (listingText program).toList + 1 = weight (lines 0 program) := by
  rw [listingText, listed, linesFrom_walk]
  cases shape : lines 0 program with
  | nil => exact absurd shape (lines_ne_nil some 0)
  | cons line rest => exact length_intercalate_indented line rest

/-- What is counted before the text is written is its length. -/
theorem unitsOf_listed (program : Block) :
    unitsOf (listed program) = Text.Units.length (listingText program).toList := by
  rw [listingText]
  cases listed program with
  | nil => rfl
  | cons line lines =>
    have counted := foldl_units (line :: lines) lines.length
    have written := length_intercalate_indented line lines
    simp only [unitsOf, List.length_cons, Nat.add_sub_cancel] at counted ⊢
    omega

theorem listing_eq (program : Block) : listing program =
    if Text.Units.maxLength < Text.Units.length (listingText program).toList then
      .error .excessiveWidth
    else .ok (listingText program) := by
  rw [listing, unitsOf_listed]

/-- Programs that have the same listing are the same. -/
theorem eq_of_listing_eq_ok {a b : Block} {text : String}
    (kept : ∀ node ∈ nodes a, node.Representable) (kept' : ∀ node ∈ nodes b, node.Representable)
    (listed : listing a = .ok text) (listed' : listing b = .ok text) : a = b := by
  have written {program : Block} (listed : listing program = .ok text) :
      listingText program = text := by
    rw [listing_eq] at listed
    split at listed
    · cases listed
    · exact Except.ok.inj listed
  exact eq_of_listingText_eq kept kept' ((written listed).trans (written listed').symm)

/-! ## The bracket of a loop -/

theorem length_preorder (depth : Nat) (program : Block) :
    (preorder depth program).length = size program := by
  rw [size_eq_length, ← map_snd_preorder depth program, List.length_map]

theorem countP_preorder (depth : Nat) (program : Block) :
    (preorder depth program).countP (fun entry => entry.2.hasBody) =
      (nodes program).countP Node.hasBody := by
  rw [← map_snd_preorder depth program, List.countP_map]
  rfl

/-- What stands in a row of two lists stands in one of them. -/
theorem append_eq_append_cons {α : Type} {xs ys front back : List α} {x : α}
    (same : xs ++ ys = front ++ x :: back) :
    (∃ between, xs = front ++ x :: between) ∨
      ∃ between, front = xs ++ between ∧ ys = between ++ x :: back := by
  rcases List.append_eq_append_iff.1 same with ⟨between, shape, behind⟩ | ⟨between, shape, behind⟩
  · exact .inr ⟨between, shape, behind⟩
  · cases between with
    | nil => exact .inr ⟨[], by rw [shape, List.append_nil, List.append_nil], behind.symm⟩
    | cons y between =>
      obtain ⟨rfl, -⟩ := List.cons.inj behind
      exact .inl ⟨between, shape⟩

/-- The lines of a loop, between those of the nodes in front of it and those behind. In front of a
loop at depth `n` there is a line for every node, and a bracket for every loop around other nodes
but the `n` that are still open. -/
theorem exists_lines_of_preorder {program body : Block} {start depth : Nat}
    {front back : List (Nat × Node)}
    (visited : preorder start program = front ++ (depth, .loop body) :: back) (some : body ≠ []) :
    ∃ above below, lines start program = above ++ (depth, label (.loop body)) ::
        (lines (depth + 1) body ++ closing depth :: below) ∧
      above.length + depth =
        front.length + front.countP (fun entry => entry.2.hasBody) + start := by
  induction program using Node.block_induction generalizing start front back with
  | nil => exact absurd visited.symm (by simp [preorder])
  | single node rest notLoop ih =>
    rw [preorder_of_not_loop notLoop] at visited
    cases front with
    | nil => exact absurd (congrArg Prod.snd (List.cons.inj visited).1) (notLoop body)
    | cons entry front =>
      rw [List.cons_append, List.cons.injEq] at visited
      obtain ⟨rfl, later⟩ := visited
      obtain ⟨above, below, written, count⟩ := ih later
      refine ⟨(start, label node) :: above, below, ?_, ?_⟩
      · rw [lines_of_not_loop notLoop, written, List.cons_append]
      · rw [List.countP_cons, hasBody_of_not_loop notLoop, List.length_cons, List.length_cons]
        simp only [Bool.false_eq_true, if_false]
        omega
  | loop inner rest ihInner ihRest =>
    rw [preorder_loop] at visited
    cases front with
    | nil =>
      rw [List.nil_append, List.cons.injEq, Prod.mk.injEq, Node.loop.injEq] at visited
      obtain ⟨⟨rfl, rfl⟩, -⟩ := visited
      refine ⟨[], lines start rest, ?_, by simp⟩
      rw [lines_loop, if_neg some]
      simp only [List.nil_append, List.append_assoc, List.cons_append]
    | cons entry front =>
      rw [List.cons_append, List.cons.injEq] at visited
      obtain ⟨rfl, later⟩ := visited
      rcases append_eq_append_cons later with ⟨between, inside⟩ | ⟨between, rfl, behind⟩
      · have around : inner ≠ [] := by
          rintro rfl
          exact absurd inside.symm (by simp [preorder])
        obtain ⟨above, below, written, count⟩ := ihInner inside
        refine ⟨(start, label (.loop inner)) :: above, below ++ closing start :: lines start rest,
          ?_, ?_⟩
        · rw [lines_loop, if_neg around, written]
          simp only [List.cons_append, List.append_assoc, List.nil_append]
        · rw [List.countP_cons, hasBody_loop, List.length_cons, List.length_cons,
            if_pos (by simpa using around)]
          omega
      · obtain ⟨above, below, written, count⟩ := ihRest behind
        refine ⟨(start, label (.loop inner)) :: (lines (start + 1) inner ++
          (if inner = [] then [] else [closing start]) ++ above), below, ?_, ?_⟩
        · rw [lines_loop, written]
          simp only [List.cons_append, List.append_assoc]
        · rw [List.countP_cons, List.countP_append, countP_preorder, hasBody_loop]
          simp only [List.length_cons, List.length_append, length_preorder, length_lines]
          by_cases none : inner = []
          · subst none
            simp only [if_true, List.length_nil, List.isEmpty_nil, Bool.not_true,
              Bool.false_eq_true, if_false]
            omega
          · rw [if_neg none, if_pos (by simpa using none), List.length_singleton]
            omega

/-- A program written further in has the same lines. -/
theorem lines_add (extra depth : Nat) (program : Block) : lines (depth + extra) program =
    (lines depth program).map fun line => (line.1 + extra, line.2) := by
  induction program using Node.block_induction generalizing depth with
  | nil => rfl
  | single node rest notLoop ih =>
    rw [lines_of_not_loop notLoop, lines_of_not_loop notLoop, ih, List.map_cons]
  | loop body rest ihBody ihRest =>
    rw [lines_loop, lines_loop, Nat.add_right_comm depth extra 1, ihBody, ihRest, List.map_cons,
      List.map_append, List.map_append]
    split <;> rfl

/-- The rows of a program that is written further in. -/
theorem map_indented_lines {body : Block} (some : body ≠ []) (depth : Nat) :
    (lines depth body).map (fun line => (indented line).toList) =
      (rows body).map (blanks depth ++ ·) := by
  have further (line : ListedLine) :
      (indented (line.1 + depth, line.2)).toList = blanks depth ++ (indented line).toList := by
    rw [toList_indented, toList_indented, ← List.append_assoc]
    congr 1
    rw [blanks, blanks, blanks, List.replicate_append_replicate]
    congr 1
    omega
  have shifted := lines_add depth 0 body
  rw [Nat.zero_add] at shifted
  rw [shifted, rows_eq_map some, List.map_map, List.map_map]
  exact List.map_congr_left fun line _ => further line

/-! ## Legible listings -/

/-- What is seen in the listing of a program. -/
structure Legible (program : Block) : Prop where
  /-- There is a listing. -/
  listed : listing program = .ok (listingText program)
  /-- No other program is listed like this one. -/
  alone : ∀ other, (∀ node ∈ nodes other, node.Representable) →
    listing other = listing program → other = program
  /-- There is a row for every node, and one more for a loop around other nodes. -/
  count : program ≠ [] →
    (rows program).length = size program + (nodes program).countP Node.hasBody
  /-- The bracket of a loop stands at the loop's own indentation, directly below the rows of its
  body, which are two blanks further in. The row of the loop is found by the nodes in front of it
  and the brackets of those loops among them that do not go around it. -/
  bracket : ∀ front depth body back, walk program = front ++ (depth, .loop body) :: back →
    body ≠ [] → ∃ above below,
      rows program = above ++ (blanks depth ++ "Loop [".toList) ::
        ((rows body).map (blanks (depth + 1) ++ ·) ++ (blanks depth ++ [']']) :: below) ∧
      above.length + depth = front.length + front.countP fun entry => entry.2.hasBody

theorem exists_rows_of_walk {program body : Block} {depth : Nat} {front back : List (Nat × Node)}
    (visited : walk program = front ++ (depth, .loop body) :: back) (some : body ≠ []) :
    ∃ above below,
      rows program = above ++ (blanks depth ++ "Loop [".toList) ::
        ((rows body).map (blanks (depth + 1) ++ ·) ++ (blanks depth ++ [']']) :: below) ∧
      above.length + depth = front.length + front.countP fun entry => entry.2.hasBody := by
  rw [walk_eq_preorder] at visited
  have within : program ≠ [] := by
    rintro rfl
    exact absurd visited.symm (by simp [preorder])
  obtain ⟨above, below, written, count⟩ := exists_lines_of_preorder visited some
  refine ⟨above.map fun line => (indented line).toList,
    below.map fun line => (indented line).toList, ?_, by rw [List.length_map]; exact count⟩
  have opening : (indented (depth, label (.loop body))).toList =
      blanks depth ++ "Loop [".toList := by
    cases body with
    | nil => exact absurd rfl some
    | cons first rest => exact toList_indented _
  have bracket : (indented (closing depth)).toList = blanks depth ++ [']'] :=
    (toList_indented _).trans (congrArg _ (by decide : "]".toList = [']']))
  simp only [rows_eq_map within, written, List.map_append, List.map_cons, opening, bracket,
    map_indented_lines some]

/-- The listing of a program shows the program. Only a program whose listing would be longer than
a text can be has none. -/
theorem legible_or_overlong {program : Block} (kept : ∀ node ∈ nodes program, node.Representable) :
    Legible program ∨
      (Text.Units.maxLength < Text.Units.length (listingText program).toList ∧
        listing program = .error .excessiveWidth) := by
  have written := listing_eq program
  split at written
  · next overlong => exact .inr ⟨overlong, written⟩
  refine .inl ⟨written, ?_, ?_, ?_⟩
  · intro other kept' same
    exact eq_of_listing_eq_ok kept' kept (same.trans written) written
  · intro some
    rw [rows_eq_map some, List.length_map, length_lines]
  · intro front depth body back visited some
    exact exists_rows_of_walk visited some

/-- A loop around an empty loop and a far move, and a loop behind it. -/
theorem legible_or_overlong_nested :
    (∀ node ∈ nodes [.loop [.loop [], .move (2 ^ 60)], .loop [.addAt 0 (-1)]],
      node.Representable) ∧
    Legible [.loop [.loop [], .move (2 ^ 60)], .loop [.addAt 0 (-1)]] := by
  have kept : ∀ node ∈ nodes [.loop [.loop [], .move (2 ^ 60)], .loop [.addAt 0 (-1)]],
      node.Representable := by
    have far : Precision.double.round 1152921504606846976 = 1152921504606846976 := by
      decide +kernel
    have near : Precision.double.round 0 = 0 ∧ Precision.double.round (-1) = -1 := by decide
    simp [nodes_single, Node.Representable, Node.numbers, far, near]
  refine ⟨kept, (legible_or_overlong kept).resolve_right ?_⟩
  rintro ⟨overlong, -⟩
  revert overlong
  decide +kernel

/-! ### Deep nesting -/

/-- So many loops, each around the next. -/
def nested : Nat → Block
  | 0 => []
  | depth + 1 => [.loop (nested depth)]

theorem representable_nested (count : Nat) : ∀ node ∈ nodes (nested count), node.Representable := by
  induction count with
  | zero => simp [nested]
  | succ count ih =>
    rw [nested, nodes_loop, List.forall_mem_cons, List.forall_mem_append]
    exact ⟨fun _ none => (List.not_mem_nil none).elim, ih, by simp⟩

theorem weight_singleton (line : ListedLine) :
    weight [line] = 2 * line.1 + Text.Units.length line.2.toList + 1 := by
  simp [weight]

theorem weight_append (front back : List ListedLine) :
    weight (front ++ back) = weight front + weight back := by
  simp [weight]

/-- The indentation makes the length of the text grow with the square of the depth. -/
theorem weight_nested (depth count : Nat) : weight (lines depth (nested (count + 1))) =
    2 * count * count + 4 * depth * count + 9 * count + 2 * depth + 8 := by
  induction count generalizing depth with
  | zero =>
    have empty : Text.Units.length "Loop []".toList = 7 := by decide
    show weight [(depth, "Loop []")] = _
    rw [weight_singleton, empty]
    omega
  | succ count ih =>
    have opening : Text.Units.length "Loop [".toList = 6 := by decide
    have bracket : Text.Units.length "]".toList = 1 := by decide
    have shape : lines depth (nested (count + 2)) =
        [(depth, "Loop [")] ++ lines (depth + 1) (nested (count + 1)) ++ [(depth, "]")] := by
      have inside : nested (count + 1) ≠ [] := List.cons_ne_nil _ _
      rw [nested, lines_loop, if_neg inside]
      exact congrArg _ (List.append_nil _)
    rw [shape, weight_append, weight_append, weight_singleton, weight_singleton, ih, opening,
      bracket]
    ring

/-- There is no listing of so many loops. -/
theorem not_legible_nested :
    (∀ node ∈ nodes (nested 16383), node.Representable) ∧ ¬ Legible (nested 16383) := by
  refine ⟨representable_nested 16383, fun legible => ?_⟩
  have written := legible.listed
  have some : nested 16383 ≠ [] := List.cons_ne_nil _ _
  have length := length_listingText some
  rw [weight_nested 0 16382] at length
  rw [listing_eq, if_pos (by rw [Text.Units.maxLength]; omega)] at written
  cases written

end Program

end TapeMachine
