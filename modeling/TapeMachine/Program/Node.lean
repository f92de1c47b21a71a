import TapeMachine.Number.Precision

/-!
# Program nodes

The form of a program that is optimized and executed. Every node addresses its
cells relative to the pointer, and only `move` and `scanLoop` change the
pointer. Byte quantities have byte types, so a node built from any integer is
already reduced modulo 256.
-/

namespace TapeMachine

/-- One step of a program. -/
inductive Node where
  /-- Adds `delta` to the cell at `offset`. -/
  | addAt (offset : Int) (delta : Int8)
  /-- Stores `value` in the cell at `offset`. -/
  | setAt (offset : Int) (value : UInt8)
  /-- Adds the cell at `offset`, times `factor`, to the cell `into` further on.
  A source cell of zero touches nothing. -/
  | mulAt (offset into : Int) (factor : Int8)
  /-- Moves the pointer. -/
  | move (delta : Int)
  /-- Writes the cell at `offset` to the output. -/
  | outputAt (offset : Int)
  /-- Reads the input into the cell at `offset`. -/
  | inputAt (offset : Int)
  /-- Runs `body` while the cell under the pointer is not zero. -/
  | loop (body : List Node)
  /-- Moves the pointer by `step` until the cell under it is zero. -/
  | scanLoop (step : Int)
  deriving Repr, Inhabited

/-- A program, or the body of a loop. -/
abbrev Block := List Node

namespace Node

mutual

/-- Whether two nodes are the same. -/
def beq : Node → Node → Bool
  | .addAt o d, .addAt o' d' => o == o' && d == d'
  | .setAt o v, .setAt o' v' => o == o' && v == v'
  | .mulAt o i f, .mulAt o' i' f' => o == o' && i == i' && f == f'
  | .move d, .move d' => d == d'
  | .outputAt o, .outputAt o' => o == o'
  | .inputAt o, .inputAt o' => o == o'
  | .loop body, .loop body' => beqAll body body'
  | .scanLoop s, .scanLoop s' => s == s'
  | _, _ => false

/-- Whether two blocks are the same. -/
def beqAll : List Node → List Node → Bool
  | [], [] => true
  | node :: rest, node' :: rest' => beq node node' && beqAll rest rest'
  | _, _ => false

end

mutual

/-- The comparison accepts only equal nodes. -/
theorem eq_of_beq : ∀ {a b : Node}, beq a b = true → a = b := by
  intro a b h
  cases a <;> cases b <;> simp [beq] at h ⊢
  case loop.loop => exact eq_of_beqAll h
  case mulAt.mulAt => exact and_assoc.1 h
  all_goals exact h

/-- The comparison accepts only equal blocks. -/
theorem eq_of_beqAll : ∀ {a b : List Node}, beqAll a b = true → a = b := by
  intro a b h
  match a, b with
  | [], [] => rfl
  | [], _ :: _ => simp [beqAll] at h
  | _ :: _, [] => simp [beqAll] at h
  | node :: rest, node' :: rest' =>
    simp only [beqAll, Bool.and_eq_true] at h
    rw [eq_of_beq h.1, eq_of_beqAll h.2]

end

mutual

/-- The comparison accepts a node and itself. -/
theorem beq_self : ∀ (a : Node), beq a a = true
  | .loop body => by simp only [beq]; exact beqAll_self body
  | .addAt .. | .setAt .. | .mulAt .. | .move _ | .outputAt _ | .inputAt _ | .scanLoop _ => by
    simp [beq]

/-- The comparison accepts a block and itself. -/
theorem beqAll_self : ∀ (a : List Node), beqAll a a = true
  | [] => rfl
  | node :: rest => by simp only [beqAll, beq_self node, beqAll_self rest, Bool.and_self]

end

instance : DecidableEq Node := fun a b =>
  if h : beq a b = true then isTrue (eq_of_beq h)
  else isFalse fun same => h (same ▸ beq_self a)

/-- The kinds of node. -/
inductive Kind where
  | addAt
  | inputAt
  | loop
  | move
  | mulAt
  | outputAt
  | scanLoop
  | setAt
  deriving DecidableEq, Repr

/-- All kinds in the order of their names. -/
def Kind.all : List Kind :=
  [.addAt, .inputAt, .loop, .move, .mulAt, .outputAt, .scanLoop, .setAt]

/-- The name of a kind. -/
def Kind.name : Kind → String
  | .addAt => "AddAt"
  | .inputAt => "InputAt"
  | .loop => "Loop"
  | .move => "Move"
  | .mulAt => "MulAt"
  | .outputAt => "OutputAt"
  | .scanLoop => "ScanLoop"
  | .setAt => "SetAt"

/-- The kind of a node. -/
def kind : Node → Kind
  | .addAt .. => .addAt
  | .setAt .. => .setAt
  | .mulAt .. => .mulAt
  | .move _ => .move
  | .outputAt _ => .outputAt
  | .inputAt _ => .inputAt
  | .loop _ => .loop
  | .scanLoop _ => .scanLoop

/-- The node addressing its cells `distance` further along; none for the nodes that
do not address a cell through an offset. -/
def shift? (precision : Precision) (distance : Int) : Node → Option Node
  | .addAt offset delta => some (.addAt (precision.add offset distance) delta)
  | .setAt offset value => some (.setAt (precision.add offset distance) value)
  | .mulAt offset into factor => some (.mulAt (precision.add offset distance) into factor)
  | .outputAt offset => some (.outputAt (precision.add offset distance))
  | .inputAt offset => some (.inputAt (precision.add offset distance))
  | .move _ | .loop _ | .scanLoop _ => none

/-- Whether a node addresses a cell through an offset and leaves the pointer
alone. -/
def isCellNode (node : Node) : Bool :=
  (node.shift? .exact 0).isSome

/-- Reasoning about a block by its first node; a loop in front brings its body
as well. -/
@[elab_as_elim]
theorem block_induction {P : Block → Prop} (nil : P [])
    (loop : ∀ body rest, P body → P rest → P (.loop body :: rest))
    (single : ∀ node rest, (∀ body, node ≠ .loop body) → P rest → P (node :: rest))
    (block : Block) : P block := by
  exact Node.rec_1 (motive_1 := fun node => ∀ body, node = .loop body → P body)
    (motive_2 := P)
    (fun _ _ _ h => nomatch h) (fun _ _ _ h => nomatch h) (fun _ _ _ _ h => nomatch h)
    (fun _ _ h => nomatch h) (fun _ _ h => nomatch h) (fun _ _ h => nomatch h)
    (fun _ inner _ h => Node.loop.inj h ▸ inner) (fun _ _ h => nomatch h)
    nil
    (fun node rest inner tail => by
      match node with
      | .loop body => exact loop body rest (inner body rfl) tail
      | .addAt .. | .setAt .. | .mulAt .. | .move _ | .outputAt _ | .inputAt _ | .scanLoop _ =>
        exact single _ rest (fun _ h => nomatch h) tail)
    block

end Node

end TapeMachine
