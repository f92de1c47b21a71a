import TapeMachine.Proofs.Execution.Matching

/-!
# Straight code

A block without loops and scans has exactly one fate, which is computed by its
actions one after the other.
-/

namespace TapeMachine

variable {σ τ : Type}

/-- Goes on with a state unless the run has ended. -/
def Fate.andThen (fate : Fate σ) (next : σ → Fate σ) : Fate σ :=
  match fate with
  | .went s => next s
  | .ended ending s => .ended ending s

@[simp] theorem Fate.andThen_went (s : σ) (next : σ → Fate σ) :
    (Fate.went s).andThen next = next s := rfl

@[simp] theorem Fate.andThen_ended (ending : Ending) (s : σ) (next : σ → Fate σ) :
    (Fate.ended ending s).andThen next = .ended ending s := rfl

namespace Interpretation

variable (I : Interpretation σ)

/-- The actions of a block, one after the other. -/
def perform : Block → σ → Fate σ
  | [], s => .went s
  | node :: rest, s => (I.act node s).andThen (perform rest)

@[simp] theorem perform_nil (s : σ) : I.perform [] s = .went s := rfl

@[simp] theorem perform_cons (node : Node) (rest : Block) (s : σ) :
    I.perform (node :: rest) s = (I.act node s).andThen (I.perform rest) := rfl

theorem perform_append (front back : Block) (s : σ) :
    I.perform (front ++ back) s = (I.perform front s).andThen (I.perform back) := by
  induction front generalizing s with
  | nil => rfl
  | cons node rest ih =>
    rw [List.cons_append, perform_cons, perform_cons]
    cases I.act node s with
    | went t => exact ih t
    | ended ending t => rfl

/-- Straight code has the fate of its actions. -/
theorem runs_straight {block : Block} (straight : block.all Node.isSingle = true) (s : σ)
    (last : Fate σ) : I.runs block s last ↔ last = I.perform block s := by
  induction block generalizing s with
  | nil => exact I.runs_nil s last
  | cons node rest ih =>
    rw [List.all_cons, Bool.and_eq_true] at straight
    rw [runs_cons, perform_cons]
    simp only [runsNode_single I straight.1]
    cases acted : I.act node s with
    | went t => simp [ih straight.2]
    | ended ending t => simp

end Interpretation

namespace Matching

variable {I : Interpretation σ} {J : Interpretation τ} {M : Matching I J}

/-- Straight code answers for straight code if their actions match. -/
theorem refines_straight {p q : Block} (straight : p.all Node.isSingle = true)
    (straight' : q.all Node.isSingle = true)
    (matched : ∀ {s t}, M.near s t → M.Matched (I.perform p s) (J.perform q t)) :
    M.Refines p q := by
  have runs : I.runs p = fun s last => last = I.perform p s :=
    funext fun s => funext fun last => propext (I.runs_straight straight s last)
  have runs' : J.runs q = fun t last => last = J.perform q t :=
    funext fun t => funext fun last => propext (J.runs_straight straight' t last)
  rw [Refines, runs, runs']
  refine Simulates.of_matched matched fun {ending u t} covered => ?_
  exact M.stable_runs q covered ((J.runs_straight straight' t _).2 rfl)

end Matching

end TapeMachine
