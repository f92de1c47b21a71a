import TapeMachine.Device.Abort
import TapeMachine.Proofs.Execution.Steps

/-!
# Runs that end

Between two polls of a run only finitely much can happen. So where only so many
polls go through, every program has a fate (`Interpretation.exists_runs`); a step
limit lets only so many through (`Rig.exists_runs_of_limit`).
-/

namespace TapeMachine

namespace Interpretation

variable {σ : Type}

/-- A bound on the polls that go through: `affords n s` says that at most `n` do so
from `s` on. -/
structure PollBound (I : Interpretation σ) (affords : Nat → σ → Prop) : Prop where
  mono : ∀ {less more : Nat} {s : σ}, less ≤ more → affords less s → affords more s
  poll : ∀ {n : Nat} {s t : σ}, affords n s → I.poll s = .went t → ∃ less < n, affords less t
  act : ∀ {n : Nat} {node : Node} {s t : σ}, affords n s → I.act node s = .went t → affords n t

namespace PollBound

variable {I : Interpretation σ} {affords : Nat → σ → Prop}

/-- If rounds have fates and gain no polls, so have their repetitions: each round
comes after a poll. -/
private theorem exists_repeats (bound : PollBound I affords) {round : σ → Fate σ → Prop}
    (rounds : ∀ n s, affords n s → ∃ last, round s last ∧ ∀ t, last = .went t → affords n t) :
    ∀ n s, affords n s → ∃ last, I.Repeats round s last ∧ ∀ t, last = .went t → affords n t := by
  intro n
  induction n using Nat.strongRecOn with
  | ind n ih =>
    intro s can
    by_cases zero : I.zero s
    · exact ⟨.went s, .done zero, fun t same => by cases same; exact can⟩
    cases polled : I.poll s with
    | ended ending t => exact ⟨.ended ending t, .cut zero polled, fun _ same => nomatch same⟩
    | went t =>
      -- The poll has used up one, so that the next round starts with fewer.
      obtain ⟨less, lt, can⟩ := bound.poll can polled
      obtain ⟨last, ran, kept⟩ := rounds less t can
      cases last with
      | ended ending u =>
        exact ⟨.ended ending u, .failed zero polled ran, fun _ same => nomatch same⟩
      | went u =>
        obtain ⟨last, more, kept⟩ := ih less lt u (kept u rfl)
        exact ⟨last, .again zero polled ran more,
          fun v same => bound.mono (Nat.le_of_lt lt) (kept v same)⟩

private theorem exists_cons {node : Node} {rest : Block}
    (later : ∀ n s, affords n s →
      ∃ last, I.runs rest s last ∧ ∀ t, last = .went t → affords n t)
    {n : Nat} {s : σ}
    (head : ∃ first, I.runsNode node s first ∧ ∀ t, first = .went t → affords n t) :
    ∃ last, I.runs (node :: rest) s last ∧ ∀ t, last = .went t → affords n t := by
  obtain ⟨first, ran, kept⟩ := head
  cases first with
  | ended ending t => exact ⟨_, (I.runs_cons ..).2 ⟨_, ran, rfl⟩, fun _ same => nomatch same⟩
  | went t =>
    obtain ⟨last, more, kept⟩ := later n t (kept t rfl)
    exact ⟨last, (I.runs_cons ..).2 ⟨_, ran, more⟩, kept⟩

/-- Where only so many polls go through, every block has a fate. -/
theorem exists_runs (bound : PollBound I affords) (block : Block) :
    ∀ n s, affords n s → ∃ last, I.runs block s last ∧ ∀ t, last = .went t → affords n t := by
  induction block using Node.block_induction with
  | nil => exact fun n s can => ⟨.went s, by simp, fun t same => by cases same; exact can⟩
  | loop body rest ihBody ihRest =>
    intro n s can
    refine exists_cons ihRest ?_
    by_cases zero : I.zero s
    · refine ⟨I.poll s, (I.runsNode_loop ..).2 (.inl ⟨zero, rfl⟩), fun t polled => ?_⟩
      obtain ⟨less, lt, can⟩ := bound.poll can polled
      exact bound.mono (Nat.le_of_lt lt) can
    · obtain ⟨last, repeated, kept⟩ := bound.exists_repeats ihBody n s can
      exact ⟨last, (I.runsNode_loop ..).2 (.inr ⟨zero, repeated⟩), kept⟩
  | single node rest notLoop ihRest =>
    intro n s can
    refine exists_cons ihRest ?_
    cases node with
    | loop body => exact absurd rfl (notLoop body)
    | scanLoop step =>
      simp only [runsNode_scanLoop]
      refine bound.exists_repeats (fun m t can => ?_) n s can
      exact ⟨I.act (.move step) t, rfl, fun _ => bound.act can⟩
    | _ => exact ⟨_, (I.runsNode_single rfl ..).2 rfl, fun _ => bound.act can⟩

end PollBound

end Interpretation

namespace Rig

variable {ι ο η : Type}

/-- A poll of a step limit counts, and fires if that is one too many. -/
theorem poll_stepLimit (rig : Rig ι ο StepLimit) :
    rig.poll =
      if rig.hook.allowed.any (fun allowed => decide (allowed < rig.hook.taken + 1)) then
        .ended (.aborted rig.machine.pointer)
          { rig with hook := { rig.hook with taken := rig.hook.taken + 1 } }
      else .went { rig with hook := { rig.hook with taken := rig.hook.taken + 1 } } := by
  obtain ⟨machine, input, output, hook⟩ := rig
  simp only [poll, AbortHook.poll, StepLimit.poll]
  cases hook.allowed.any fun allowed => decide (allowed < hook.taken + 1) <;> rfl

variable [InputSource ι] [OutputSink ο]

/-- An action that goes through does not touch the hook. -/
theorem hook_of_act {node : Node} {rig next : Rig ι ο η} (acted : rig.act node = .went next) :
    next.hook = rig.hook := by
  rcases act_went acted with rfl | ⟨cell, value, rfl⟩ | ⟨_, cell, _, _, rfl⟩ |
    ⟨byte, output, _, rfl⟩ | ⟨cell, value, input, _, rfl⟩
  · rfl
  · rfl
  · rfl
  · rfl
  · rfl

/-- A step limit that has some polls left lets no more through. -/
theorem pollBound_stepLimit :
    Interpretation.PollBound (interpretation (ι := ι) (ο := ο) (η := StepLimit))
      fun n rig => ∃ allowed, rig.hook.allowed = some allowed ∧ allowed ≤ rig.hook.taken + n where
  mono := by
    rintro less more rig le ⟨allowed, limit, few⟩
    exact ⟨allowed, limit, by omega⟩
  poll := by
    rintro n rig t ⟨allowed, limit, few⟩ polled
    rw [interpretation_poll, Outcome.fate_eq_went, poll_stepLimit, limit] at polled
    by_cases fires : allowed < rig.hook.taken + 1
    · rw [Option.any_some, decide_eq_true fires, if_pos rfl] at polled
      cases polled
    · simp only [Option.any_some, fires, decide_false, Bool.false_eq_true, if_false,
        Outcome.went.injEq] at polled
      refine ⟨n - 1, by omega, allowed, ?_⟩
      subst polled
      exact ⟨limit, by simp only; omega⟩
  act := by
    rintro n node rig t ⟨allowed, limit, few⟩ acted
    rw [interpretation_act, Outcome.fate_eq_went] at acted
    rw [hook_of_act acted]
    exact ⟨allowed, limit, few⟩

/-- With a step limit every program has a fate. -/
theorem exists_runs_of_limit (block : Block) {rig : Rig ι ο StepLimit} {allowed : Nat}
    (limit : rig.hook.allowed = some allowed) : ∃ fate, interpretation.runs block rig fate := by
  obtain ⟨fate, ran, _⟩ :=
    pollBound_stepLimit.exists_runs block allowed rig ⟨allowed, limit, Nat.le_add_left _ _⟩
  exact ⟨fate, ran⟩

end Rig

/-- With a step limit every program comes to an end, be it for want of a cell. -/
theorem exists_execute_of_limit {ι ο : Type} [InputSource ι] [OutputSink ο] (program : Block)
    {rig : Rig ι ο StepLimit} {limit : Nat} (limited : rig.hook.allowed = some limit) :
    ∃ fuel result, execute fuel program rig = some result := by
  obtain ⟨fate, ran⟩ := Rig.exists_runs_of_limit program limited
  obtain ⟨fuel, executed⟩ := execute_eq_some_iff.2 ⟨fate, ran, rfl⟩
  exact ⟨fuel, fate.settle, executed⟩

end TapeMachine
