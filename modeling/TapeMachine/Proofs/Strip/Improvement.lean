import TapeMachine.Proofs.Execution.Straight
import TapeMachine.Proofs.Strip.Basic

/-!
# Improving a program

One program improves another if, run on the same strip, it ends up in the same
state with no more polls whenever the other one goes through, has written at least
as much whenever the other one ends early, and runs forever only if the other one
does. That is what `Improves` says. It is a preorder, and everything programs are
built with keeps it.
-/

namespace TapeMachine.Strip

variable {last : Nat} {allowed : Option Nat}

/-- The strip with another number of polls. -/
def polled (s : Strip last) (polls : Nat) : Strip last :=
  { s with polls }

/-! ## Polls do not matter to actions -/

/-- The fate with another number of polls. -/
def fatePolled (fate : Fate (Strip last)) (polls : Nat) : Fate (Strip last) :=
  match fate with
  | .went s => .went (s.polled polls)
  | .ended ending s => .ended ending (s.polled polls)

theorem act_polled (node : Node) (s : Strip last) (polls : Nat) :
    act node (s.polled polls) = fatePolled (act node s) polls := by
  -- Every action goes to its cells by `access`, which does not look at the polls.
  have access : ∀ (offset : Int) (use : s.Holds offset → Fate (Strip last)),
      (s.polled polls).access offset (fun holds => fatePolled (use holds) polls) =
        fatePolled (s.access offset use) polls := by
    intro offset use
    by_cases holds : s.Holds offset
    · rw [access_of_holds holds, access_of_holds (s := s.polled polls) holds]
    · rw [access_of_not_holds holds, access_of_not_holds (s := s.polled polls) holds]
      rfl
  cases node with
  | mulAt offset into factor =>
    simp only [act]
    rw [← access]
    congr 1
    funext holds
    show (if s.cells (s.cell offset) = 0 then _ else _) = _
    split
    · rfl
    · rw [← access]
      rfl
  | loop | scanLoop => rfl
  | _ =>
    simp only [act]
    rw [← access]
    rfl

theorem perform_polled (block : Block) (s : Strip last) (polls : Nat) :
    (interpretation last allowed).perform block (s.polled polls) =
      fatePolled ((interpretation last allowed).perform block s) polls := by
  induction block generalizing s with
  | nil => rfl
  | cons node rest ih =>
    rw [Interpretation.perform_cons, Interpretation.perform_cons, interpretation_act,
      interpretation_act, act_polled]
    cases act node s with
    | went t => exact ih t
    | ended ending t => rfl

theorem state_fatePolled (fate : Fate (Strip last)) (polls : Nat) :
    (fatePolled fate polls).state = fate.state.polled polls := by
  cases fate <;> rfl

/-! ## Improvement -/

/-- A limit that is exceeded stays so after more polls. -/
theorem fires_mono {less more : Nat} (le : less ≤ more)
    (fires : allowed.any (fun allowed => decide (allowed < less + 1)) = true) :
    allowed.any (fun allowed => decide (allowed < more + 1)) = true := by
  obtain ⟨n, limit, few⟩ := (Option.any_eq_true _ _).1 fires
  have lt := of_decide_eq_true few
  exact (Option.any_eq_true _ _).2 ⟨n, limit, decide_eq_true (by omega)⟩

/-- Strips that differ at most in the number of polls, of which the second one has
no more; and a second run that has written no less than a first one that ended. -/
def improvement (last : Nat) (allowed : Option Nat) :
    Matching (interpretation last allowed) (interpretation last allowed) where
  near s t := ∃ polls ≤ s.polls, t = s.polled polls
  covers _ s fate := s.written <+: fate.state.written
  zero_iff := by
    rintro s t ⟨polls, le, rfl⟩
    exact Iff.rfl
  poll_went := by
    rintro s t u ⟨polls, le, rfl⟩ went
    rw [interpretation_poll, poll] at went
    split at went
    · cases went
    · rename_i quiet
      cases went
      refine ⟨s.polled (polls + 1), ?_, polls + 1, Nat.succ_le_succ le, rfl⟩
      exact if_neg (mt (fires_mono le) quiet)
  poll_ended := by
    rintro s t u ending ⟨polls, le, rfl⟩ ended
    rw [interpretation_poll] at ended
    have kept : u.written = s.written := by rw [← written_of_poll s, ended]; rfl
    rw [kept, interpretation_poll, written_of_poll]
    exact List.prefix_rfl
  poll_stable := by
    intro ending u t covered
    rw [interpretation_poll, state_of_poll]
    exact covered
  act_stable := fun node covered => covered.trans (written_of_act node _)

/-- The second program improves the first. -/
def Improves (last : Nat) (allowed : Option Nat) (p q : Block) : Prop :=
  (improvement last allowed).Refines p q

theorem near_refl (s : Strip last) : (improvement last allowed).near s s :=
  ⟨s.polls, Nat.le_refl _, rfl⟩

theorem improves_refl (block : Block) : Improves last allowed block block := by
  refine Matching.refines_same ?_ block
  rintro node s t ⟨polls, le, rfl⟩
  rw [interpretation_act, interpretation_act, act_polled]
  have same := polls_of_act node s
  cases acted : act node s with
  | went u =>
    rw [acted] at same
    exact ⟨u.polled polls, rfl, polls, same ▸ le, rfl⟩
  | ended ending u => exact List.prefix_rfl

theorem improves_trans {p q r : Block} (first : Improves last allowed p q)
    (second : Improves last allowed q r) : Improves last allowed p r := by
  refine Matching.refines_trans (fun _ => near_refl _) ?_ ?_ first second
  · rintro s _ _ ⟨polls, le, rfl⟩ ⟨polls', le', rfl⟩
    exact ⟨polls', Nat.le_trans le' le, rfl⟩
  · intro ending u a b covered matched
    refine covered.trans ?_
    cases a with
    | went v =>
      obtain ⟨_, rfl, polls, le, rfl⟩ := matched
      exact List.prefix_rfl
    | ended ending' v => exact matched

/-- Straight code improves straight code if it does the same whenever that goes
through, and that writes nothing when it does not. -/
theorem improves_straight {p q : Block} (straight : p.all Node.isSingle = true)
    (straight' : q.all Node.isSingle = true)
    (same : ∀ s u : Strip last, (interpretation last allowed).perform p s = .went u →
      (interpretation last allowed).perform q s = .went u)
    (quiet : ∀ (s u : Strip last) (ending : Ending),
      (interpretation last allowed).perform p s = .ended ending u → u.written = s.written) :
    Improves last allowed p q := by
  refine Matching.refines_straight straight straight' ?_
  rintro s t ⟨polls, le, rfl⟩
  rw [perform_polled]
  have ran := ((interpretation last allowed).runs_straight straight s _).2 rfl
  have ran' := ((interpretation last allowed).runs_straight straight' s _).2 rfl
  have more := polls_of_runs ran
  cases performed : (interpretation last allowed).perform p s with
  | went u =>
    rw [performed] at more
    rw [same s u performed]
    exact ⟨u.polled polls, rfl, polls, Nat.le_trans le more, rfl⟩
  | ended ending u =>
    show u.written <+: (fatePolled _ polls).state.written
    rw [state_fatePolled, quiet s u ending performed]
    exact written_of_runs ran'

end TapeMachine.Strip
