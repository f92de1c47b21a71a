import TapeMachine.Proofs.Execution.Lockstep
import TapeMachine.Run.Meaning

/-!
# The executor and the meaning of a program

The meaning of a program goes by recursion on the program and bounds only the rounds of its
loops; the executor walks through it with a stack of open loops. Both have the results that
`Rig.interpretation` gives the program, and so they have the same (`execute_eq_some_iff_block`).
-/

namespace TapeMachine

variable {ι ο η : Type}

theorem Outcome.exists_fate (fate : Fate (Rig ι ο η)) :
    ∃ outcome : Outcome ι ο η, outcome.fate = fate := by
  cases fate with
  | went rig => exact ⟨.went rig, rfl⟩
  | ended ending rig => exact ⟨.ended ending rig, rfl⟩

theorem Outcome.fate_inj {outcome other : Outcome ι ο η} :
    outcome.fate = other.fate ↔ outcome = other := by
  cases outcome <;> cases other <;> simp [fate]

namespace Meaning

/-! ## Bounds -/

/-- Where the one has an outcome, the other has the same. -/
def Extends (weak strong : Rig ι ο η → Option (Outcome ι ο η)) : Prop :=
  ∀ ⦃rig outcome⦄, weak rig = some outcome → strong rig = some outcome

/-- A larger bound changes nothing about an outcome. -/
def Steady (part : Nat → Rig ι ο η → Option (Outcome ι ο η)) : Prop :=
  ∀ ⦃less more⦄, less ≤ more → Extends (part less) (part more)

/-- With bounds that are large enough a part of a program has the outcomes that a relation
has. -/
def Means (part : Nat → Rig ι ο η → Option (Outcome ι ο η))
    (ran : Rig ι ο η → Fate (Rig ι ο η) → Prop) : Prop :=
  ∀ rig outcome, (∃ rounds, part rounds rig = some outcome) ↔ ran rig outcome.fate

theorem Extends.bind {weak strong : Rig ι ο η → Option (Outcome ι ο η)}
    (extended : Extends weak strong) {outcome last : Outcome ι ο η}
    (bound : Meaning.bind outcome weak = some last) : Meaning.bind outcome strong = some last := by
  cases outcome with
  | went rig => exact extended bound
  | ended ending rig => exact bound

variable {first second body : Nat → Rig ι ο η → Option (Outcome ι ο η)}
  {ranFirst ranSecond round : Rig ι ο η → Fate (Rig ι ο η) → Prop}

/-! ## One part after the other -/

/-- One part and then another, unless the first ends the run. -/
def both (first second : Nat → Rig ι ο η → Option (Outcome ι ο η)) (rounds : Nat)
    (rig : Rig ι ο η) : Option (Outcome ι ο η) := do
  let after ← first rounds rig
  bind after (second rounds)

theorem both_eq_some_iff {rounds : Nat} {rig : Rig ι ο η} {last : Outcome ι ο η} :
    both first second rounds rig = some last ↔
      ∃ after, first rounds rig = some after ∧ bind after (second rounds) = some last :=
  Option.bind_eq_some_iff

theorem steady_both (steadyFirst : Steady first) (steadySecond : Steady second) :
    Steady (both first second) := by
  intro less more le rig last bound
  obtain ⟨after, ran, bound⟩ := both_eq_some_iff.1 bound
  exact both_eq_some_iff.2 ⟨after, steadyFirst le ran, (steadySecond le).bind bound⟩

theorem means_both (steadyFirst : Steady first) (steadySecond : Steady second)
    (meansFirst : Means first ranFirst) (meansSecond : Means second ranSecond) :
    Means (both first second) fun rig last =>
      ∃ mid, ranFirst rig mid ∧ mid.Leads ranSecond last := by
  intro rig last
  constructor
  · rintro ⟨rounds, bound⟩
    obtain ⟨after, ran, bound⟩ := both_eq_some_iff.1 bound
    refine ⟨after.fate, (meansFirst rig after).1 ⟨rounds, ran⟩, ?_⟩
    cases after with
    | went next => exact (meansSecond next last).1 ⟨rounds, bound⟩
    | ended ending next => exact congrArg Outcome.fate (Option.some.inj bound).symm
  · rintro ⟨mid, ran, leads⟩
    obtain ⟨after, rfl⟩ := Outcome.exists_fate mid
    obtain ⟨rounds, ran⟩ := (meansFirst rig after).2 ran
    cases after with
    | ended ending next =>
      rw [show last = .ended ending next from Outcome.fate_inj.1 leads]
      exact ⟨rounds, both_eq_some_iff.2 ⟨_, ran, rfl⟩⟩
    | went next =>
      obtain ⟨more, ranSecond⟩ := (meansSecond next last).2 leads
      exact ⟨max rounds more, both_eq_some_iff.2
        ⟨_, steadyFirst (Nat.le_max_left ..) ran, steadySecond (Nat.le_max_right ..) ranSecond⟩⟩

/-! ## Repetition -/

variable [AbortHook η]

/-- What is left of a loop after a round: nothing where the current cell is zero, and otherwise
a poll and more rounds. -/
def resume (body : Rig ι ο η → Option (Outcome ι ο η)) (rounds : Nat) (rig : Rig ι ο η) :
    Option (Outcome ι ο η) :=
  if rig.machine.current = 0 then some (.went rig) else bind rig.poll (repeatBody body rounds)

theorem resume_of_zero (body : Rig ι ο η → Option (Outcome ι ο η)) (rounds : Nat)
    {rig : Rig ι ο η} (zero : rig.machine.current = 0) :
    resume body rounds rig = some (.went rig) :=
  if_pos zero

theorem resume_of_nonzero (body : Rig ι ο η → Option (Outcome ι ο η)) (rounds : Nat)
    {rig : Rig ι ο η} (nonzero : rig.machine.current ≠ 0) :
    resume body rounds rig = bind rig.poll (repeatBody body rounds) :=
  if_neg nonzero

theorem repeatBody_succ (body : Rig ι ο η → Option (Outcome ι ο η)) (rounds : Nat)
    (rig : Rig ι ο η) : repeatBody body (rounds + 1) rig =
      if rig.machine.current = 0 then some (.went rig)
      else (body rig).bind fun after => bind after (resume body rounds) := rfl

theorem extends_resume {weak strong : Rig ι ο η → Option (Outcome ι ο η)} {less more : Nat}
    (extended : Extends (repeatBody weak less) (repeatBody strong more)) :
    Extends (resume weak less) (resume strong more) := by
  intro rig last bound
  by_cases zero : rig.machine.current = 0
  · rwa [resume_of_zero _ _ zero] at bound ⊢
  · rw [resume_of_nonzero _ _ zero] at bound ⊢
    exact extended.bind bound

theorem extends_repeatBody {weak strong : Rig ι ο η → Option (Outcome ι ο η)}
    (extended : Extends weak strong) {less more : Nat} (le : less ≤ more) :
    Extends (repeatBody weak less) (repeatBody strong more) := by
  induction less generalizing more with
  | zero =>
    intro rig last bound
    cases bound
  | succ less ih =>
    intro rig last bound
    obtain ⟨more, rfl⟩ := Nat.exists_eq_add_of_le' le
    rw [← Nat.add_assoc, repeatBody_succ]
    rw [repeatBody_succ] at bound
    split at bound
    · next zero => rwa [if_pos zero]
    · next nonzero =>
      rw [if_neg nonzero]
      obtain ⟨after, ran, bound⟩ := Option.bind_eq_some_iff.1 bound
      exact Option.bind_eq_some_iff.2
        ⟨after, extended ran, (extends_resume (ih (Nat.le_add_left less more))).bind bound⟩

theorem steady_loop (steady : Steady body) :
    Steady fun rounds rig => bind rig.poll (repeatBody (body rounds) rounds) :=
  fun _ _ le _ _ bound => (extends_repeatBody (steady le) le).bind bound

theorem scan_succ (step : Int) (rounds : Nat) (rig : Rig ι ο η) :
    scan step (rounds + 1) rig =
      if rig.machine.current = 0 then some (.went rig)
      else bind rig.poll fun rig => bind (rig.move step) (scan step rounds) := rfl

theorem scan_of_nonzero (step : Int) (rounds : Nat) {rig : Rig ι ο η}
    (nonzero : rig.machine.current ≠ 0) : scan step (rounds + 1) rig =
      bind rig.poll fun rig => bind (rig.move step) (scan step rounds) :=
  if_neg nonzero

theorem extends_scan (step : Int) {less more : Nat} (le : less ≤ more) :
    Extends (scan step less : Rig ι ο η → Option (Outcome ι ο η)) (scan step more) := by
  induction less generalizing more with
  | zero =>
    intro rig last bound
    cases bound
  | succ less ih =>
    intro rig last bound
    obtain ⟨more, rfl⟩ := Nat.exists_eq_add_of_le' le
    rw [← Nat.add_assoc, scan_succ]
    rw [scan_succ] at bound
    split at bound
    · next zero => rwa [if_pos zero]
    · next nonzero =>
      rw [if_neg nonzero]
      refine Extends.bind ?_ bound
      intro polled last bound
      exact (ih (Nat.le_add_left less more)).bind bound

/-- A round that follows a poll that goes through. -/
theorem resume_of_round {bounded : Rig ι ο η → Option (Outcome ι ο η)} {rounds : Nat}
    {rig polled : Rig ι ο η} {after last : Outcome ι ο η} (nonzero : rig.machine.current ≠ 0)
    (poll : rig.poll = .went polled) (ran : bounded polled = some after)
    (more : bind after (resume bounded rounds) = some last) :
    resume bounded (rounds + 1) rig = some last := by
  have stays : polled.machine.current ≠ 0 := by rwa [Rig.machine_of_poll poll]
  rw [resume_of_nonzero _ _ nonzero, poll, bind, repeatBody_succ, if_neg stays, ran]
  exact more

variable [InputSource ι] [OutputSink ο]

theorem repeats_of_resume {bounded : Rig ι ο η → Option (Outcome ι ο η)} {rounds : Nat}
    {rig : Rig ι ο η} {last : Outcome ι ο η}
    (rest : ∀ {t : Rig ι ο η}, t.machine.current ≠ 0 → repeatBody bounded rounds t = some last →
      ∃ mid, round t mid ∧ mid.Leads (Rig.interpretation.Repeats round) last.fate)
    (bound : resume bounded rounds rig = some last) :
    Rig.interpretation.Repeats round rig last.fate := by
  by_cases zero : rig.machine.current = 0
  · rw [resume_of_zero _ _ zero] at bound
    rw [← Option.some.inj bound]
    exact .done zero
  rw [resume_of_nonzero _ _ zero] at bound
  rw [Interpretation.repeats_iff_of_nonzero _ zero, Rig.interpretation_poll]
  cases polled : rig.poll with
  | ended ending t =>
    rw [polled] at bound
    exact congrArg Outcome.fate (Option.some.inj bound).symm
  | went t =>
    rw [polled] at bound
    refine rest ?_ bound
    rwa [Rig.machine_of_poll polled]

/-- A number of rounds of a body that is sound. -/
theorem leads_of_repeatBody {bounded : Rig ι ο η → Option (Outcome ι ο η)}
    (sound : ∀ {rig after}, bounded rig = some after → round rig after.fate) {rounds : Nat}
    {rig : Rig ι ο η} {last : Outcome ι ο η} (nonzero : rig.machine.current ≠ 0)
    (bound : repeatBody bounded rounds rig = some last) :
    ∃ mid, round rig mid ∧ mid.Leads (Rig.interpretation.Repeats round) last.fate := by
  induction rounds generalizing rig with
  | zero => cases bound
  | succ rounds ih =>
    rw [repeatBody_succ, if_neg nonzero] at bound
    obtain ⟨after, ran, bound⟩ := Option.bind_eq_some_iff.1 bound
    refine ⟨after.fate, sound ran, ?_⟩
    cases after with
    | went next => exact repeats_of_resume ih bound
    | ended ending next => exact congrArg Outcome.fate (Option.some.inj bound).symm

theorem exists_resume (steady : Steady body)
    (complete : ∀ {rig} after, round rig after.fate → ∃ rounds, body rounds rig = some after)
    {rig : Rig ι ο η} {fate : Fate (Rig ι ο η)}
    (ran : Rig.interpretation.Repeats round rig fate) :
    ∃ last, last.fate = fate ∧ ∃ rounds, resume (body rounds) rounds rig = some last := by
  induction ran with
  | @done rig zero => exact ⟨.went rig, rfl, 0, resume_of_zero _ _ zero⟩
  | @cut rig t ending nonzero polled =>
    refine ⟨.ended ending t, rfl, 0, ?_⟩
    rw [resume_of_nonzero _ _ nonzero, Outcome.fate_eq_ended.1 polled]
    rfl
  | @failed rig t u ending nonzero polled ran =>
    obtain ⟨rounds, ran⟩ := complete (.ended ending u) ran
    have enough := steady (Nat.le_succ rounds) ran
    exact ⟨.ended ending u, rfl, rounds + 1,
      resume_of_round nonzero (Outcome.fate_eq_went.1 polled) enough rfl⟩
  | @again rig t u fate nonzero polled ran _ ih =>
    obtain ⟨rounds, ran⟩ := complete (.went u) ran
    obtain ⟨last, same, more, resumed⟩ := ih
    -- One bound has to do for this round and for those that follow.
    have enough := steady (Nat.le_succ_of_le (Nat.le_max_left rounds more)) ran
    have left : resume (body (max rounds more + 1)) (max rounds more) u = some last :=
      extends_resume (extends_repeatBody (steady (Nat.le_succ_of_le (Nat.le_max_right rounds more)))
        (Nat.le_max_right rounds more)) resumed
    exact ⟨last, same, _, resume_of_round nonzero (Outcome.fate_eq_went.1 polled) enough left⟩

theorem means_resume (steady : Steady body) (means : Means body round) :
    Means (fun rounds => resume (body rounds) rounds) (Rig.interpretation.Repeats round) := by
  intro rig outcome
  constructor
  · rintro ⟨rounds, bound⟩
    refine repeats_of_resume (leads_of_repeatBody ?_) bound
    intro rig after ran
    exact (means rig after).1 ⟨rounds, ran⟩
  · intro ran
    obtain ⟨last, same, bound⟩ := exists_resume steady (fun _ ran => (means _ _).2 ran) ran
    rwa [Outcome.fate_inj.1 same] at bound

/-! ## Nodes -/

theorem means_loop (steady : Steady body) (means : Means body round) :
    Means (fun rounds rig => bind rig.poll (repeatBody (body rounds) rounds)) fun rig last =>
      (rig.machine.current = 0 ∧ last = rig.poll.fate) ∨
        (rig.machine.current ≠ 0 ∧ Rig.interpretation.Repeats round rig last) := by
  intro rig outcome
  by_cases zero : rig.machine.current = 0
  · simp only [zero, true_and, ne_eq, not_true, false_and, or_false, Outcome.fate_inj]
    cases polled : rig.poll with
    | ended ending t => simp [bind, eq_comm]
    | went t =>
      have stays : t.machine.current = 0 := by rwa [Rig.machine_of_poll polled]
      constructor
      · rintro ⟨_ | rounds, bound⟩
        · cases bound
        · rw [bind, repeatBody_succ, if_pos stays] at bound
          exact (Option.some.inj bound).symm
      · rintro rfl
        exact ⟨1, if_pos stays⟩
  · simp only [zero, false_and, ne_eq, not_false_eq_true, true_and, false_or]
    rw [← means_resume steady means rig outcome]
    simp only [resume_of_nonzero _ _ zero]

theorem repeats_of_scan {step : Int} {rounds : Nat} {rig : Rig ι ο η} {last : Outcome ι ο η}
    (bound : scan step rounds rig = some last) :
    Rig.interpretation.Repeats (fun s last => last = Rig.interpretation.act (.move step) s) rig
      last.fate := by
  induction rounds generalizing rig with
  | zero => cases bound
  | succ rounds ih =>
    by_cases zero : rig.machine.current = 0
    · rw [scan_succ, if_pos zero] at bound
      rw [← Option.some.inj bound]
      exact .done zero
    rw [scan_of_nonzero _ _ zero] at bound
    rw [Interpretation.repeats_iff_of_nonzero _ zero, Rig.interpretation_poll]
    cases polled : rig.poll with
    | ended ending t =>
      rw [polled] at bound
      exact congrArg Outcome.fate (Option.some.inj bound).symm
    | went t =>
      rw [polled] at bound
      refine ⟨(t.move step).fate, rfl, ?_⟩
      change bind (t.move step) _ = _ at bound
      cases moved : t.move step with
      | went u =>
        rw [moved] at bound
        exact ih bound
      | ended ending u =>
        rw [moved] at bound
        exact congrArg Outcome.fate (Option.some.inj bound).symm

theorem exists_scan {step : Int} {rig : Rig ι ο η} {fate : Fate (Rig ι ο η)}
    (ran : Rig.interpretation.Repeats
      (fun s last => last = Rig.interpretation.act (.move step) s) rig fate) :
    ∃ last, last.fate = fate ∧ ∃ rounds, scan step rounds rig = some last := by
  induction ran with
  | @done rig zero => exact ⟨.went rig, rfl, 1, if_pos zero⟩
  | @cut rig t ending nonzero polled =>
    refine ⟨.ended ending t, rfl, 1, ?_⟩
    rw [scan_of_nonzero _ _ nonzero, Outcome.fate_eq_ended.1 polled]
    rfl
  | @failed rig t u ending nonzero polled moved =>
    refine ⟨.ended ending u, rfl, 1, ?_⟩
    have moved' : t.move step = .ended ending u := Outcome.fate_eq_ended.1 moved.symm
    rw [scan_of_nonzero _ _ nonzero, Outcome.fate_eq_went.1 polled, bind, moved']
    rfl
  | @again rig t u fate nonzero polled moved _ ih =>
    obtain ⟨last, same, rounds, scanned⟩ := ih
    refine ⟨last, same, rounds + 1, ?_⟩
    have moved' : t.move step = .went u := Outcome.fate_eq_went.1 moved.symm
    rw [scan_of_nonzero _ _ nonzero, Outcome.fate_eq_went.1 polled, bind, moved']
    exact scanned

theorem means_scan (step : Int) :
    Means (fun rounds (rig : Rig ι ο η) => scan step rounds rig)
      (Rig.interpretation.runsNode (.scanLoop step)) := by
  intro rig outcome
  rw [Interpretation.runsNode_scanLoop]
  constructor
  · rintro ⟨rounds, bound⟩
    exact repeats_of_scan bound
  · intro ran
    obtain ⟨last, same, bound⟩ := exists_scan ran
    rwa [Outcome.fate_inj.1 same] at bound

/-! ## Programs -/

/-- A part of a program computes a relation when it means it and a larger bound changes
nothing. -/
structure Computes (part : Nat → Rig ι ο η → Option (Outcome ι ο η))
    (ran : Rig ι ο η → Fate (Rig ι ο η) → Prop) : Prop where
  steady : Steady part
  means : Means part ran

theorem computes_single {first : Node} (single : first.isSingle = true) :
    Computes (fun rounds (rig : Rig ι ο η) => node rounds first rig)
      (Rig.interpretation.runsNode first) := by
  have acts : ∀ (rounds : Nat) (rig : Rig ι ο η), node rounds first rig = some (rig.act first) := by
    intro rounds rig
    cases first with
    | loop body => cases single
    | scanLoop step => cases single
    | _ => rw [node, Rig.act]
  refine ⟨?_, ?_⟩
  · intro less more le rig outcome bound
    exact (acts more rig).trans ((acts less rig).symm.trans bound)
  · intro rig outcome
    simp only [acts, Interpretation.runsNode_single _ single, Rig.interpretation_act,
      Outcome.fate_inj, Option.some.injEq, exists_const]
    exact eq_comm

theorem computes_cons {first : Node} {rest : Block}
    (computesFirst : Computes (fun rounds (rig : Rig ι ο η) => node rounds first rig)
      (Rig.interpretation.runsNode first))
    (computesRest : Computes (fun rounds (rig : Rig ι ο η) => block rounds rest rig)
      (Rig.interpretation.runs rest)) :
    Computes (fun rounds (rig : Rig ι ο η) => block rounds (first :: rest) rig)
      (Rig.interpretation.runs (first :: rest)) := by
  have parts : (fun rounds (rig : Rig ι ο η) => block rounds (first :: rest) rig) =
      both (fun rounds => node rounds first) fun rounds => block rounds rest := by
    funext rounds rig
    rw [block]
    rfl
  rw [parts]
  refine ⟨steady_both computesFirst.steady computesRest.steady, ?_⟩
  intro rig outcome
  rw [Interpretation.runs_cons]
  exact means_both computesFirst.steady computesRest.steady computesFirst.means
    computesRest.means rig outcome

/-- By induction on the program: what bounds the rounds of its loops bounds those of each part. -/
theorem computes_block (program : Block) :
    Computes (fun rounds (rig : Rig ι ο η) => block rounds program rig)
      (Rig.interpretation.runs program) := by
  induction program using Node.block_induction with
  | nil =>
    refine ⟨fun _ _ _ _ _ bound => bound, ?_⟩
    intro rig outcome
    rw [Interpretation.runs_nil, Outcome.fate_eq_went]
    simp [block, eq_comm]
  | loop body rest ihBody ihRest =>
    refine computes_cons ?_ ihRest
    have rounds : (fun rounds (rig : Rig ι ο η) => node rounds (.loop body) rig) =
        fun rounds rig => bind rig.poll (repeatBody (block rounds body) rounds) := by
      funext rounds rig
      rw [node]
    rw [rounds]
    refine ⟨steady_loop ihBody.steady, ?_⟩
    intro rig outcome
    rw [Interpretation.runsNode_loop]
    exact means_loop ihBody.steady ihBody.means rig outcome
  | single first rest notLoop ihRest =>
    refine computes_cons ?_ ihRest
    cases first with
    | loop body => exact absurd rfl (notLoop body)
    | scanLoop step =>
      have moves : (fun rounds (rig : Rig ι ο η) => node rounds (.scanLoop step) rig) =
          scan step := by
        funext rounds rig
        rw [node]
      rw [moves]
      exact ⟨fun _ _ le => extends_scan step le, means_scan step⟩
    | _ => exact computes_single rfl

end Meaning

/-! ## The executor -/

section Execution

/-- The result of a run of which an outcome is left, with the output flushed. -/
def Outcome.settle [OutputSink ο] : Outcome ι ο η → Ending × Rig ι ο η
  | .went rig => rig.settle .finished
  | .ended ending rig => rig.settle ending

variable [InputSource ι] [OutputSink ο] [AbortHook η]

/-- The executor has the results that the meaning of the program has. -/
theorem execute_eq_some_iff_block {program : Block} {rig : Rig ι ο η}
    {result : Ending × Rig ι ο η} :
    (∃ fuel, execute fuel program rig = some result) ↔
      ∃ rounds outcome, Meaning.block rounds program rig = some outcome ∧
        result = outcome.settle := by
  have means := (Meaning.computes_block program).means rig
  rw [execute_eq_some_iff]
  constructor
  · rintro ⟨fate, ran, rfl⟩
    obtain ⟨outcome, rfl⟩ := Outcome.exists_fate fate
    obtain ⟨rounds, bound⟩ := (means outcome).2 ran
    exact ⟨rounds, outcome, bound, by cases outcome <;> rfl⟩
  · rintro ⟨rounds, outcome, bound, rfl⟩
    exact ⟨outcome.fate, (means outcome).1 ⟨rounds, bound⟩, by cases outcome <;> rfl⟩

end Execution

end TapeMachine
