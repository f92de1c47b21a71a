import TapeMachine.Proofs.Execution.Interpretation
import TapeMachine.Run.Execute

/-!
# The executor as an interpretation

The executor walks through a program with an explicit stack of open loops. Under
the interpretation `Rig.interpretation`, whose states are rigs, a block has a
fate exactly when the executor, set to run the block, gets to that fate; so a
whole run is the fate of the program followed by one flush
(`execute_eq_some_iff`). Nothing is assumed of the devices.
-/

namespace TapeMachine

variable {ι ο η : Type}

namespace Outcome

/-- What becomes of a rig, as a fate. -/
def fate : Outcome ι ο η → Fate (Rig ι ο η)
  | .went rig => .went rig
  | .ended ending rig => .ended ending rig

@[simp] theorem fate_eq_went {outcome : Outcome ι ο η} {rig : Rig ι ο η} :
    outcome.fate = .went rig ↔ outcome = .went rig := by
  cases outcome <;> simp [fate]

@[simp] theorem fate_eq_ended {outcome : Outcome ι ο η} {ending : Ending} {rig : Rig ι ο η} :
    outcome.fate = .ended ending rig ↔ outcome = .ended ending rig := by
  cases outcome <;> simp [fate]

end Outcome

/-- A poll does not touch the machine. -/
theorem Rig.machine_of_poll [AbortHook η] {rig next : Rig ι ο η} (polled : rig.poll = .went next) :
    next.machine = rig.machine := by
  obtain ⟨machine, input, output, hook⟩ := rig
  rw [poll] at polled
  split at polled
  · injection polled with same
    rw [← same]
  · cases polled

variable [InputSource ι] [OutputSink ο] [AbortHook η]

namespace Rig

/-- What a node that is neither a loop nor a scan does to a rig. -/
def act (rig : Rig ι ο η) : Node → Outcome ι ο η
  | .addAt offset delta => rig.update offset (· + delta.toUInt8)
  | .setAt offset value => rig.update offset fun _ => value
  | .mulAt offset into factor => rig.multiply offset into factor.toUInt8
  | .move delta => rig.move delta
  | .outputAt offset => rig.write offset
  | .inputAt offset => rig.receive offset
  | .loop _ | .scanLoop _ => .went rig

/-- Programs run on rigs. -/
def interpretation : Interpretation (Rig ι ο η) where
  zero rig := rig.machine.current = 0
  poll rig := rig.poll.fate
  act node rig := (rig.act node).fate

@[simp] theorem interpretation_zero (rig : Rig ι ο η) :
    interpretation.zero rig ↔ rig.machine.current = 0 := Iff.rfl

@[simp] theorem interpretation_poll (rig : Rig ι ο η) :
    interpretation.poll rig = rig.poll.fate := rfl

@[simp] theorem interpretation_act (node : Node) (rig : Rig ι ο η) :
    interpretation.act node rig = (rig.act node).fate := rfl

end Rig

namespace Config

/-- A configuration that some number of steps leads to. -/
inductive Reaches : Config ι ο η → Config ι ο η → Prop
  | refl {config : Config ι ο η} : Reaches config config
  | step {config next last : Config ι ο η} :
      config.step = .next next → Reaches next last → Reaches config last

theorem Reaches.trans {a b c : Config ι ο η} (first : Reaches a b) (more : Reaches b c) :
    Reaches a c := by
  induction first with
  | refl => exact more
  | step stepped _ ih => exact .step stepped (ih more)

/-- Where the run of a configuration gets by the fate of its first part: to the
code after that part, or to its own end. -/
def Meets (config : Config ι ο η) (rest : Block) (loops : List OpenLoop) :
    Fate (Rig ι ο η) → Prop
  | .went rig => Reaches config ⟨rest, loops, rig⟩
  | .ended ending rig => ∃ last, Reaches config last ∧ last.step = .stop ending rig

theorem Meets.of_reaches {config next : Config ι ο η} {rest : Block} {loops : List OpenLoop}
    {fate : Fate (Rig ι ο η)} (reached : Reaches config next) (met : Meets next rest loops fate) :
    Meets config rest loops fate := by
  cases fate with
  | went rig => exact Reaches.trans reached met
  | ended ending rig =>
    obtain ⟨last, more, stopped⟩ := met
    exact ⟨last, reached.trans more, stopped⟩

/-! ## Single steps -/

theorem step_single {node : Node} (single : node.isSingle = true) (rest : Block)
    (loops : List OpenLoop) (rig : Rig ι ο η) :
    step ⟨node :: rest, loops, rig⟩ = (rig.act node).andThen (⟨rest, loops, ·⟩) := by
  cases node with
  | loop body => exact absurd single Bool.false_ne_true
  | scanLoop distance => exact absurd single Bool.false_ne_true
  | _ => rfl

theorem step_loop (body rest : Block) (loops : List OpenLoop) (rig : Rig ι ο η) :
    step ⟨.loop body :: rest, loops, rig⟩ =
      rig.poll.andThen fun rig =>
        if rig.machine.current = 0 then ⟨rest, loops, rig⟩
        else ⟨body, ⟨body, rest⟩ :: loops, rig⟩ := rfl

/-- A poll does not change the cell that a loop looks at, so the order of the two
does not matter. -/
theorem step_loop_eq (body rest : Block) (loops : List OpenLoop) (rig : Rig ι ο η) :
    step ⟨.loop body :: rest, loops, rig⟩ =
      if rig.machine.current = 0 then rig.poll.andThen (⟨rest, loops, ·⟩)
      else rig.poll.andThen (⟨body, ⟨body, rest⟩ :: loops, ·⟩) := by
  rw [step_loop]
  cases polled : rig.poll with
  | went next =>
    simp only [Outcome.andThen, Rig.machine_of_poll polled]
    split <;> rfl
  | ended ending next => simp only [Outcome.andThen, ite_self]

theorem step_scanLoop (distance : Int) (rest : Block) (loops : List OpenLoop)
    (rig : Rig ι ο η) :
    step ⟨.scanLoop distance :: rest, loops, rig⟩ =
      if rig.machine.current = 0 then .next ⟨rest, loops, rig⟩
      else
        match rig.poll with
        | .ended ending rig => .stop ending rig
        | .went rig => (rig.move distance).andThen (⟨.scanLoop distance :: rest, loops, ·⟩) := rfl

theorem step_nil (loop : OpenLoop) (outer : List OpenLoop) (rig : Rig ι ο η) :
    step ⟨[], loop :: outer, rig⟩ =
      if rig.machine.current = 0 then .next ⟨loop.after, outer, rig⟩
      else rig.poll.andThen (⟨loop.body, loop :: outer, ·⟩) := rfl

/-- An action that goes through is one step. -/
theorem meets_of_step {config : Config ι ο η} {outcome : Outcome ι ο η} {rest : Block}
    {loops : List OpenLoop} (stepped : config.step = outcome.andThen (⟨rest, loops, ·⟩)) :
    Meets config rest loops outcome.fate := by
  cases outcome with
  | went rig => exact .step stepped .refl
  | ended ending rig => exact ⟨config, .refl, stepped⟩

/-! ## Every fate is met -/

/-- A configuration that either leaves a loop or polls and starts its body gets to
the fate of the rounds that are left. -/
private theorem meets_of_rounds {body rest : Block} {loops : List OpenLoop}
    (round : ∀ (rig : Rig ι ο η) (fate : Fate (Rig ι ο η)),
      Rig.interpretation.runs body rig fate →
        Meets ⟨body, ⟨body, rest⟩ :: loops, rig⟩ [] (⟨body, rest⟩ :: loops) fate)
    {rig : Rig ι ο η} {fate : Fate (Rig ι ο η)}
    (ran : Rig.interpretation.Repeats (Rig.interpretation.runs body) rig fate)
    {config : Config ι ο η}
    (stepped : config.step =
      if rig.machine.current = 0 then .next ⟨rest, loops, rig⟩
      else rig.poll.andThen (⟨body, ⟨body, rest⟩ :: loops, ·⟩)) :
    Meets config rest loops fate := by
  -- Only the first round starts in front of the loop, all others at the end of its body.
  induction ran generalizing config with
  | @done rig zero =>
    rw [Rig.interpretation_zero] at zero
    rw [if_pos zero] at stepped
    exact .step stepped .refl
  | @cut rig t ending nonzero polled =>
    rw [Rig.interpretation_zero] at nonzero
    rw [Rig.interpretation_poll, Outcome.fate_eq_ended] at polled
    rw [if_neg nonzero, polled] at stepped
    exact ⟨config, .refl, stepped⟩
  | @failed rig t u ending nonzero polled ran =>
    rw [Rig.interpretation_zero] at nonzero
    rw [Rig.interpretation_poll, Outcome.fate_eq_went] at polled
    rw [if_neg nonzero, polled] at stepped
    obtain ⟨last, more, stopped⟩ := round t _ ran
    exact ⟨last, .step stepped more, stopped⟩
  | @again rig t u last nonzero polled ran _ ih =>
    rw [Rig.interpretation_zero] at nonzero
    rw [Rig.interpretation_poll, Outcome.fate_eq_went] at polled
    rw [if_neg nonzero, polled] at stepped
    exact Meets.of_reaches (.step stepped (round t _ ran)) (ih (step_nil ⟨body, rest⟩ loops u))

/-- The executor gets to the fate of a loop in front of the code. -/
private theorem meets_of_loop {body rest : Block} {loops : List OpenLoop}
    (round : ∀ (rig : Rig ι ο η) (fate : Fate (Rig ι ο η)),
      Rig.interpretation.runs body rig fate →
        Meets ⟨body, ⟨body, rest⟩ :: loops, rig⟩ [] (⟨body, rest⟩ :: loops) fate)
    {rig : Rig ι ο η} {fate : Fate (Rig ι ο η)}
    (ran : Rig.interpretation.runsNode (.loop body) rig fate) :
    Meets ⟨.loop body :: rest, loops, rig⟩ rest loops fate := by
  rcases (Interpretation.runsNode_loop ..).1 ran with ⟨zero, rfl⟩ | ⟨nonzero, repeated⟩
  · rw [Rig.interpretation_zero] at zero
    refine meets_of_step ?_
    rw [step_loop_eq, if_pos zero]
  · rw [Rig.interpretation_zero] at nonzero
    refine meets_of_rounds round repeated ?_
    rw [step_loop_eq, if_neg nonzero, if_neg nonzero]

/-- The executor gets to the fate of a scan in front of the code. -/
private theorem meets_of_scan {distance : Int} {rest : Block} {loops : List OpenLoop}
    {rig : Rig ι ο η} {fate : Fate (Rig ι ο η)}
    (ran : Rig.interpretation.runsNode (.scanLoop distance) rig fate) :
    Meets ⟨.scanLoop distance :: rest, loops, rig⟩ rest loops fate := by
  rw [Interpretation.runsNode_scanLoop] at ran
  induction ran with
  | @done rig zero =>
    refine .step ?_ .refl
    rw [step_scanLoop, if_pos ((Rig.interpretation_zero rig).1 zero)]
  | @cut rig t ending nonzero polled =>
    rw [Rig.interpretation_zero] at nonzero
    rw [Rig.interpretation_poll, Outcome.fate_eq_ended] at polled
    refine ⟨_, .refl, ?_⟩
    rw [step_scanLoop, if_neg nonzero, polled]
  | @failed rig t u ending nonzero polled moved =>
    rw [Rig.interpretation_zero] at nonzero
    rw [Rig.interpretation_poll, Outcome.fate_eq_went] at polled
    rw [Rig.interpretation_act, eq_comm, Outcome.fate_eq_ended, Rig.act] at moved
    refine ⟨_, .refl, ?_⟩
    rw [step_scanLoop, if_neg nonzero, polled]
    simp only [moved, Outcome.andThen]
  | @again rig t u last nonzero polled moved _ ih =>
    rw [Rig.interpretation_zero] at nonzero
    rw [Rig.interpretation_poll, Outcome.fate_eq_went] at polled
    rw [Rig.interpretation_act, eq_comm, Outcome.fate_eq_went, Rig.act] at moved
    refine Meets.of_reaches (.step ?_ .refl) ih
    rw [step_scanLoop, if_neg nonzero, polled]
    simp only [moved, Outcome.andThen]

/-- A node that meets its fate, followed by nodes that meet theirs. -/
private theorem meets_of_cons {node : Node} {later rest : Block} {loops : List OpenLoop}
    {rig : Rig ι ο η} {fate : Fate (Rig ι ο η)}
    (head : ∀ first : Fate (Rig ι ο η), Rig.interpretation.runsNode node rig first →
      Meets ⟨node :: (later ++ rest), loops, rig⟩ (later ++ rest) loops first)
    (tail : ∀ (t : Rig ι ο η) (last : Fate (Rig ι ο η)), Rig.interpretation.runs later t last →
      Meets ⟨later ++ rest, loops, t⟩ rest loops last)
    (ran : Rig.interpretation.runs (node :: later) rig fate) :
    Meets ⟨node :: later ++ rest, loops, rig⟩ rest loops fate := by
  obtain ⟨first, ranFirst, leads⟩ := (Interpretation.runs_cons ..).1 ran
  cases first with
  | went t => exact Meets.of_reaches (head _ ranFirst) (tail t fate leads)
  | ended ending t =>
    rw [Fate.leads_ended] at leads
    exact leads ▸ head _ ranFirst

/-- The executor, set to run a block and then more, gets to every fate of the
block. -/
theorem meets_of_runs {block : Block} {rig : Rig ι ο η} {fate : Fate (Rig ι ο η)}
    (ran : Rig.interpretation.runs block rig fate) (rest : Block) (loops : List OpenLoop) :
    Meets ⟨block ++ rest, loops, rig⟩ rest loops fate := by
  induction block using Node.block_induction generalizing rig fate rest loops with
  | nil =>
    rw [Interpretation.runs_nil] at ran
    rw [ran]
    exact .refl
  | loop body later ihBody ihLater =>
    refine meets_of_cons (fun first ran => meets_of_loop (fun t last ranBody => ?_) ran)
      (fun t last ran => ihLater ran rest loops) ran
    have met := ihBody ranBody [] (⟨body, later ++ rest⟩ :: loops)
    rwa [List.append_nil] at met
  | single node later notLoop ihLater =>
    refine meets_of_cons (fun first ran => ?_) (fun t last ran => ihLater ran rest loops) ran
    cases node with
    | loop body => exact absurd rfl (notLoop body)
    | scanLoop distance => exact meets_of_scan ran
    | _ =>
      rw [Interpretation.runsNode_single _ rfl, Rig.interpretation_act] at ran
      rw [ran]
      exact meets_of_step (step_single rfl ..)

/-! ## Nothing else is met -/

theorem run_succ (fuel : Nat) (config : Config ι ο η) :
    run (fuel + 1) config =
      match config.step with
      | .next config => run fuel config
      | .stop ending rig => some (ending, rig) := rfl

/-- How a run of the executor relates to a fate of the first part of its code: it
ends with that part, or goes on behind it with no more fuel. -/
def Splits (fuel : Nat) (rest : Block) (loops : List OpenLoop) (result : Ending × Rig ι ο η) :
    Fate (Rig ι ο η) → Prop
  | .went rig => ∃ left ≤ fuel, run left ⟨rest, loops, rig⟩ = some result
  | .ended ending rig => result = (ending, rig)

theorem Splits.mono {less more : Nat} (le : less ≤ more) {rest : Block} {loops : List OpenLoop}
    {result : Ending × Rig ι ο η} {fate : Fate (Rig ι ο η)}
    (splits : Splits less rest loops result fate) : Splits more rest loops result fate := by
  cases fate with
  | went rig =>
    obtain ⟨left, within, ran⟩ := splits
    exact ⟨left, Nat.le_trans within le, ran⟩
  | ended ending rig => exact splits

/-- A poll or an action in front of a run: either it ends the run, or less fuel is
left for what follows. -/
private theorem splits_of_step {fuel : Nat} {config : Config ι ο η} {outcome : Outcome ι ο η}
    {proceed : Rig ι ο η → Config ι ο η} {result : Ending × Rig ι ο η}
    (stepped : config.step = outcome.andThen proceed)
    (ran : run (fuel + 1) config = some result) :
    (∃ rig, outcome = .went rig ∧ run fuel (proceed rig) = some result) ∨
      ∃ ending rig, outcome = .ended ending rig ∧ result = (ending, rig) := by
  rw [run_succ, stepped] at ran
  cases outcome with
  | went rig => exact .inl ⟨rig, rfl, ran⟩
  | ended ending rig => exact .inr ⟨ending, rig, rfl, (Option.some.inj ran).symm⟩

/-- A node that is neither a loop nor a scan, in front of a run. -/
private theorem splits_single {node : Node} (single : node.isSingle = true) {fuel : Nat}
    {code : Block} {loops : List OpenLoop} {rig : Rig ι ο η} {result : Ending × Rig ι ο η}
    (ran : run (fuel + 1) ⟨node :: code, loops, rig⟩ = some result) :
    ∃ fate, Rig.interpretation.runsNode node rig fate ∧ Splits fuel code loops result fate := by
  refine ⟨(rig.act node).fate, (Interpretation.runsNode_single _ single ..).2 rfl, ?_⟩
  rcases splits_of_step (step_single single code loops rig) ran with
    ⟨t, acted, ran⟩ | ⟨ending, t, acted, same⟩
  · rw [acted]
    exact ⟨fuel, Nat.le_refl fuel, ran⟩
  · rw [acted]
    exact same

/-- A scan in front of a run. -/
private theorem splits_scan {distance : Int} {code : Block} {loops : List OpenLoop}
    {result : Ending × Rig ι ο η} :
    ∀ (fuel : Nat) (rig : Rig ι ο η),
      run (fuel + 1) ⟨.scanLoop distance :: code, loops, rig⟩ = some result →
        ∃ fate, Rig.interpretation.runsNode (.scanLoop distance) rig fate ∧
          Splits fuel code loops result fate := by
  intro fuel
  -- A move leaves the scan in front of the code, and less fuel.
  induction fuel using Nat.strongRecOn with
  | ind fuel ih =>
    intro rig ran
    rw [run_succ, step_scanLoop] at ran
    simp only [Interpretation.runsNode_scanLoop] at ih ⊢
    by_cases zero : rig.machine.current = 0
    · rw [if_pos zero] at ran
      exact ⟨.went rig, .done zero, fuel, Nat.le_refl fuel, ran⟩
    rw [if_neg zero] at ran
    cases polled : rig.poll with
    | ended ending t =>
      simp only [polled, Option.some.injEq] at ran
      exact ⟨.ended ending t, .cut zero (by simpa using polled), ran.symm⟩
    | went t =>
      simp only [polled] at ran
      cases moved : t.move distance with
      | ended ending u =>
        simp only [moved, Outcome.andThen, Option.some.injEq] at ran
        exact ⟨.ended ending u,
          .failed zero (by simpa using polled) (by simp [Rig.act, moved, Outcome.fate]), ran.symm⟩
      | went u =>
        simp only [moved, Outcome.andThen] at ran
        obtain _ | less := fuel
        · cases ran
        obtain ⟨fate, repeated, split⟩ := ih less (Nat.lt_succ_self less) u ran
        exact ⟨fate,
          .again zero (by simpa using polled) (by simp [Rig.act, moved, Outcome.fate]) repeated,
          split.mono (Nat.le_succ less)⟩

/-- If runs with little fuel split at the end of a loop's body, then a run of its
rounds splits at the end of the loop. -/
private theorem splits_rounds {body rest : Block} {loops : List OpenLoop}
    {result : Ending × Rig ι ο η} (bound : Nat)
    (splits : ∀ fuel < bound, ∀ rig : Rig ι ο η,
      run fuel ⟨body, ⟨body, rest⟩ :: loops, rig⟩ = some result →
        ∃ fate, Rig.interpretation.runs body rig fate ∧
          Splits fuel [] (⟨body, rest⟩ :: loops) result fate) :
    ∀ fuel < bound, ∀ (rig : Rig ι ο η) (config : Config ι ο η),
      (config.step =
        if rig.machine.current = 0 then .next ⟨rest, loops, rig⟩
        else rig.poll.andThen (⟨body, ⟨body, rest⟩ :: loops, ·⟩)) →
      run (fuel + 1) config = some result →
        ∃ fate, Rig.interpretation.Repeats (Rig.interpretation.runs body) rig fate ∧
          Splits fuel rest loops result fate := by
  intro fuel
  -- A round may take any number of steps, so the induction is on all smaller amounts of fuel.
  induction fuel using Nat.strongRecOn with
  | ind fuel ih =>
    intro within rig config stepped ran
    by_cases zero : rig.machine.current = 0
    · rw [if_pos zero] at stepped
      rw [run_succ, stepped] at ran
      exact ⟨.went rig, .done zero, fuel, Nat.le_refl fuel, ran⟩
    rw [if_neg zero] at stepped
    rcases splits_of_step stepped ran with ⟨t, polled, ran⟩ | ⟨ending, t, polled, rfl⟩
    · obtain ⟨fate, ranBody, split⟩ := splits fuel within t ran
      cases fate with
      | went u =>
        obtain ⟨less, le, ran⟩ := split
        obtain _ | less := less
        · cases ran
        obtain ⟨last, repeated, split⟩ :=
          ih less (by omega) (by omega) u _ (step_nil ⟨body, rest⟩ loops u) ran
        exact ⟨last, .again zero (by simpa using polled) ranBody repeated, split.mono (by omega)⟩
      | ended ending u =>
        exact ⟨.ended ending u, .failed zero (by simpa using polled) ranBody, split⟩
    · exact ⟨.ended ending t, .cut zero (by simpa using polled), rfl⟩

/-- A loop in front of a run. -/
private theorem splits_loop {body code : Block} {loops : List OpenLoop} {fuel : Nat}
    {rig : Rig ι ο η} {result : Ending × Rig ι ο η}
    (splits : ∀ less ≤ fuel, ∀ rig : Rig ι ο η,
      run less ⟨body, ⟨body, code⟩ :: loops, rig⟩ = some result →
        ∃ fate, Rig.interpretation.runs body rig fate ∧
          Splits less [] (⟨body, code⟩ :: loops) result fate)
    (ran : run (fuel + 1) ⟨.loop body :: code, loops, rig⟩ = some result) :
    ∃ fate, Rig.interpretation.runsNode (.loop body) rig fate ∧
      Splits fuel code loops result fate := by
  have stepped := step_loop_eq body code loops rig
  by_cases zero : rig.machine.current = 0
  · rw [if_pos zero] at stepped
    refine ⟨rig.poll.fate, (Interpretation.runsNode_loop ..).2 (.inl ⟨zero, rfl⟩), ?_⟩
    rcases splits_of_step stepped ran with ⟨t, polled, ran⟩ | ⟨ending, t, polled, same⟩
    · rw [polled]
      exact ⟨fuel, Nat.le_refl fuel, ran⟩
    · rw [polled]
      exact same
  · rw [if_neg zero] at stepped
    obtain ⟨fate, repeated, split⟩ :=
      splits_rounds (fuel + 1) (fun less lt => splits less (Nat.le_of_lt_succ lt)) fuel
        (Nat.lt_succ_self fuel) rig _ (by rw [stepped, if_neg zero]) ran
    exact ⟨fate, (Interpretation.runsNode_loop ..).2 (.inr ⟨zero, repeated⟩), split⟩

/-- A run from a block and more code splits at the end of the block. -/
theorem splits_of_run {result : Ending × Rig ι ο η} :
    ∀ (fuel : Nat) (block rest : Block) (loops : List OpenLoop) (rig : Rig ι ο η),
      run fuel ⟨block ++ rest, loops, rig⟩ = some result →
        ∃ fate, Rig.interpretation.runs block rig fate ∧ Splits fuel rest loops result fate := by
  intro fuel
  -- The fuel falls with every node, and a block without nodes needs none.
  induction fuel using Nat.strongRecOn with
  | ind fuel ih =>
    intro block rest loops rig ran
    obtain _ | ⟨node, later⟩ := block
    · exact ⟨.went rig, by simp, fuel, Nat.le_refl fuel, ran⟩
    obtain _ | left := fuel
    · cases ran
    rw [List.cons_append] at ran
    have head : ∃ first, Rig.interpretation.runsNode node rig first ∧
        Splits left (later ++ rest) loops result first := by
      cases node with
      | loop body =>
        refine splits_loop (fun less le t ran => ih less (by omega) body [] _ t ?_) ran
        rwa [List.append_nil]
      | scanLoop distance => exact splits_scan left rig ran
      | _ => exact splits_single rfl ran
    obtain ⟨first, ranNode, split⟩ := head
    cases first with
    | went t =>
      obtain ⟨less, le, ran⟩ := split
      obtain ⟨fate, ranLater, split⟩ := ih less (by omega) later rest loops t ran
      exact ⟨fate, (Interpretation.runs_cons ..).2 ⟨.went t, ranNode, ranLater⟩,
        split.mono (by omega)⟩
    | ended ending t =>
      exact ⟨_, (Interpretation.runs_cons ..).2 ⟨_, ranNode, rfl⟩, split⟩

theorem run_of_reaches {config next : Config ι ο η} {result : Ending × Rig ι ο η} {fuel : Nat}
    (reached : Reaches config next) (ran : run fuel next = some result) :
    ∃ fuel, run fuel config = some result := by
  induction reached with
  | refl => exact ⟨fuel, ran⟩
  | step stepped _ ih =>
    obtain ⟨more, ran⟩ := ih ran
    refine ⟨more + 1, ?_⟩
    rw [run_succ, stepped]
    exact ran

end Config

/-! ## Whole runs -/

/-- How a run ends whose program has a given fate, and the rig that it leaves. -/
def Fate.result : Fate (Rig ι ο η) → Ending × Rig ι ο η
  | .went rig => (.finished, rig)
  | .ended ending rig => (ending, rig)

/-- Running a program gives the fate of the program. -/
theorem Config.run_eq_some_iff {program : Block} {rig : Rig ι ο η}
    {result : Ending × Rig ι ο η} :
    (∃ fuel, run fuel ⟨program, [], rig⟩ = some result) ↔
      ∃ fate, Rig.interpretation.runs program rig fate ∧ result = fate.result := by
  constructor
  · rintro ⟨fuel, ran⟩
    rw [← List.append_nil program] at ran
    obtain ⟨fate, ranProgram, split⟩ := splits_of_run fuel program [] [] rig ran
    refine ⟨fate, ranProgram, ?_⟩
    cases fate with
    | went t =>
      -- There is no code behind the program, so the next step is the last.
      obtain ⟨left, _, ran⟩ := split
      obtain _ | left := left
      · cases ran
      · cases Option.some.inj ran
        rfl
    | ended e t => exact split
  · rintro ⟨fate, ran, rfl⟩
    have met := meets_of_runs ran [] []
    rw [List.append_nil] at met
    cases fate with
    | went t =>
      have done : run 1 ⟨[], [], t⟩ = some (.finished, t) := rfl
      exact run_of_reaches met done
    | ended ending t =>
      obtain ⟨last, reached, stopped⟩ := met
      have done : run 1 last = some (ending, t) := by rw [run_succ, stopped]
      exact run_of_reaches reached done

/-- The result of a run whose program has a given fate. -/
def Fate.settle : Fate (Rig ι ο η) → Ending × Rig ι ο η
  | .went rig => rig.settle .finished
  | .ended ending rig => rig.settle ending

omit [InputSource ι] [AbortHook η] in
theorem Fate.settle_eq (fate : Fate (Rig ι ο η)) :
    fate.settle = fate.result.2.settle fate.result.1 := by
  cases fate <;> rfl

/-- Executing a program is running it and then flushing the output. -/
theorem execute_eq_some_iff_run {program : Block} {rig : Rig ι ο η}
    {result : Ending × Rig ι ο η} :
    (∃ fuel, execute fuel program rig = some result) ↔
      ∃ fuel ending stopped, Config.run fuel ⟨program, [], rig⟩ = some (ending, stopped) ∧
        result = stopped.settle ending := by
  constructor
  · rintro ⟨fuel, executed⟩
    obtain ⟨⟨ending, stopped⟩, ran, rfl⟩ := Option.map_eq_some_iff.1 executed
    exact ⟨fuel, ending, stopped, ran, rfl⟩
  · rintro ⟨fuel, ending, stopped, ran, rfl⟩
    exact ⟨fuel, Option.map_eq_some_iff.2 ⟨_, ran, rfl⟩⟩

/-- Executing a program gives the fate of the program, with the output flushed. -/
theorem execute_eq_some_iff {program : Block} {rig : Rig ι ο η}
    {result : Ending × Rig ι ο η} :
    (∃ fuel, execute fuel program rig = some result) ↔
      ∃ fate, Rig.interpretation.runs program rig fate ∧ result = fate.settle := by
  rw [execute_eq_some_iff_run]
  constructor
  · rintro ⟨fuel, ending, stopped, ran, rfl⟩
    obtain ⟨fate, ranProgram, same⟩ := Config.run_eq_some_iff.1 ⟨fuel, ran⟩
    refine ⟨fate, ranProgram, ?_⟩
    rw [fate.settle_eq, ← same]
  · rintro ⟨fate, ranProgram, rfl⟩
    obtain ⟨fuel, ran⟩ := Config.run_eq_some_iff.2 ⟨fate, ranProgram, rfl⟩
    exact ⟨fuel, _, _, ran, fate.settle_eq⟩

/-- A program has at most one result. -/
theorem execute_functional {program : Block} {rig : Rig ι ο η} {fuel fuel' : Nat}
    {result result' : Ending × Rig ι ο η} (executed : execute fuel program rig = some result)
    (executed' : execute fuel' program rig = some result') : result = result' := by
  obtain ⟨fate, ran, rfl⟩ := execute_eq_some_iff.1 ⟨fuel, executed⟩
  obtain ⟨fate', ran', rfl⟩ := execute_eq_some_iff.1 ⟨fuel', executed'⟩
  rw [Rig.interpretation.runs_functional program rig fate fate' ran ran']

end TapeMachine
