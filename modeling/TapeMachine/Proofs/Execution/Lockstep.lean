import TapeMachine.Proofs.Execution.Steps

/-!
# Runs in lockstep

One program on two rigs whose devices answer alike goes through the same code on both, step by
step. `Lockstep` says that a relation between configurations is kept by their steps; then one
run gets wherever the other does, after the same number of steps. The first run may also end in
a way that is spared: of the second run nothing is asked then, and it can go on.
-/

namespace TapeMachine

variable {ι ο η ι' ο' η' : Type}

/-- Results that correspond do so in any weaker way too. -/
theorem rel_imp {α β : Type} {strong weak : α → β → Prop} {result : Option α} {other : Option β}
    (implies : ∀ {a b}, strong a b → weak a b) (rel : Option.Rel strong result other) :
    Option.Rel weak result other := by
  cases rel with
  | none => exact .none
  | some both => exact .some (implies both)

theorem exists_of_rel_left {α β : Type} {rel : α → β → Prop} {a : α} {other : Option β}
    (both : Option.Rel rel (some a) other) : ∃ b, other = some b ∧ rel a b := by
  cases both with
  | some related => exact ⟨_, rfl, related⟩

theorem exists_of_rel_right {α β : Type} {rel : α → β → Prop} {result : Option α} {b : β}
    (both : Option.Rel rel result (some b)) : ∃ a, result = some a ∧ rel a b := by
  cases both with
  | some related => exact ⟨_, rfl, related⟩

/-! ## Single steps -/

/-- What becomes of one rig becomes of the other, unless the first ends in a way that is
spared. -/
def Outcome.MirroredBy (near : Rig ι ο η → Rig ι' ο' η' → Prop) (spared : Ending → Prop) :
    Outcome ι ο η → Outcome ι' ο' η' → Prop
  | .went rig, other => ∃ rig', other = .went rig' ∧ near rig rig'
  | .ended ending rig, other =>
    spared ending ∨ ∃ rig', other = .ended ending rig' ∧ near rig rig'

/-- What one step leads to is what the other leads to, unless the first stops in a way that is
spared. -/
def Progress.MirroredBy (related : Config ι ο η → Config ι' ο' η' → Prop)
    (near : Rig ι ο η → Rig ι' ο' η' → Prop) (spared : Ending → Prop) :
    Progress ι ο η → Progress ι' ο' η' → Prop
  | .next config, other => ∃ config', other = .next config' ∧ related config config'
  | .stop ending rig, other =>
    spared ending ∨ ∃ rig', other = .stop ending rig' ∧ near rig rig'

section Steps

variable {related : Config ι ο η → Config ι' ο' η' → Prop}
  {near : Rig ι ο η → Rig ι' ο' η' → Prop} {spared : Ending → Prop}

theorem Outcome.MirroredBy.andThen {outcome : Outcome ι ο η} {other : Outcome ι' ο' η'}
    (mirrored : outcome.MirroredBy near spared other) {proceed : Rig ι ο η → Config ι ο η}
    {proceed' : Rig ι' ο' η' → Config ι' ο' η'}
    (next : ∀ {rig rig'}, near rig rig' → related (proceed rig) (proceed' rig')) :
    (outcome.andThen proceed).MirroredBy related near spared (other.andThen proceed') := by
  cases outcome with
  | went rig =>
    obtain ⟨rig', rfl, nearby⟩ := mirrored
    exact ⟨_, rfl, next nearby⟩
  | ended ending rig =>
    rcases mirrored with exempt | ⟨rig', rfl, nearby⟩
    · exact .inl exempt
    · exact .inr ⟨rig', rfl, nearby⟩

namespace Config

/-- Two runs stand at the same place in their code. -/
def Beside (near : Rig ι ο η → Rig ι' ο' η' → Prop) (config : Config ι ο η)
    (other : Config ι' ο' η') : Prop :=
  other.code = config.code ∧ other.loops = config.loops ∧ near config.rig other.rig

theorem beside_of_near {code : Block} {loops : List OpenLoop} {rig : Rig ι ο η}
    {rig' : Rig ι' ο' η'} (nearby : near rig rig') :
    Beside near ⟨code, loops, rig⟩ ⟨code, loops, rig'⟩ :=
  ⟨rfl, rfl, nearby⟩

/-- The next step polls: it is in front of a loop, at the end of the body of a loop that goes
on, or in a scan that goes on. -/
def Polls (config : Config ι ο η) : Prop :=
  match config.code, config.loops with
  | .loop _ :: _, _ => True
  | .scanLoop _ :: _, _ | [], _ :: _ => config.rig.machine.current ≠ 0
  | _, _ => False

/-- Runs that stand at the same place poll together. -/
theorem Beside.polls {config : Config ι ο η} {other : Config ι' ο' η'}
    (beside : config.Beside near other)
    (current : ∀ {rig rig'}, near rig rig' → rig'.machine.current = rig.machine.current)
    (polls : config.Polls) : other.Polls := by
  obtain ⟨code, loops, nearby⟩ := beside
  unfold Polls at polls ⊢
  rwa [code, loops, current nearby]

variable [InputSource ι] [OutputSink ο] [AbortHook η] [InputSource ι'] [OutputSink ο']
  [AbortHook η']

/-- A step goes alike on two rigs if polls and actions do. -/
theorem step_mirrored
    (current : ∀ {rig rig'}, near rig rig' → rig'.machine.current = rig.machine.current)
    (act : ∀ (node : Node) {rig rig'}, near rig rig' →
      (rig.act node).MirroredBy near spared (rig'.act node))
    {config : Config ι ο η} {other : Config ι' ο' η'} (beside : config.Beside near other)
    (poll : config.Polls → config.rig.poll.MirroredBy near spared other.rig.poll) :
    config.step.MirroredBy (Beside near) near spared other.step := by
  obtain ⟨code, loops, rig⟩ := config
  obtain ⟨code', loops', rig'⟩ := other
  obtain ⟨rfl, rfl, nearby⟩ := beside
  obtain _ | ⟨node, rest⟩ := code'
  · obtain _ | ⟨loop, outer⟩ := loops'
    · exact .inr ⟨rig', rfl, nearby⟩
    rw [step_nil, step_nil, current nearby]
    split
    · exact ⟨_, rfl, beside_of_near nearby⟩
    · next nonzero => exact (poll nonzero).andThen beside_of_near
  cases single : node.isSingle with
  | true =>
    rw [step_single single, step_single single]
    exact (act node nearby).andThen beside_of_near
  | false =>
    cases node with
    | loop body =>
      rw [step_loop, step_loop]
      refine (poll trivial).andThen fun {polled polled'} nearby => ?_
      rw [current nearby]
      split
      · exact beside_of_near nearby
      · exact beside_of_near nearby
    | scanLoop distance =>
      rw [step_scanLoop, step_scanLoop, current nearby]
      split
      · exact ⟨_, rfl, beside_of_near nearby⟩
      · next nonzero =>
        have mirrored := poll nonzero
        cases polled : rig.poll with
        | went after =>
          rw [polled] at mirrored
          obtain ⟨after', polled', nearby⟩ := mirrored
          simp only [polled']
          exact (act (.move distance) nearby).andThen beside_of_near
        | ended ending after =>
          rw [polled] at mirrored
          rcases mirrored with exempt | ⟨after', polled', nearby⟩
          · exact .inl exempt
          · simp only [polled']
            exact .inr ⟨after', rfl, nearby⟩
    | _ => cases single

end Config

end Steps

/-! ## Runs -/

section Runs

variable [InputSource ι] [OutputSink ο] [AbortHook η] [InputSource ι'] [OutputSink ο']
  [AbortHook η']

/-- Related configurations lead to related ones, and to the same ending unless that is
spared. -/
def Lockstep (related : Config ι ο η → Config ι' ο' η' → Prop)
    (near : Rig ι ο η → Rig ι' ο' η' → Prop) (spared : Ending → Prop) : Prop :=
  ∀ ⦃config other⦄, related config other →
    config.step.MirroredBy related near spared other.step

namespace Lockstep

variable {related : Config ι ο η → Config ι' ο' η' → Prop}
  {near : Rig ι ο η → Rig ι' ο' η' → Prop} {spared : Ending → Prop}
  {config : Config ι ο η} {other : Config ι' ο' η'}

/-- If polls and actions go alike on rigs that are near, then so do runs, provided that
something holds of the second one that its steps keep. -/
theorem of_rigs {good : Config ι' ο' η' → Prop}
    (kept : ∀ {config next}, good config → config.step = .next next → good next)
    (current : ∀ {rig rig'}, near rig rig' → rig'.machine.current = rig.machine.current)
    (act : ∀ (node : Node) {rig rig'}, near rig rig' →
      (rig.act node).MirroredBy near spared (rig'.act node))
    (poll : ∀ {config : Config ι ο η} {other : Config ι' ο' η'}, config.Beside near other →
      good other → config.Polls → config.rig.poll.MirroredBy near spared other.rig.poll) :
    Lockstep (fun config other => config.Beside near other ∧ good other) near spared := by
  rintro config other ⟨beside, fine⟩
  have mirrored := Config.step_mirrored current act beside (poll beside fine)
  cases stepped : config.step with
  | next next =>
    rw [stepped] at mirrored
    obtain ⟨next', stepped', beside'⟩ := mirrored
    exact ⟨next', stepped', beside', kept fine stepped'⟩
  | stop ending rig =>
    rw [stepped] at mirrored
    exact mirrored

theorem reaches (lockstep : Lockstep related near spared) {last : Config ι ο η}
    (reached : config.Reaches last) (start : related config other) :
    ∃ last', other.Reaches last' ∧ related last last' := by
  induction reached generalizing other with
  | refl => exact ⟨other, .refl, start⟩
  | step stepped _ ih =>
    have mirrored := lockstep start
    rw [stepped] at mirrored
    obtain ⟨next', stepped', start'⟩ := mirrored
    obtain ⟨last', reached', related'⟩ := ih start'
    exact ⟨last', .step stepped' reached', related'⟩

theorem run (lockstep : Lockstep related near spared) {fuel : Nat} {ending : Ending}
    {after : Rig ι ο η} (ran : config.run fuel = some (ending, after))
    (start : related config other) :
    spared ending ∨ ∃ after', other.run fuel = some (ending, after') ∧ near after after' := by
  induction fuel generalizing config other with
  | zero => cases ran
  | succ fuel ih =>
    rw [Config.run_succ] at ran
    have mirrored := lockstep start
    cases stepped : config.step with
    | next next =>
      simp only [stepped] at ran mirrored
      obtain ⟨next', stepped', start'⟩ := mirrored
      rw [Config.run_succ, stepped']
      exact ih ran start'
    | stop ended rig =>
      simp only [stepped, Option.some.injEq, Prod.mk.injEq] at ran mirrored
      obtain ⟨rfl, rfl⟩ := ran
      rcases mirrored with exempt | ⟨rig', stepped', nearby⟩
      · exact .inl exempt
      · rw [Config.run_succ, stepped']
        exact .inr ⟨rig', rfl, nearby⟩

/-- As long as the first run has not ended, the second one has not either. -/
theorem run_eq_none (lockstep : Lockstep related near spared) {fuel : Nat}
    (ran : config.run fuel = none) (start : related config other) : other.run fuel = none := by
  induction fuel generalizing config other with
  | zero => rfl
  | succ fuel ih =>
    rw [Config.run_succ] at ran
    have mirrored := lockstep start
    cases stepped : config.step with
    | next next =>
      simp only [stepped] at ran mirrored
      obtain ⟨next', stepped', start'⟩ := mirrored
      rw [Config.run_succ, stepped']
      exact ih ran start'
    | stop ended rig =>
      simp only [stepped] at ran
      cases ran

end Lockstep

end Runs

/-! ## Devices that answer alike -/

section Devices

/-- Sources that stand in this relation deliver the same, and stay in it. -/
def InputSource.Agree [InputSource ι] [InputSource ι'] (inputs : ι → ι' → Prop) : Prop :=
  ∀ ⦃input input'⦄, inputs input input' →
    (read input').1 = (read input).1 ∧ inputs (read input).2 (read input').2

/-- Sinks that stand in this relation take every byte alike, and stay in it. -/
def OutputSink.Agree [OutputSink ο] [OutputSink ο'] (outputs : ο → ο' → Prop) : Prop :=
  ∀ ⦃output output'⦄ (byte : UInt8), outputs output output' →
    (write output' byte).1 = (write output byte).1 ∧
      outputs (write output byte).2 (write output' byte).2

/-- Sinks that stand in this relation are flushed alike, and stay in it. -/
def OutputSink.AgreeOnFlush [OutputSink ο] [OutputSink ο'] (outputs : ο → ο' → Prop) : Prop :=
  ∀ ⦃output output'⦄, outputs output output' →
    (flush output').1 = (flush output).1 ∧ outputs (flush output).2 (flush output').2

/-- Hooks that stand in this relation fire together, and stay in it. -/
def AbortHook.Agree [AbortHook η] [AbortHook η'] (hooks : η → η' → Prop) : Prop :=
  ∀ ⦃hook hook'⦄, hooks hook hook' →
    (poll hook').1 = (poll hook).1 ∧ hooks (poll hook).2 (poll hook').2

/-- Devices of one kind that are equal answer alike. -/
theorem InputSource.agree_eq [InputSource ι] : Agree (Eq : ι → ι → Prop) := by
  rintro input _ rfl
  exact ⟨rfl, rfl⟩

theorem OutputSink.agree_eq [OutputSink ο] : Agree (Eq : ο → ο → Prop) := by
  rintro output _ byte rfl
  exact ⟨rfl, rfl⟩

theorem OutputSink.agreeOnFlush_eq [OutputSink ο] : AgreeOnFlush (Eq : ο → ο → Prop) := by
  rintro output _ rfl
  exact ⟨rfl, rfl⟩

theorem AbortHook.agree_eq [AbortHook η] : Agree (Eq : η → η → Prop) := by
  rintro hook _ rfl
  exact ⟨rfl, rfl⟩

namespace Rig

theorem poll_eq [AbortHook η] (rig : Rig ι ο η) :
    rig.poll =
      match AbortHook.poll rig.hook with
      | (false, hook) => .went { rig with hook }
      | (true, hook) => .ended (.aborted rig.machine.pointer) { rig with hook } := by
  rfl

/-- The same machine with devices that correspond. -/
structure Alike (inputs : ι → ι' → Prop) (outputs : ο → ο' → Prop) (hooks : η → η' → Prop)
    (rig : Rig ι ο η) (other : Rig ι' ο' η') : Prop where
  machine : other.machine = rig.machine
  input : inputs rig.input other.input
  output : outputs rig.output other.output
  hook : hooks rig.hook other.hook

namespace Alike

variable {inputs : ι → ι' → Prop} {outputs : ο → ο' → Prop} {hooks : η → η' → Prop}
  {rig : Rig ι ο η} {other : Rig ι' ο' η'} {spared : Ending → Prop}

theorem current (alike : rig.Alike inputs outputs hooks other) :
    other.machine.current = rig.machine.current := by
  rw [alike.machine]

theorem access (alike : rig.Alike inputs outputs hooks other) {offset : Int}
    {use : Nat → Outcome ι ο η} {use' : Nat → Outcome ι' ο' η'}
    (next : ∀ cell, (use cell).MirroredBy (Alike inputs outputs hooks) spared (use' cell)) :
    (rig.access offset use).MirroredBy (Alike inputs outputs hooks) spared
      (other.access offset use') := by
  unfold Rig.access
  rw [alike.machine]
  cases rig.machine.address offset with
  | error cell => exact .inr ⟨other, rfl, alike⟩
  | ok cell => exact next cell

theorem store (alike : rig.Alike inputs outputs hooks other) (cell : Nat) (value : UInt8) :
    (rig.store cell value).MirroredBy (Alike inputs outputs hooks) spared
      (other.store cell value) := by
  rw [store_eq, store_eq]
  split
  · refine ⟨_, rfl, { alike with machine := ?_ }⟩
    show ({ other.machine with tape := _ } : Machine) = _
    rw [alike.machine]
    rfl
  · exact .inr ⟨other, rfl, alike⟩

/-- What a poll does if the two hooks fire together, or a hook that fires is spared. -/
theorem poll [AbortHook η] [AbortHook η'] (alike : rig.Alike inputs outputs hooks other)
    (quiet : (AbortHook.poll rig.hook).1 = false → (AbortHook.poll other.hook).1 = false ∧
      hooks (AbortHook.poll rig.hook).2 (AbortHook.poll other.hook).2)
    (fires : (AbortHook.poll rig.hook).1 = true → spared (.aborted rig.machine.pointer) ∨
      (AbortHook.poll other.hook).1 = true ∧
        hooks (AbortHook.poll rig.hook).2 (AbortHook.poll other.hook).2) :
    rig.poll.MirroredBy (Alike inputs outputs hooks) spared other.poll := by
  rw [poll_eq, poll_eq]
  cases polled : AbortHook.poll rig.hook with
  | mk fired next =>
    cases polled' : AbortHook.poll other.hook with
    | mk fired' next' =>
      rw [polled, polled'] at quiet fires
      cases fired with
      | false =>
        obtain ⟨rfl, sameHook⟩ := quiet rfl
        exact ⟨_, rfl, { alike with hook := sameHook }⟩
      | true =>
        rcases fires rfl with exempt | ⟨rfl, sameHook⟩
        · exact .inl exempt
        · rw [alike.machine]
          exact .inr ⟨_, rfl, { alike with machine := rfl, hook := sameHook }⟩

theorem write [OutputSink ο] [OutputSink ο'] (sinks : OutputSink.Agree outputs)
    (alike : rig.Alike inputs outputs hooks other) (offset : Int) :
    (rig.write offset).MirroredBy (Alike inputs outputs hooks) spared (other.write offset) := by
  rw [write_eq, write_eq, alike.machine]
  refine alike.access fun cell => ?_
  have agree := sinks (rig.machine.tape.get cell) alike.output
  cases written : OutputSink.write rig.output (rig.machine.tape.get cell) with
  | mk fault output =>
    cases written' : OutputSink.write other.output (rig.machine.tape.get cell) with
    | mk fault' output' =>
      rw [written, written'] at agree
      obtain ⟨rfl, sameOutput⟩ := agree
      cases fault' with
      | none => exact ⟨_, rfl, { alike with machine := rfl, output := sameOutput }⟩
      | some fault => exact .inr ⟨_, rfl, { alike with machine := rfl, output := sameOutput }⟩

theorem receive [InputSource ι] [InputSource ι'] (sources : InputSource.Agree inputs)
    (alike : rig.Alike inputs outputs hooks other) (offset : Int) :
    (rig.receive offset).MirroredBy (Alike inputs outputs hooks) spared
      (other.receive offset) := by
  rw [receive_eq, receive_eq]
  refine alike.access fun cell => ?_
  have agree := sources alike.input
  cases read : InputSource.read rig.input with
  | mk value input =>
    cases read' : InputSource.read other.input with
    | mk value' input' =>
      rw [read, read'] at agree
      obtain ⟨rfl, sameInput⟩ := agree
      cases value' with
      | ok value =>
        have alike' : Alike inputs outputs hooks { rig with input } { other with input := input' } :=
          { alike with input := sameInput }
        exact alike'.store cell _
      | error fault => exact .inr ⟨_, rfl, { alike with input := sameInput }⟩

variable [InputSource ι] [OutputSink ο] [InputSource ι'] [OutputSink ο']

/-- Actions go alike if the devices do. -/
theorem act (sources : InputSource.Agree inputs) (sinks : OutputSink.Agree outputs) (node : Node)
    (alike : rig.Alike inputs outputs hooks other) :
    (rig.act node).MirroredBy (Alike inputs outputs hooks) spared (other.act node) := by
  have machine := alike.machine
  cases node with
  | addAt offset delta =>
    rw [Rig.act, Rig.act, update_eq, update_eq, machine]
    exact alike.access fun cell => alike.store cell _
  | setAt offset value =>
    rw [Rig.act, Rig.act, update_eq, update_eq]
    exact alike.access fun cell => alike.store cell _
  | mulAt offset into factor =>
    rw [Rig.act, Rig.act, multiply_eq, multiply_eq, machine]
    refine alike.access fun source => ?_
    split
    · exact ⟨other, rfl, alike⟩
    · exact alike.access fun cell => alike.store cell _
  | move delta =>
    rw [Rig.act, Rig.act, move_eq, move_eq, machine]
    exact alike.access fun cell => ⟨_, rfl, { alike with machine := rfl }⟩
  | outputAt offset => exact alike.write sinks offset
  | inputAt offset => exact alike.receive sources offset
  | loop | scanLoop => exact ⟨other, rfl, alike⟩

variable [AbortHook η] [AbortHook η']

/-- Rigs whose devices answer alike go through the same code in lockstep. -/
theorem lockstep (sources : InputSource.Agree inputs) (sinks : OutputSink.Agree outputs)
    (guards : AbortHook.Agree hooks) :
    Lockstep (Config.Beside (Alike inputs outputs hooks)) (Alike inputs outputs hooks)
      fun _ => False := by
  rintro config other beside
  refine Config.step_mirrored current (fun node _ _ => act sources sinks node) beside ?_
  intro _
  obtain ⟨same, stay⟩ := guards beside.2.2.hook
  refine beside.2.2.poll ?_ ?_
  · intro quiet
    exact ⟨same.trans quiet, stay⟩
  · intro fires
    exact .inr ⟨same.trans fires, stay⟩

omit [InputSource ι] [InputSource ι'] [AbortHook η] [AbortHook η'] in
theorem settle (flushes : OutputSink.AgreeOnFlush outputs)
    (alike : rig.Alike inputs outputs hooks other) (ending : Ending) :
    (other.settle ending).1 = (rig.settle ending).1 ∧
      (rig.settle ending).2.Alike inputs outputs hooks (other.settle ending).2 := by
  unfold Rig.settle
  have agree := flushes alike.output
  cases flushed : OutputSink.flush rig.output with
  | mk fault output =>
    cases flushed' : OutputSink.flush other.output with
    | mk fault' output' =>
      rw [flushed, flushed'] at agree
      obtain ⟨rfl, sameOutput⟩ := agree
      cases fault' with
      | none => exact ⟨rfl, { alike with output := sameOutput }⟩
      | some fault => exact ⟨rfl, { alike with output := sameOutput }⟩

/-- A program ends on both rigs or on neither, in the same way, and they are still alike. -/
theorem execute (sources : InputSource.Agree inputs) (sinks : OutputSink.Agree outputs)
    (flushes : OutputSink.AgreeOnFlush outputs) (guards : AbortHook.Agree hooks)
    (alike : rig.Alike inputs outputs hooks other) (fuel : Nat) (program : Block) :
    Option.Rel (fun near far => far.1 = near.1 ∧ near.2.Alike inputs outputs hooks far.2)
      (execute fuel program rig) (execute fuel program other) := by
  unfold TapeMachine.execute
  have together := lockstep sources sinks guards
  cases ran : (Config.mk program [] rig).run fuel with
  | none =>
    rw [together.run_eq_none ran (Config.beside_of_near alike)]
    exact .none
  | some result =>
    obtain ⟨ending, after⟩ := result
    rcases together.run ran (Config.beside_of_near alike) with spared | ⟨after', ran', alike'⟩
    · exact spared.elim
    · rw [ran']
      exact .some (alike'.settle flushes ending)

end Alike

end Rig

end Devices

end TapeMachine
