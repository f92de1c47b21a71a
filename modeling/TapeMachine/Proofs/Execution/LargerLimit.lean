import TapeMachine.Proofs.Execution.Failures
import TapeMachine.Proofs.Execution.Lockstep
import TapeMachine.Proofs.Execution.StepLimit

/-!
# Runs under a larger limit

A step limit cuts a run short and does nothing else to it. A run that ends by itself goes the
same way under every larger limit and without one. A run that is aborted has got as far as the
longer run is when it makes the poll that was refused: what it wrote and what it read is where
the longer run begins.
-/

namespace TapeMachine

variable {ι ο η : Type}

/-- A poll that does not fire is counted. -/
theorem Rig.hook_of_poll {rig next : Rig ι ο StepLimit} (polled : rig.poll = .went next) :
    next.hook = { rig.hook with taken := rig.hook.taken + 1 } := by
  rw [poll_stepLimit] at polled
  split at polled
  · cases polled
  · cases polled
    rfl

/-! ## The configurations of one run -/

namespace Config

section Order

variable [InputSource ι] [OutputSink ο] [AbortHook η] {start a b : Config ι ο η}

/-- Of two configurations of one run, one leads to the other. -/
theorem Reaches.linear (toA : start.Reaches a) (toB : start.Reaches b) :
    a.Reaches b ∨ b.Reaches a := by
  induction toA with
  | refl => exact .inl toB
  | step stepped toA ih =>
    cases toB with
    | refl => exact .inr (.step stepped toA)
    | step stepped' toB =>
      rw [stepped] at stepped'
      cases stepped'
      exact ih toB

/-- A configuration that ends the run leads to no other. -/
theorem Reaches.eq_of_stop (reached : a.Reaches b) {ending : Ending} {after : Rig ι ο η}
    (stops : a.step = .stop ending after) : b = a := by
  cases reached with
  | refl => rfl
  | step stepped _ =>
    rw [stops] at stepped
    cases stepped

/-- A run is aborted where it polls, by that poll. -/
theorem polls_of_aborted {config : Config ι ο η} {pointer : Int} {after : Rig ι ο η}
    (stopped : config.step = .stop (.aborted pointer) after) :
    config.Polls ∧ config.rig.poll = .ended (.aborted pointer) after := by
  obtain ⟨_ | ⟨node, rest⟩, loops, rig⟩ := config
  · obtain _ | ⟨loop, outer⟩ := loops
    · cases stopped
    rw [step_nil] at stopped
    split at stopped
    · cases stopped
    · next nonzero => exact ⟨nonzero, Outcome.andThen_eq_stop stopped⟩
  cases single : node.isSingle with
  | true =>
    rw [step_single single] at stopped
    rcases Rig.act_ended (Outcome.andThen_eq_stop stopped) with
      ⟨_, _, underflow, _⟩ | ⟨_, faulted, _⟩ | ⟨_, _, _, _, overgrown, _⟩
    · cases underflow
    · cases faulted
    · cases overgrown
  | false =>
    cases node with
    | loop body => exact ⟨trivial, Outcome.andThen_eq_stop stopped⟩
    | scanLoop distance =>
      rw [step_scanLoop] at stopped
      split at stopped
      · cases stopped
      next nonzero =>
      split at stopped
      · next fired =>
        cases stopped
        exact ⟨nonzero, fired⟩
      · obtain ⟨_, _, underflow, _⟩ :=
          Rig.underflows_of_move (Outcome.andThen_eq_stop stopped)
        cases underflow
    | _ => cases single

/-- A step that polls leaves the hook as the poll does. -/
theorem Polls.poll_went {config next : Config ι ο η} (polls : config.Polls)
    (stepped : config.step = .next next) :
    ∃ polled, config.rig.poll = .went polled ∧ next.rig.hook = polled.hook := by
  obtain ⟨_ | ⟨node, rest⟩, loops, rig⟩ := config
  · obtain _ | ⟨loop, outer⟩ := loops
    · exact polls.elim
    rw [step_nil, if_neg polls] at stepped
    obtain ⟨polled, went, rfl⟩ := Outcome.andThen_eq_next stepped
    exact ⟨polled, went, rfl⟩
  cases node with
  | loop body =>
    rw [step_loop] at stepped
    obtain ⟨polled, went, rfl⟩ := Outcome.andThen_eq_next stepped
    refine ⟨polled, went, ?_⟩
    split <;> rfl
  | scanLoop distance =>
    rw [step_scanLoop, if_neg polls] at stepped
    split at stepped
    · cases stepped
    · next polled went =>
      obtain ⟨moved, acted, rfl⟩ := Outcome.andThen_eq_next stepped
      have acted : polled.act (.move distance) = .went moved := acted
      exact ⟨polled, went, Rig.hook_of_act acted⟩
  | _ => exact polls.elim

end Order

/-! ## Counted polls -/

section Counting

variable [InputSource ι] [OutputSink ο] {start config next a b : Config ι ο StepLimit}

theorem Polls.taken (polls : config.Polls) (stepped : config.step = .next next) :
    next.rig.hook.taken = config.rig.hook.taken + 1 := by
  obtain ⟨polled, went, same⟩ := polls.poll_went stepped
  rw [same, Rig.hook_of_poll went]

theorem Reaches.taken_le (reached : a.Reaches b) : a.rig.hook.taken ≤ b.rig.hook.taken := by
  refine reached.keeps (P := fun rig => a.rig.hook.taken ≤ rig.hook.taken) ?_ ?_ (Nat.le_refl _)
  · intro rig next few polled
    rw [Rig.hook_of_poll polled]
    exact Nat.le_succ_of_le few
  · intro rig next node few acted
    rwa [Rig.hook_of_act acted]

theorem Reaches.allowed (reached : a.Reaches b) : b.rig.hook.allowed = a.rig.hook.allowed := by
  refine reached.keeps (P := fun rig => rig.hook.allowed = a.rig.hook.allowed) ?_ ?_ rfl
  · intro rig next same polled
    rwa [Rig.hook_of_poll polled]
  · intro rig next node same acted
    rwa [Rig.hook_of_act acted]

theorem Polls.eq_of_reaches (polls : a.Polls) (reached : a.Reaches b)
    (same : b.rig.hook.taken = a.rig.hook.taken) : b = a := by
  cases reached with
  | refl => rfl
  | step stepped more =>
    have one := polls.taken stepped
    have rest := more.taken_le
    omega

/-- A run makes each of its polls at one configuration only. -/
theorem Polls.unique (pollsA : a.Polls) (pollsB : b.Polls) (toA : start.Reaches a)
    (toB : start.Reaches b) (same : b.rig.hook.taken = a.rig.hook.taken) : b = a := by
  rcases toA.linear toB with onward | onward
  · exact pollsA.eq_of_reaches onward same
  · exact (pollsB.eq_of_reaches onward same.symm).symm

end Counting

/-- The configuration of a run from which it goes on with a poll, after so many others. -/
structure PollsAfter [InputSource ι] [OutputSink ο] (start : Config ι ο StepLimit) (count : Nat)
    (config : Config ι ο StepLimit) : Prop where
  reached : start.Reaches config
  polls : config.Polls
  taken : config.rig.hook.taken = count

end Config

/-! ## What a run writes and reads -/

namespace Rig

/-- Bytes may have been added to the output, and values taken from the input. -/
structure Further (rig next : Rig ByteQueue Collected η) : Prop where
  written : rig.output.bytes.toList <+: next.output.bytes.toList
  unread : next.input.values <:+ rig.input.values

namespace Further

variable {rig next last : Rig ByteQueue Collected η}

theorem of_eq (output : next.output.bytes = rig.output.bytes) (input : next.input = rig.input) :
    rig.Further next :=
  ⟨output ▸ List.prefix_refl _, input ▸ List.suffix_refl _⟩

theorem trans (further : rig.Further next) (more : next.Further last) : rig.Further last :=
  ⟨further.written.trans more.written, more.unread.trans further.unread⟩

theorem of_reads (reads : rig.Reads next) : rig.Further next := by
  rcases reads with rfl | ⟨value, input, read, rfl⟩
  · exact of_eq rfl rfl
  · refine ⟨List.prefix_refl _, ?_⟩
    have rest : input = (ByteQueue.read rig.input).2 := (congrArg Prod.snd read).symm
    show input.values <:+ rig.input.values
    rw [rest, ByteQueue.read]
    cases taken : rig.input.values with
    | nil => exact taken.symm ▸ List.suffix_refl _
    | cons first rest => exact List.suffix_cons first rest

theorem of_act {node : Node} (acted : rig.act node = .went next) : rig.Further next := by
  rcases act_went acted with rfl | ⟨cell, value, rfl⟩ | ⟨_, cell, _, _, rfl⟩ |
    ⟨byte, output, written, rfl⟩ | ⟨cell, value, input, read, rfl⟩
  · exact of_eq rfl rfl
  · exact of_eq rfl rfl
  · exact of_eq rfl rfl
  · cases written
    refine ⟨?_, List.suffix_refl _⟩
    show _ <+: (rig.output.bytes.push byte).toList
    rw [Array.toList_push]
    exact List.prefix_append _ _
  · have further := of_reads (.inr ⟨value, input, read, rfl⟩)
    exact ⟨further.written, further.unread⟩

end Further

end Rig

theorem Config.Reaches.further [AbortHook η] {a b : Config ByteQueue Collected η}
    (reached : a.Reaches b) : a.rig.Further b.rig := by
  refine reached.keeps (P := a.rig.Further) ?_ ?_ (.of_eq rfl rfl)
  · intro rig next further polled
    obtain ⟨_, input, output⟩ := Rig.sameState_of_poll_went polled
    exact further.trans (.of_eq (congrArg Collected.bytes output) input)
  · intro rig next node further acted
    exact further.trans (.of_act acted)

/-- The step that ends a run leads no further back either. -/
theorem Config.further_of_stop [AbortHook η] {config : Config ByteQueue Collected η}
    {ending : Ending} {after : Rig ByteQueue Collected η}
    (stopped : config.step = .stop ending after) : config.rig.Further after := by
  have same {other : Rig ByteQueue Collected η} (state : other.SameState config.rig) :
      config.rig.Further other :=
    .of_eq (congrArg Collected.bytes state.2.2) state.2.1
  rcases stop_cases stopped with ⟨_, rfl⟩ | polled | ⟨tried, action, tries, acted⟩
  · exact .of_eq rfl rfl
  · exact same (Rig.poll_ended polled).2
  · rcases Rig.act_ended_of_memory acted with ⟨cell, _, _, rfl⟩ | ⟨read, reads, cell, _, _, rfl⟩
    · exact same tries.sameState
    · exact (same tries.sameState).trans (.of_reads reads)

/-! ## Hooks that fire less -/

/-- As long as one hook stays quiet, so does the other. -/
def AbortHook.Looser {η' : Type} [AbortHook η] [AbortHook η'] (hooks : η → η' → Prop) : Prop :=
  ∀ ⦃hook hook'⦄, hooks hook hook' → (poll hook).1 = false →
    (poll hook').1 = false ∧ hooks (poll hook).2 (poll hook').2

section Looser

variable {η' : Type} [AbortHook η] [AbortHook η'] {hooks : η → η' → Prop}

/-- The same machine and devices under hooks that stand in a relation. -/
abbrev Rig.SameUnder (hooks : η → η' → Prop) :
    Rig ByteQueue Collected η → Rig ByteQueue Collected η' → Prop :=
  Rig.Alike Eq Eq hooks

theorem lockstep_of_looser (looser : AbortHook.Looser hooks) :
    Lockstep (fun config other => config.Beside (Rig.SameUnder hooks) other ∧ True)
      (Rig.SameUnder hooks) Ending.IsAborted := by
  refine Lockstep.of_rigs (fun _ _ => trivial) Rig.Alike.current ?_ ?_
  · intro node rig rig' alike
    refine alike.act ?_ ?_ node
    · rintro input _ rfl
      exact ⟨rfl, rfl⟩
    · rintro output _ byte rfl
      exact ⟨rfl, rfl⟩
  · rintro config other ⟨_, _, alike⟩ _ _
    exact alike.poll (looser alike.hook) fun _ => .inl ⟨_, rfl⟩

/-- A run that its hook lets through goes the same way under one that fires less. -/
theorem execute_of_looser (looser : AbortHook.Looser hooks) {fuel : Nat} {program : Block}
    {rig after : Rig ByteQueue Collected η} {ending : Ending} {hook : η'}
    (executed : execute fuel program rig = some (ending, after)) (related : hooks rig.hook hook)
    (unaborted : ¬ ending.IsAborted) :
    ∃ hook', hooks after.hook hook' ∧
      execute fuel program ⟨rig.machine, rig.input, rig.output, hook⟩ =
        some (ending, ⟨after.machine, after.input, after.output, hook'⟩) := by
  obtain ⟨⟨ended, stopped⟩, ran, settled⟩ := Option.map_eq_some_iff.1 executed
  cases settled
  have alike : rig.SameUnder hooks ⟨rig.machine, rig.input, rig.output, hook⟩ :=
    ⟨rfl, rfl, rfl, related⟩
  rcases (lockstep_of_looser looser).run ran ⟨Config.beside_of_near alike, trivial⟩ with
    aborted | ⟨⟨machine, input, output, hook'⟩, ran', alike⟩
  · exact absurd aborted unaborted
  · obtain ⟨rfl, rfl, rfl, sameHook⟩ := alike
    exact ⟨hook', sameHook, by rw [execute, ran']; rfl⟩

end Looser

/-! ## Larger limits -/

namespace StepLimit

/-- Every poll that the second number refuses is refused by the first one too. -/
def Stricter (few many : Option Nat) : Prop :=
  ∀ allowed ∈ many, ∃ fewer ∈ few, fewer ≤ allowed

/-- Two limits have counted the same polls. -/
structure Abreast (few many : Option Nat) (limit more : StepLimit) : Prop where
  few : limit.allowed = few
  many : more.allowed = many
  taken : more.taken = limit.taken

theorem looser_abreast {few many : Option Nat} (stricter : Stricter few many) :
    AbortHook.Looser (Abreast few many) := by
  rintro ⟨_, taken⟩ ⟨many, _⟩ ⟨rfl, rfl, rfl⟩ quiet
  refine ⟨?_, rfl, rfl, rfl⟩
  simp only [AbortHook.poll, poll] at quiet ⊢
  cases many with
  | none => rfl
  | some allowed =>
    obtain ⟨fewer, refused, le⟩ := stricter allowed rfl
    simp only at refused
    rw [Option.mem_def.1 refused] at quiet
    simp only [Option.any_some, decide_eq_false_iff_not] at quiet ⊢
    omega

theorem looser_unit : AbortHook.Looser fun (_ : StepLimit) (_ : Unit) => True :=
  fun _ _ _ _ => ⟨rfl, trivial⟩

end StepLimit

/-! ## Aborted runs -/

/-- The limit of an aborted run is a number of polls. -/
theorem exists_allowed_of_aborted {program : Block}
    {rig after : Rig ByteQueue Collected StepLimit} {fuel : Nat} {pointer : Int}
    (executed : execute fuel program rig = some (.aborted pointer, after)) :
    ∃ allowed, rig.hook.allowed = some allowed := by
  obtain ⟨last, stopped, reached, stops, _⟩ := exists_last_of_execute executed
  rw [← reached.allowed]
  have fired := (Config.polls_of_aborted stops).2
  rw [Rig.poll_stepLimit] at fired
  cases limit : last.rig.hook.allowed with
  | some allowed => exact ⟨allowed, rfl⟩
  | none =>
    rw [limit] at fired
    cases fired

/-- An aborted run has stopped at a configuration that polls, after as many polls as its limit
allows. -/
theorem exists_pollsAfter_of_aborted {program : Block}
    {rig after : Rig ByteQueue Collected StepLimit} {limit : Nat} (start : rig.Within limit)
    {fuel : Nat} {pointer : Int}
    (executed : execute fuel program rig = some (.aborted pointer, after)) :
    ∃ last, (Config.mk program [] rig).PollsAfter limit last ∧
      StoppedAt program rig (.aborted pointer) after last := by
  obtain ⟨last, stopped, reached, stops, rfl⟩ := exists_last_of_execute executed
  obtain ⟨polls, fired⟩ := Config.polls_of_aborted stops
  refine ⟨last, ⟨reached, polls, ?_⟩,
    stoppedAt_of_sameState reached stops (Rig.poll_ended fired).2 _⟩
  have counted := ((reached.within start).poll_ended fired).2
  rw [Rig.poll_stepLimit] at fired
  split at fired
  · cases fired
    exact Nat.succ.inj counted
  · cases fired

section Aborted

variable {program : Block} {machine : Machine} {input : ByteQueue} {output : Collected}
  {limit more : StepLimit} {allowed : Nat} {config : Config ByteQueue Collected StepLimit}
  {longer : Rig ByteQueue Collected StepLimit} {fuel : Nat} {ending : Ending}

/-- Under a looser limit a run makes the polls that it makes under the stricter one. -/
theorem exists_pollsAfter_of_stricter (stricter : StepLimit.Stricter limit.allowed more.allowed)
    (taken : more.taken = limit.taken)
    (stands : (Config.mk program [] ⟨machine, input, output, limit⟩).PollsAfter allowed config) :
    ∃ config', (Config.mk program [] ⟨machine, input, output, more⟩).PollsAfter allowed config' ∧
      config'.rig.machine = config.rig.machine ∧ config'.rig.input = config.rig.input ∧
      config'.rig.output = config.rig.output := by
  have start : (Config.mk program [] (Rig.mk machine input output limit)).Beside
      (Rig.SameUnder (StepLimit.Abreast limit.allowed more.allowed))
      ⟨program, [], ⟨machine, input, output, more⟩⟩ :=
    ⟨rfl, rfl, rfl, rfl, rfl, rfl, rfl, taken⟩
  obtain ⟨config', reached, beside, _⟩ :=
    (lockstep_of_looser (StepLimit.looser_abreast stricter)).reaches stands.reached
      ⟨start, trivial⟩
  have alike := beside.2.2
  exact ⟨config', ⟨reached, beside.polls Rig.Alike.current stands.polls,
    alike.hook.taken.trans stands.taken⟩, alike.machine, alike.input.symm, alike.output.symm⟩

/-- A run that ends has gone on from every configuration at which it polls. -/
theorem further_of_execute {start : Rig ByteQueue Collected StepLimit}
    (stands : (Config.mk program [] start).PollsAfter allowed config)
    (executed : execute fuel program start = some (ending, longer)) :
    config.rig.Further longer := by
  obtain ⟨last, stopped, reached, stops, rfl⟩ := exists_last_of_execute executed
  have further : config.rig.Further last.rig := by
    rcases stands.reached.linear reached with onward | back
    · exact onward.further
    · rw [back.eq_of_stop stops]
      exact .of_eq rfl rfl
  have ended := Config.further_of_stop stops
  exact further.trans ⟨ended.written, ended.unread⟩

end Aborted

/-! ## The whole run -/

/-- The order of numbers. What is not a number stands in no order. -/
def Quantity.AtMost : Quantity → Quantity → Prop
  | .notANumber, _ | _, .notANumber => False
  | .negativeInfinity, _ | _, .infinity => True
  | .finite a, .finite b => a.numerator * twoTo b.scale ≤ b.numerator * twoTo a.scale
  | _, _ => False

theorem Binary.floor_mono {a b : Binary}
    (le : a.numerator * twoTo b.scale ≤ b.numerator * twoTo a.scale) : a.floor ≤ b.floor := by
  have positive (n : Nat) : (0 : Int) < twoTo n := Int.natCast_pos.2 (Nat.pow_pos Nat.two_pos)
  rw [floor, floor, Int.le_ediv_iff_mul_le (positive b.scale)]
  have below : a.numerator / twoTo a.scale * twoTo a.scale ≤ a.numerator :=
    Int.ediv_mul_le a.numerator (Int.ne_of_gt (positive a.scale))
  refine Int.le_of_mul_le_mul_right ?_ (positive a.scale)
  calc a.numerator / twoTo a.scale * twoTo b.scale * twoTo a.scale
      = a.numerator / twoTo a.scale * twoTo a.scale * twoTo b.scale := Int.mul_right_comm _ _ _
    _ ≤ a.numerator * twoTo b.scale :=
      Int.mul_le_mul_of_nonneg_right below (Int.le_of_lt (positive b.scale))
    _ ≤ b.numerator * twoTo a.scale := le

/-- A larger number refuses less. -/
theorem StepLimit.stricter_of_atMost {limit more : Quantity} (atMost : limit.AtMost more) :
    Stricter (ofQuantity limit).allowed (ofQuantity more).allowed := by
  intro allowed refused
  cases more with
  | infinity | notANumber => cases refused
  | negativeInfinity =>
    cases limit with
    | negativeInfinity => exact ⟨allowed, refused, Nat.le_refl _⟩
    | finite | infinity | notANumber => exact atMost.elim
  | finite b =>
    cases refused
    cases limit with
    | finite a => exact ⟨_, rfl, Int.toNat_le_toNat (Binary.floor_mono atMost)⟩
    | negativeInfinity => exact ⟨0, rfl, Nat.zero_le _⟩
    | infinity | notANumber => exact atMost.elim

/-- What an aborted run has in common with the longer run of the same program: it has stopped
where the longer run makes the poll that was refused. -/
structure CutFrom (program : Block) (machine : Machine) (input : ByteQueue) (output : Collected)
    (more : StepLimit) (allowed : Nat) (after : Rig ByteQueue Collected StepLimit) : Prop where
  poll : ∃ config,
    (Config.mk program [] ⟨machine, input, output, more⟩).PollsAfter allowed config
  state : ∀ {config : Config ByteQueue Collected StepLimit},
    (Config.mk program [] ⟨machine, input, output, more⟩).PollsAfter allowed config →
      after.machine = config.rig.machine ∧ after.input = config.rig.input ∧
        after.output.bytes = config.rig.output.bytes
  onward : ∀ {later : Config ByteQueue Collected StepLimit},
    (Config.mk program [] ⟨machine, input, output, more⟩).Reaches later →
      allowed < later.rig.hook.taken → after.Further later.rig
  written : ∀ {fuel : Nat} {ending : Ending} {longer : Rig ByteQueue Collected StepLimit},
    execute fuel program ⟨machine, input, output, more⟩ = some (ending, longer) →
      after.output.bytes.toList <+: longer.output.bytes.toList
  consumed : ∀ {fuel : Nat} {ending : Ending} {longer : Rig ByteQueue Collected StepLimit},
    execute fuel program ⟨machine, input, output, more⟩ = some (ending, longer) →
      ∃ taken takenMore, input.values = taken ++ after.input.values ∧
        input.values = takenMore ++ longer.input.values ∧ taken <+: takenMore

/-- The runs of a program under a limit are those under a larger one or under none, up to the
poll that is refused. -/
structure OnlyCuts (program : Block) (machine : Machine) (input : ByteQueue) (output : Collected)
    (limit more : Quantity) : Prop where
  unaborted : ∀ {fuel : Nat} {ending : Ending} {after : Rig ByteQueue Collected StepLimit},
    execute fuel program ⟨machine, input, output, StepLimit.ofQuantity limit⟩ =
        some (ending, after) →
      ¬ ending.IsAborted →
        execute fuel program ⟨machine, input, output, StepLimit.ofQuantity more⟩ =
          some (ending, ⟨after.machine, after.input, after.output,
            { StepLimit.ofQuantity more with taken := after.hook.taken }⟩) ∧
        execute fuel program ⟨machine, input, output, ()⟩ =
          some (ending, ⟨after.machine, after.input, after.output, ()⟩)
  aborted : ∀ {fuel : Nat} {pointer : Int} {after : Rig ByteQueue Collected StepLimit},
    execute fuel program ⟨machine, input, output, StepLimit.ofQuantity limit⟩ =
        some (.aborted pointer, after) →
      pointer = after.machine.pointer ∧ ∃ allowed, limit.allowance = some allowed ∧
        CutFrom program machine input output (.ofQuantity more) allowed after
  ends : more.allowance.isSome →
    Ready (Rig.mk machine input output (StepLimit.ofQuantity more)) →
      Unrounded program ⟨machine, input, output, StepLimit.ofQuantity more⟩ →
        ∃ fuel ending after,
          execute fuel program ⟨machine, input, output, StepLimit.ofQuantity more⟩ =
            some (ending, after) ∧
          (ending = .finished ∨ (∃ cell, ending = .underflow cell) ∨ ending.IsAborted)

theorem cutFrom_of_aborted {program : Block} {machine : Machine} {input : ByteQueue}
    {output : Collected} {limit more : StepLimit} {allowed : Nat}
    (stricter : StepLimit.Stricter limit.allowed more.allowed) (taken : more.taken = limit.taken)
    (within : (Rig.mk machine input output limit).Within allowed) {fuel : Nat} {pointer : Int}
    {after : Rig ByteQueue Collected StepLimit}
    (executed : execute fuel program ⟨machine, input, output, limit⟩ =
      some (.aborted pointer, after)) :
    CutFrom program machine input output more allowed after := by
  obtain ⟨last, stands, stopped⟩ := exists_pollsAfter_of_aborted within executed
  obtain ⟨last', stands', sameMachine, sameInput, sameOutput⟩ :=
    exists_pollsAfter_of_stricter stricter taken stands
  have unread : after.input = last'.rig.input := stopped.input.trans sameInput.symm
  have bytes : after.output.bytes = last'.rig.output.bytes := by rw [stopped.bytes, sameOutput]
  refine ⟨⟨last', stands'⟩, ?_, ?_, ?_, ?_⟩
  · intro config other
    obtain rfl : config = last' := stands'.polls.unique other.polls stands'.reached other.reached
      (other.taken.trans stands'.taken.symm)
    exact ⟨stopped.machine.trans sameMachine.symm, unread, bytes⟩
  · intro later reached polled
    rcases stands'.reached.linear reached with onward | back
    · exact .trans (.of_eq bytes.symm unread.symm) onward.further
    · have few := back.taken_le
      rw [stands'.taken] at few
      omega
  · intro fuel ending longer executed'
    rw [bytes]
    exact (further_of_execute stands' executed').written
  · intro fuel ending longer executed'
    obtain ⟨taken, rest⟩ := stands'.reached.further.unread
    obtain ⟨between, left⟩ := (further_of_execute stands' executed').unread
    refine ⟨taken, taken ++ between, ?_, ?_, List.prefix_append _ _⟩
    · rw [unread, rest]
    · rw [List.append_assoc, left, rest]

/-- A step limit only cuts runs short. -/
theorem onlyCuts_of_atMost (program : Block) (machine : Machine) (input : ByteQueue)
    (output : Collected) {limit more : Quantity} (atMost : limit.AtMost more) :
    OnlyCuts program machine input output limit more := by
  have stricter := StepLimit.stricter_of_atMost atMost
  have abreast : StepLimit.Abreast limit.allowance more.allowance (.ofQuantity limit)
    (.ofQuantity more) := ⟨rfl, rfl, rfl⟩
  constructor
  · intro fuel ending after executed unaborted
    constructor
    · obtain ⟨⟨_, _⟩, abreast, executed'⟩ :=
        execute_of_looser (StepLimit.looser_abreast stricter) executed abreast unaborted
      obtain ⟨_, rfl, rfl⟩ := abreast
      exact executed'
    · obtain ⟨_, _, executed'⟩ :=
        execute_of_looser StepLimit.looser_unit executed trivial unaborted
      exact executed'
  · intro fuel pointer after executed
    obtain ⟨allowed, allowance⟩ := exists_allowed_of_aborted executed
    have cut := cutFrom_of_aborted stricter abreast.taken ⟨allowance, Nat.zero_le _⟩ executed
    obtain ⟨last, stopped, _, stops, rfl⟩ := exists_last_of_execute executed
    exact ⟨(Config.stop_aborted stops).1, allowed, allowance, cut⟩
  · intro finite ready unrounded
    obtain ⟨allowed, allowance⟩ := Option.isSome_iff_exists.1 finite
    exact exists_execute_of_unrounded allowance ready unrounded

/-- Writes what it reads, until it reads a zero or the input is at its end. -/
def echo : Block :=
  [.inputAt 0, .loop [.outputAt 0, .inputAt 0]]

/-- A machine with one cell and two bytes to read, under a limit. -/
def twoLetters (limit : Quantity) : Rig ByteQueue Collected StepLimit :=
  ⟨⟨Tape.ofSize 1, 0, .double⟩, ⟨[65, 66]⟩, {}, .ofQuantity limit⟩

theorem onlyCuts_echo :
    (execute 20 echo (twoLetters 1)).map (fun (ending, after) =>
      (ending, after.output.bytes.toList, after.input.values)) = some (.aborted 0, [65], []) ∧
    (execute 20 echo (twoLetters 3)).map (fun (ending, after) =>
      (ending, after.output.bytes.toList, after.hook.taken)) = some (.finished, [65, 66], 2) ∧
    Quantity.AtMost 1 3 ∧ OnlyCuts echo ⟨Tape.ofSize 1, 0, .double⟩ ⟨[65, 66]⟩ {} 1 3 := by
  have atMost : Quantity.AtMost 1 3 := by
    show (Binary.ofInt 1).numerator * _ ≤ (Binary.ofInt 3).numerator * _
    decide +kernel
  exact ⟨by decide +kernel, by decide +kernel, atMost, onlyCuts_of_atMost _ _ _ _ atMost⟩

end TapeMachine
