import TapeMachine.Proofs.Execution.Failures
import TapeMachine.Proofs.Execution.StepLimit
import TapeMachine.Proofs.Optimize.Products
import TapeMachine.Proofs.Strip.Escape

/-!
# What optimization keeps

An optimized program is compared with the program that it comes from, both started
on the same machine with the same input. As long as the original forms no address
beyond the last cell that a tape can have, the optimized program ends up in the same
state whenever the original finishes, has written no less whenever the original is
cut short, and ends only if the original does.
-/

namespace TapeMachine.Optimize

open Strip

/-! ## Rewriting improves -/

/-- Every rewrite improves a program, if its sums are exact for all offsets within
the strip. -/
theorem improves_of_rewrites {last : Nat} {allowed : Option Nat} {precision : Precision}
    (precise : Precise precision last) {p q : Block} (rewrites : Rewrites precision p q) :
    Improves last allowed p q := by
  induction rewrites with
  | refl p => exact improves_refl p
  | trans _ _ first second => exact improves_trans first second
  | append _ _ front back => exact Matching.refines_append front back
  | loop _ inner => exact Matching.refines_loop inner
  | addAdd offset a b => exact improves_addAdd offset a b
  | addZero offset => exact improves_addZero offset
  | moveMove a b => exact improves_moveMove precise a b
  | moveZero => exact improves_moveZero
  | roundMove delta => exact improves_roundMove precise delta
  | absorb steps => exact improves_absorb precise steps
  | roundOffset steps => exact improves_roundOffset precise steps
  | setAdd offset value delta => exact improves_setAdd offset value delta
  | clear odd => exact improves_clear odd
  | multiply found => exact improves_multiply found
  | scan delta => exact improves_scan delta

/-! ## Runs without rounding -/

/-- What a run leaves behind, apart from the number of polls and of allocated
cells. -/
structure Agrees (a b : Bench) : Prop where
  cells : ∀ index, a.machine.tape.get index = b.machine.tape.get index
  pointer : a.machine.pointer = b.machine.pointer
  input : a.input = b.input
  written : a.written = b.written

section Start

variable {program : Block} {bench : Bench}

theorem exists_shows (ready : Ready bench) (unrounded : Unrounded program bench) :
    ∃ s : Strip lastCell, Shows 53 bench.hook.allowed s bench := by
  have within : bench.machine.pointer ≤ lastCell :=
    unrounded _ .refl bench.machine.pointer List.mem_cons_self
  have positive := ready.pointer
  refine ⟨⟨bench.machine.tape.get, bench.machine.pointer.toNat, by omega, bench.input,
    bench.output, bench.hook.taken⟩, ?_⟩
  exact ⟨fun _ => rfl, (Int.toNat_of_nonneg positive).symm, ready.precision, rfl, rfl, rfl⟩

/-- Without rounding the run on a strip does not get past its last cell. -/
theorem not_escapes (unrounded : Unrounded program bench) {allowed : Option Nat}
    {s u : Strip lastCell} {ending : Ending} (shown : Shows 53 allowed s bench)
    (ran : (interpretation lastCell allowed).runs program s (.ended ending u)) :
    ¬ ending.Escapes lastCell := by
  exact (fence (by decide) (by decide) (by decide)).not_beyond unrounded shown ran

/-- On a rig that shows a strip, every program does what it does on the strip. -/
theorem faithful (allowed : Option Nat) (block : Block) :
    (correspondence lastCell 53 allowed).Refines block block :=
  refines_self (by decide) (by decide) (by decide) block

/-- How a run without rounding goes: as on the strip, to the same state if it goes
through and to an ending of the same kind if it does not. -/
theorem fate_cases (unrounded : Unrounded program bench) {allowed : Option Nat}
    {s : Strip lastCell} (shown : Shows 53 allowed s bench) {fate : Fate Bench}
    (ran : Rig.interpretation.runs program bench fate) :
    (∃ u next, (interpretation lastCell allowed).runs program s (.went u) ∧
      fate = .went next ∧ Shows 53 allowed u next) ∨
    ∃ ending u other next, (interpretation lastCell allowed).runs program s (.ended ending u) ∧
      fate = .ended other next ∧ ending.Like other ∧ Bench.written next = u.written := by
  obtain ⟨a, ranStrip⟩ := (faithful allowed program).back shown ran
  cases a with
  | went u =>
    obtain ⟨next, ran', shown'⟩ := (faithful allowed program).went shown ranStrip
    exact .inl ⟨u, next, ranStrip, (faithful allowed program).functional _ _ _ ran ran', shown'⟩
  | ended ending u =>
    rcases (faithful allowed program).ended shown ranStrip ran with
      ⟨escapes, _⟩ | ⟨other, next, same, like, written⟩
    · exact absurd escapes (not_escapes unrounded shown ranStrip)
    · exact .inr ⟨ending, u, other, next, ranStrip, same, like, written⟩

end Start

/-- Up to the last cell that is kept exactly, the optimizer improves programs. -/
theorem improves_optimize {options : Options} (double : options.precision = .double)
    (program : Block) (allowed : Option Nat) :
    Improves lastCell allowed program (optimize options program) := by
  refine improves_of_rewrites ?_ (rewrites_optimize options program)
  rw [double]
  exact precise_digits (by decide)

/-- Rigs that show the same strip, but for the polls, agree. -/
theorem agrees_of_shows {last count polls : Nat} {allowed allowed' : Option Nat} {u : Strip last}
    {a b : Bench} (shown : Shows count allowed u a)
    (shown' : Shows count allowed' (u.polled polls) b) : Agrees b a where
  cells index := (shown'.cells index).trans (shown.cells index).symm
  pointer := shown'.pointer.trans shown.pointer.symm
  input := shown'.input.trans shown.input.symm
  written := shown'.written.trans shown.written.symm

/-- The rig after the output has been flushed. -/
def flushed (bench : Bench) : Bench :=
  { bench with output := { bench.output with flushes := bench.output.flushes + 1 } }

theorem settle_went (bench : Bench) :
    (Fate.went bench).settle = (.finished, flushed bench) := rfl

theorem settle_ended (ending : Ending) (bench : Bench) :
    (Fate.ended ending bench).settle = (ending, flushed bench) := rfl

theorem Agrees.flushed {a b : Bench} (agrees : Agrees a b) : Agrees (flushed a) (flushed b) where
  cells := agrees.cells
  pointer := agrees.pointer
  input := agrees.input
  written := agrees.written

/-! ## Single runs -/

/-- Adds twice three to the second cell and writes it. -/
def doubling : Block :=
  [.addAt 0 3, .loop [.addAt 0 (-1), .move 1, .addAt 0 2, .move (-1)], .outputAt 1]

/-- A machine with two cells and some steps. -/
def fresh : Bench :=
  ⟨⟨Tape.ofSize 2, 0, .double⟩, {}, {}, { allowed := some 5 }⟩

/-- Two moves to the right and three back. -/
def backAndForth : Block :=
  [1, 1, -1, -1, -1].map Node.move

/-- A machine whose pointer is at the last cell that is kept exactly. -/
def farOut : Bench :=
  ⟨⟨Tape.ofSize 1, 9007199254740991, .double⟩, {}, {}, { allowed := some 0 }⟩

theorem optimize_backAndForth : optimize {} backAndForth = [.move (-1)] := by
  simp only [optimize, runPasses, Options.passes, Pass.apply, Program.mapBlocks_eq_replaceNested]
  decide +kernel

/-! ## Runs that finish -/

/-- Whenever the original finishes, so does the optimized program, in the same state
and after no more polls. -/
def KeepsFinishedRuns (options : Options) (program : Block) (bench : Bench) : Prop :=
  ∀ fuel after, execute fuel program bench = some (.finished, after) →
    ∃ fuel' after', execute fuel' (optimize options program) bench = some (.finished, after') ∧
      Agrees after' after ∧ after'.hook.taken ≤ after.hook.taken

theorem keepsFinishedRuns_of_unrounded {options : Options} {program : Block} {bench : Bench}
    (double : options.precision = .double) (ready : Ready bench)
    (unrounded : Unrounded program bench) : KeepsFinishedRuns options program bench := by
  intro fuel after executed
  obtain ⟨s, shown⟩ := exists_shows ready unrounded
  obtain ⟨fate, ran, settled⟩ := execute_eq_some_iff.1 ⟨fuel, executed⟩
  rcases fate_cases unrounded shown ran with
    ⟨u, next, ranStrip, rfl, shown'⟩ | ⟨ending, u, other, next, _, rfl, like, _⟩
  · -- From the rig to the strip, there to the optimized program, and back to a rig.
    obtain ⟨v, ranOptimized, polls, le, rfl⟩ :=
      (improves_optimize double program _).went (near_refl s) ranStrip
    obtain ⟨next', ran', shown''⟩ := (faithful _ (optimize options program)).went shown ranOptimized
    obtain ⟨fuel', executed'⟩ := execute_eq_some_iff.2 ⟨.went next', ran', settle_went next'⟩
    rw [settle_went] at settled
    cases settled
    refine ⟨fuel', flushed next', executed', (agrees_of_shows shown' shown'').flushed, ?_⟩
    show next'.hook.taken ≤ next.hook.taken
    rw [shown'.hook, shown''.hook]
    exact le
  · rw [settle_ended] at settled
    cases like <;> cases settled

theorem keepsFinishedRuns_doubling :
    (execute 40 doubling fresh).map Prod.fst = some .finished ∧
      KeepsFinishedRuns {} doubling fresh :=
  ⟨by decide +kernel, keepsFinishedRuns_of_unrounded rfl ⟨rfl, by decide⟩
    (unrounded_of_check 40 (by decide +kernel))⟩

/-- Beyond the last cell that is kept exactly, moves that cancel do not go back to
where they started, so leaving them out shows. -/
theorem not_keepsFinishedRuns_farOut :
    Ready farOut ∧ ¬ KeepsFinishedRuns {} backAndForth farOut := by
  refine ⟨⟨rfl, by decide⟩, fun keeps => ?_⟩
  obtain ⟨after, executed, pointer⟩ : ∃ after,
      execute 6 backAndForth farOut = some (.finished, after) ∧
        after.machine.pointer = 9007199254740989 := ⟨_, rfl, by decide +kernel⟩
  obtain ⟨other, optimized, pointer'⟩ : ∃ other,
      execute 2 (optimize {} backAndForth) farOut = some (.finished, other) ∧
        other.machine.pointer = 9007199254740990 := by
    rw [optimize_backAndForth]
    exact ⟨_, rfl, by decide +kernel⟩
  obtain ⟨fuel', after', executed', agrees, _⟩ := keeps 6 after executed
  cases execute_functional executed' optimized
  have same := agrees.pointer
  rw [pointer, pointer'] at same
  exact absurd same (by decide)

/-! ## Output -/

/-- Whatever the original has written by its end is written by the optimized program
too, first and in the same order. With a step limit the original has an end, and the
optimized program gets to where it has written as much; it has an end as well if it forms
no address beyond the last cell either. -/
structure KeepsOutput (options : Options) (program : Block) (bench : Bench) : Prop where
  ends : ∀ {limit : Nat}, bench.hook.allowed = some limit → ∃ fuel ending after,
    execute fuel program bench = some (ending, after) ∧
      (ending = .finished ∨ (∃ cell, ending = .underflow cell) ∨ ending.IsAborted)
  front : ∀ {fuel fuel' : Nat} {result result' : Ending × Bench},
    execute fuel program bench = some result →
      execute fuel' (optimize options program) bench = some result' →
        Bench.written result.2 <+: Bench.written result'.2
  gets : ∀ {limit fuel : Nat} {result : Ending × Bench}, bench.hook.allowed = some limit →
    execute fuel program bench = some result →
      ∃ config, Config.Reaches ⟨optimize options program, [], bench⟩ config ∧
        Bench.written result.2 <+: Bench.written config.rig
  stays : ∀ {limit : Nat}, bench.hook.allowed = some limit →
    Unrounded (optimize options program) bench → ∃ fuel ending after,
      execute fuel (optimize options program) bench = some (ending, after) ∧
        (ending = .finished ∨ (∃ cell, ending = .underflow cell) ∨ ending.IsAborted)

theorem written_settle (fate : Fate Bench) :
    Bench.written fate.settle.2 = Bench.written fate.state := by
  cases fate <;> rfl

/-- What a run has written by its end it has written in some configuration before. -/
theorem exists_written_of_execute {program : Block} {bench : Bench} {fuel : Nat}
    {result : Ending × Bench} (executed : execute fuel program bench = some result) :
    ∃ config, Config.Reaches ⟨program, [], bench⟩ config ∧
      Bench.written config.rig = Bench.written result.2 := by
  obtain ⟨last, stopped, reached, stops, after⟩ := exists_last_of_execute executed
  refine ⟨last, reached, ?_⟩
  rw [after]
  exact (congrArg (fun output => output.bytes.toList) (Config.kept_of_stop stops).2).symm

/-- The optimized program has written by its end what the original has, and maybe more. -/
theorem written_optimize {options : Options} {program : Block} {bench : Bench}
    (double : options.precision = .double) (ready : Ready bench)
    (unrounded : Unrounded program bench) {fuel fuel' : Nat} {result result' : Ending × Bench}
    (executed : execute fuel program bench = some result)
    (executed' : execute fuel' (optimize options program) bench = some result') :
    Bench.written result.2 <+: Bench.written result'.2 := by
  obtain ⟨s, shown⟩ := exists_shows ready unrounded
  obtain ⟨fate, ran, rfl⟩ := execute_eq_some_iff.1 ⟨fuel, executed⟩
  obtain ⟨fate', ran', rfl⟩ := execute_eq_some_iff.1 ⟨fuel', executed'⟩
  rw [written_settle, written_settle]
  have improves := improves_optimize double program bench.hook.allowed
  have optimized := faithful bench.hook.allowed (optimize options program)
  rcases fate_cases unrounded shown ran with
    ⟨u, next, ranStrip, rfl, shown'⟩ | ⟨ending, u, other, next, ranStrip, rfl, _, written⟩
  · obtain ⟨v, ranStrip', polls, _, rfl⟩ := improves.went (near_refl s) ranStrip
    obtain ⟨next', ran'', shown''⟩ := optimized.went shown ranStrip'
    cases optimized.functional _ _ _ ran' ran''
    refine ⟨[], ?_⟩
    rw [List.append_nil, Fate.state, Fate.state, (agrees_of_shows shown' shown'').written]
  · -- The optimized run may go on, and even past the strip, but takes nothing back.
    obtain ⟨b, ranStrip'⟩ := optimized.back shown ran'
    have early : u.written <+: b.state.written := improves.ended (near_refl s) ranStrip ranStrip'
    rw [Fate.state, written]
    refine early.trans ?_
    cases b with
    | went v =>
      obtain ⟨next', ran'', shown'⟩ := optimized.went shown ranStrip'
      cases optimized.functional _ _ _ ran' ran''
      refine ⟨[], ?_⟩
      rw [List.append_nil, Fate.state, Fate.state, shown'.written]
    | ended ending' v => exact Covers.written (optimized.ended shown ranStrip' ran')

theorem keepsOutput_of_unrounded {options : Options} {program : Block} {bench : Bench}
    (double : options.precision = .double) (ready : Ready bench)
    (unrounded : Unrounded program bench) : KeepsOutput options program bench where
  ends limited := exists_execute_of_unrounded limited ready unrounded
  front := written_optimize double ready unrounded
  gets := by
    intro limit fuel result limited executed
    obtain ⟨fuel', result', executed'⟩ :=
      exists_execute_of_limit (optimize options program) limited
    obtain ⟨config, reached, same⟩ := exists_written_of_execute executed'
    exact ⟨config, reached, same ▸ written_optimize double ready unrounded executed executed'⟩
  stays limited unrounded' := exists_execute_of_unrounded limited ready unrounded'

theorem keepsOutput_doubling :
    (execute 40 doubling fresh).map (fun result => Bench.written result.2) = some [6] ∧
      KeepsOutput {} doubling fresh :=
  ⟨by decide +kernel, keepsOutput_of_unrounded rfl ⟨rfl, by decide⟩
    (unrounded_of_check 40 (by decide +kernel))⟩

/-- A move as far as can be kept exactly, back again, and the cell there. -/
def outAndBack : Block :=
  [.move 9007199254740991, .move (-9007199254740991), .outputAt 0]

/-- A machine with different bytes in the second and third cell. -/
def marked : Bench :=
  ⟨⟨((Tape.ofSize 3).set 1 7).set 2 5, 2, .double⟩, {}, {}, { allowed := some 10 }⟩

theorem optimize_outAndBack : optimize {} outAndBack = [.outputAt 0] := by
  simp only [optimize, runPasses, Options.passes, Pass.apply, Program.mapBlocks_eq_replaceNested]
  decide +kernel

/-- On the way out and back the pointer is rounded to another cell, and the wrong byte
is written; without that movement the right one is. -/
theorem not_keepsOutput_marked : Ready marked ∧ ¬ KeepsOutput {} outAndBack marked := by
  refine ⟨⟨rfl, by decide⟩, fun keeps => ?_⟩
  obtain ⟨result, executed, written⟩ : ∃ result,
      execute 4 outAndBack marked = some result ∧ Bench.written result.2 = [7] :=
    ⟨_, rfl, by decide +kernel⟩
  obtain ⟨result', executed', written'⟩ : ∃ result,
      execute 2 (optimize {} outAndBack) marked = some result ∧ Bench.written result.2 = [5] := by
    rw [optimize_outAndBack]
    exact ⟨_, rfl, by decide +kernel⟩
  have front := keeps.front executed executed'
  rw [written, written'] at front
  exact absurd front (by decide)

/-! ## Endings -/

/-- The rig with a new step limit, or none. -/
def limited (bench : Bench) (allowed : Option Nat) : Bench :=
  { bench with hook := { allowed } }

/-- If the optimized program finishes, then with enough steps the original finishes in
the same state or ends at a cell left of the tape; and if the optimized program ends
at such a cell, so does the original. -/
def KeepsEndings (options : Options) (program : Block) (bench : Bench) : Prop :=
  ∀ allowed fuel ending after,
    execute fuel (optimize options program) (limited bench allowed) = some (ending, after) →
      (ending = .finished →
        ∃ enough fuel' ending' after',
          execute fuel' program (limited bench (some enough)) = some (ending', after') ∧
            (ending' = .finished ∧ Agrees after after' ∨ ∃ cell, ending' = .underflow cell)) ∧
      ∀ cell, ending = .underflow cell →
        ∃ enough fuel' cell' after',
          execute fuel' program (limited bench (some enough)) = some (.underflow cell', after')

/-- A strip shown without a limit is shown with any. -/
theorem shows_limited {bench : Bench} {s : Strip lastCell}
    (shown : Shows 53 none s (limited bench none)) (allowed : Option Nat) :
    Shows 53 allowed s (limited bench allowed) := by
  have fresh : s.polls = 0 := by
    have hook : (⟨none, 0⟩ : StepLimit) = ⟨none, s.polls⟩ := shown.hook
    injection hook with _ polls
    exact polls.symm
  exact { shown with hook := by rw [fresh]; rfl }

section Limits

variable {block : Block} {bench : Bench} {s : Strip lastCell}

/-- A run that goes through on the strip finishes on the rig, with enough steps. -/
theorem exists_finished_of_strip (shown : Shows 53 none s (limited bench none))
    {u : Strip lastCell} (ran : (interpretation lastCell none).runs block s (.went u)) :
    ∃ enough fuel next, execute fuel block (limited bench (some enough)) =
      some (.finished, flushed next) ∧ Shows 53 (some enough) u next := by
  have enough : ∀ n, some u.polls = some n → u.polls ≤ n :=
    fun n limit => Nat.le_of_eq (Option.some.inj limit)
  have ran' := runs_of_allowed ran trivial enough
  obtain ⟨next, met, shown'⟩ := (faithful _ block).went (shows_limited shown _) ran'
  obtain ⟨fuel, executed⟩ := execute_eq_some_iff.2 ⟨.went next, met, settle_went next⟩
  exact ⟨u.polls, fuel, next, executed, shown'⟩

/-- A run that ends left of the strip does so on the rig, with enough steps. -/
theorem exists_underflow_of_strip (shown : Shows 53 none s (limited bench none))
    {u : Strip lastCell} {cell : Int}
    (ran : (interpretation lastCell none).runs block s (.ended (.underflow cell) u))
    (stays : ¬ Ending.Escapes lastCell (.underflow cell)) :
    ∃ enough fuel cell' after, execute fuel block (limited bench (some enough)) =
      some (.underflow cell', after) := by
  have enough : ∀ n, some u.polls = some n → u.polls ≤ n :=
    fun n limit => Nat.le_of_eq (Option.some.inj limit)
  have ran' := runs_of_allowed ran trivial enough
  have limit : (limited bench (some u.polls)).hook.allowed = some u.polls := rfl
  obtain ⟨fate, met⟩ := Rig.exists_runs_of_limit block limit
  rcases (faithful _ block).ended (shows_limited shown _) ran' met with
    ⟨escapes, _⟩ | ⟨other, next, rfl, like, _⟩
  · exact absurd escapes stays
  · cases like with
    | underflow _ cell' =>
      obtain ⟨fuel, executed⟩ := execute_eq_some_iff.2 ⟨_, met, settle_ended _ next⟩
      exact ⟨u.polls, fuel, cell', flushed next, executed⟩

/-- A run of the rig that does not end at a poll comes from a run on the strip that
needs no limit. -/
theorem exists_strip_of_unaborted (shown : Shows 53 none s (limited bench none))
    {allowed : Option Nat} {fate : Fate Bench}
    (ran : Rig.interpretation.runs block (limited bench allowed) fate)
    (free : ∀ pointer next, fate ≠ .ended (.aborted pointer) next) :
    ∃ b, (interpretation lastCell none).runs block s b ∧
      ∀ v, b = .went v → ∃ next, fate = .went next ∧ Shows 53 allowed v next := by
  have shown' := shows_limited shown allowed
  obtain ⟨b, ranStrip⟩ := (faithful allowed block).back shown' ran
  refine ⟨b, runs_of_allowed ranStrip ?_ (fun n limit => nomatch limit), ?_⟩
  · cases b with
    | went v => trivial
    | ended ending v =>
      cases ending with
      | aborted pointer =>
        rcases (faithful allowed block).ended shown' ranStrip ran with
          ⟨escapes, _⟩ | ⟨other, next, rfl, like, _⟩
        · exact escapes
        · cases like
          exact free _ _ rfl
      | _ => trivial
  · rintro v rfl
    obtain ⟨next, ran', shown''⟩ := (faithful allowed block).went shown' ranStrip
    exact ⟨next, (faithful allowed block).functional _ _ _ ran ran', shown''⟩

end Limits

theorem keepsEndings_of_unrounded {options : Options} {program : Block} {bench : Bench}
    (double : options.precision = .double) (ready : Ready bench)
    (unrounded : Unrounded program (limited bench none)) :
    KeepsEndings options program bench := by
  intro allowed fuel ending after executed
  have start : Ready (limited bench none) := ⟨ready.precision, ready.pointer⟩
  obtain ⟨s, shown⟩ := exists_shows start unrounded
  obtain ⟨fate, ran, settled⟩ := execute_eq_some_iff.1 ⟨fuel, executed⟩
  by_cases aborted : ∃ pointer next, fate = .ended (.aborted pointer) next
  · -- A run that ended at a poll neither finished nor left the tape.
    obtain ⟨pointer, next, rfl⟩ := aborted
    cases settled
    exact ⟨nofun, nofun⟩
  have free : ∀ pointer next, fate ≠ .ended (.aborted pointer) next :=
    fun pointer next same => aborted ⟨pointer, next, same⟩
  have improves := improves_optimize double program none
  obtain ⟨b, ranOptimized, met⟩ := exists_strip_of_unaborted shown ran free
  obtain ⟨a, ranStrip⟩ := improves.back (near_refl s) ranOptimized
  cases a with
  | went u =>
    obtain ⟨v, ranOptimized', polls, _, rfl⟩ := improves.went (near_refl s) ranStrip
    obtain ⟨next, rfl, shown'⟩ := met _ (improves.functional _ _ _ ranOptimized ranOptimized')
    cases settled
    obtain ⟨enough, fuel', next', executed', shown''⟩ := exists_finished_of_strip shown ranStrip
    refine ⟨fun _ => ⟨enough, fuel', _, _, executed', .inl ⟨rfl, ?_⟩⟩, nofun⟩
    exact (agrees_of_shows shown'' shown').flushed
  | ended ending' u =>
    obtain ⟨cell, rfl⟩ := ended_of_unlimited ranStrip
    have stays := not_escapes unrounded shown ranStrip
    obtain ⟨enough, fuel', cell', after', executed'⟩ :=
      exists_underflow_of_strip shown ranStrip stays
    exact ⟨fun _ => ⟨enough, fuel', _, after', executed', .inr ⟨cell', rfl⟩⟩,
      fun _ _ => ⟨enough, fuel', cell', after', executed'⟩⟩

theorem keepsEndings_doubling :
    (execute 40 (optimize {} doubling) (limited fresh none)).map Prod.fst = some .finished ∧
      KeepsEndings {} doubling fresh := by
  refine ⟨?_, keepsEndings_of_unrounded rfl ⟨rfl, by decide⟩
    (unrounded_of_check 40 (by decide +kernel))⟩
  simp only [optimize, runPasses, Options.passes, Pass.apply, Program.mapBlocks_eq_replaceNested]
  decide +kernel

/-- A move within the tape goes to the rounded sum. -/
theorem act_move {bench : Bench} {delta : Int}
    (onTape : 0 ≤ bench.machine.precision.add bench.machine.pointer delta) :
    Rig.interpretation.act (.move delta) bench =
      .went { bench with machine := { bench.machine with
        pointer := bench.machine.precision.add bench.machine.pointer delta } } := by
  obtain ⟨cell, sum⟩ := Int.eq_ofNat_of_zero_le onTape
  have address : bench.machine.address delta = .ok cell := by
    rw [Machine.address, sum]
  rw [Rig.interpretation_act, Rig.act, Rig.move, address, sum]
  rfl

/-- Moves within the tape go to one rounded sum after the other. -/
theorem perform_moves (deltas : List Int) (bench : Bench)
    (onTape : ∀ place ∈ deltas.scanl bench.machine.precision.add bench.machine.pointer,
      0 ≤ place) :
    Rig.interpretation.perform (deltas.map Node.move) bench =
      .went { bench with machine := { bench.machine with
        pointer := deltas.foldl bench.machine.precision.add bench.machine.pointer } } := by
  induction deltas generalizing bench with
  | nil => rfl
  | cons delta rest ih =>
    rw [List.scanl_cons, List.forall_mem_cons] at onTape
    have first : 0 ≤ bench.machine.precision.add bench.machine.pointer delta := by
      refine onTape.2 _ ?_
      cases rest <;> simp
    rw [List.map_cons, Interpretation.perform_cons, act_move first]
    exact ih _ onTape.2

/-- Where the optimized program finishes one cell further on than the original does
with any number of steps. -/
theorem not_keepsEndings_farOut : Ready farOut ∧ ¬ KeepsEndings {} backAndForth farOut := by
  refine ⟨⟨rfl, by decide⟩, fun keeps => ?_⟩
  obtain ⟨after, optimized, pointer⟩ : ∃ after,
      execute 2 (optimize {} backAndForth) (limited farOut none) = some (.finished, after) ∧
        after.machine.pointer = 9007199254740990 := by
    rw [optimize_backAndForth]
    exact ⟨_, rfl, by decide +kernel⟩
  obtain ⟨enough, fuel, ending, after', executed, same⟩ :=
    (keeps none 2 .finished after optimized).1 rfl
  obtain ⟨fate, ran, settled⟩ := execute_eq_some_iff.1 ⟨fuel, executed⟩
  rw [Interpretation.runs_straight _ (by decide)] at ran
  have onTape : ∀ place ∈ [1, 1, -1, -1, -1].scanl Precision.double.add 9007199254740991,
      0 ≤ place := by decide +kernel
  rw [ran, backAndForth, perform_moves _ _ onTape, settle_went] at settled
  cases settled
  rcases same with ⟨_, agrees⟩ | ⟨cell, underflow⟩
  · have pointer' : [1, 1, -1, -1, -1].foldl Precision.double.add 9007199254740991 =
        9007199254740989 := by decide +kernel
    have same : after.machine.pointer = [1, 1, -1, -1, -1].foldl Precision.double.add
        9007199254740991 := agrees.pointer
    rw [pointer, pointer'] at same
    exact absurd same (by decide)
  · cases underflow

end TapeMachine.Optimize
