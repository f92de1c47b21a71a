import TapeMachine.Proofs.Compile.Acceptance
import TapeMachine.Proofs.Optimize.Behaviour
import TapeMachine.Proofs.Source.Pending
import TapeMachine.Session

/-!
# Sessions as single runs

A session compiles, optimizes and runs each unit of the lines that it is fed by itself.
Taken together these runs are one run of the whole source: each starts on the machine and
the queue that the one before has left, and the optimized units improve the whole program
unit by unit.
-/

namespace TapeMachine

/-! ## Runs without a hook -/

section Following

variable {η : Type} [AbortHook η] {before : List UInt8} {bench : Bench}
  {rig : Rig ByteQueue Collected (Option η)}

/-- A rig without a hook does what a bench does whose output started earlier. -/
structure Bench.Follows (before : List UInt8) (bench : Bench)
    (rig : Rig ByteQueue Collected (Option η)) : Prop where
  machine : rig.machine = bench.machine
  input : rig.input = bench.input
  written : bench.written = before ++ rig.output.bytes.toList
  hook : rig.hook = none

/-- Nothing is said about runs of the bench that end early. -/
def Bench.following (η : Type) [AbortHook η] (before : List UInt8) :
    Matching (Rig.interpretation : Interpretation Bench)
      (Rig.interpretation : Interpretation (Rig ByteQueue Collected (Option η))) where
  near := Follows before
  covers _ _ _ := True
  zero_iff := by
    intro bench rig follows
    rw [Rig.interpretation_zero, Rig.interpretation_zero, follows.machine]
  poll_went := by
    intro bench rig next follows polled
    rw [Rig.interpretation_poll, Outcome.fate_eq_went] at polled
    obtain ⟨machine, input, output⟩ := Rig.sameState_of_poll_went polled
    obtain ⟨machine', input', output', hook⟩ := rig
    obtain ⟨sameMachine, sameInput, written, rfl⟩ := follows
    refine ⟨⟨machine', input', output', none⟩, rfl, sameMachine.trans machine.symm,
      sameInput.trans input.symm, ?_, rfl⟩
    rw [Bench.written, output]
    exact written
  poll_ended := fun _ _ => trivial
  poll_stable := fun _ => trivial
  act_stable := fun _ _ => trivial

namespace Bench.Follows

theorem store (follows : Follows before bench rig) (cell : Nat) (value : UInt8) :
    (following η before).Matched (bench.store cell value).fate (rig.store cell value).fate := by
  rw [Rig.store_eq, Rig.store_eq]
  split
  · refine ⟨_, rfl, { follows with machine := ?_ }⟩
    show ({ rig.machine with tape := _ } : Machine) = _
    rw [follows.machine]
    rfl
  · trivial

theorem access (follows : Follows before bench rig) {offset : Int}
    {use : Nat → Outcome ByteQueue Collected StepLimit}
    {use' : Nat → Outcome ByteQueue Collected (Option η)}
    (next : ∀ cell, (following η before).Matched (use cell).fate (use' cell).fate) :
    (following η before).Matched (bench.access offset use).fate (rig.access offset use').fate := by
  unfold Rig.access
  rw [follows.machine]
  cases bench.machine.address offset with
  | error cell => trivial
  | ok cell => exact next cell

theorem act (follows : Follows before bench rig) (node : Node) :
    (following η before).Matched (bench.act node).fate (rig.act node).fate := by
  have machine := follows.machine
  cases node with
  | addAt offset delta =>
    rw [Rig.act, Rig.act, Rig.update_eq, Rig.update_eq, machine]
    exact follows.access fun cell => follows.store cell _
  | setAt offset value =>
    rw [Rig.act, Rig.act, Rig.update_eq, Rig.update_eq]
    exact follows.access fun cell => follows.store cell _
  | mulAt offset into factor =>
    rw [Rig.act, Rig.act, Rig.multiply_eq, Rig.multiply_eq, machine]
    refine follows.access fun source => ?_
    split
    · exact ⟨rig, rfl, follows⟩
    · exact follows.access fun cell => follows.store cell _
  | move delta =>
    rw [Rig.act, Rig.act, Rig.move_eq, Rig.move_eq]
    refine follows.access fun cell => ⟨_, rfl, { follows with machine := ?_ }⟩
    rw [machine]
  | outputAt offset =>
    rw [Rig.act, Rig.act, Rig.write_eq, Rig.write_eq]
    refine follows.access fun cell => ⟨_, rfl, { follows with written := ?_ }⟩
    show (bench.output.bytes.push _).toList = before ++ (rig.output.bytes.push _).toList
    have written : bench.output.bytes.toList = before ++ rig.output.bytes.toList := follows.written
    rw [Array.toList_push, Array.toList_push, written, machine, List.append_assoc]
  | inputAt offset =>
    rw [Rig.act, Rig.act, Rig.receive_eq, Rig.receive_eq, follows.input]
    refine follows.access fun cell => ?_
    have follows' : Follows before { bench with input := bench.input.read.2 }
        { rig with input := bench.input.read.2 } := { follows with input := rfl }
    exact follows'.store cell _
  | loop | scanLoop => exact ⟨rig, rfl, follows⟩

end Bench.Follows

/-- A run of the bench that goes through does so without the hook. -/
theorem Bench.exists_went {program : Block} {next : Bench} (follows : Follows before bench rig)
    (ran : Rig.interpretation.runs program bench (.went next)) :
    ∃ after, Rig.interpretation.runs program rig (.went after) ∧ Follows before next after :=
  (Matching.refines_same (fun node _ _ follows => Follows.act follows node) program).went
    follows ran

end Following

/-! ## Feeding lines -/

namespace Session

/-- The bytes that the program completed by a line has written. -/
def emitted (fuel : Nat) (session : Session) (line : String) : List UInt8 :=
  match session.submit line with
  | .answered _ _ | .stuck => []
  | .runs session program =>
    match execute fuel program session.rig with
    | some (_, rig) => rig.output.bytes.toList
    | none => []

/-- A session has been fed lines, each with as many steps as it takes, and has given these
replies; with each of them, the bytes that were written for it. -/
inductive Fed : Session → List String → List (Reply × List UInt8) → Session → Prop
  | nil {session : Session} : Fed session [] [] session
  | cons {session next final : Session} {line : String} {rest : List String} {reply : Reply}
      {replies : List (Reply × List UInt8)} {fuel : Nat} :
      session.feed fuel line = some (next, reply) → Fed next rest replies final →
        Fed session (line :: rest) ((reply, session.emitted fuel line) :: replies) final

/-- The machine and the queue of a session, with no limit on the steps. -/
def bench (session : Session) : Bench :=
  ⟨session.machine, session.queue, {}, .unlimited⟩

/-- No line that starts a new unit is a command. -/
def PlainLines (lines : List String) : Prop :=
  ∀ front line back, lines = front ++ line :: back →
    Brackets.Balanced (Source.instructions front) →
      (Text.Blank.trim line.toList).head? ≠ some ':'

/-- A session without limits that holds some lines of an unfinished unit. -/
structure Holds (options : Optimize.Options) (held : List String) (session : Session) : Prop where
  options : session.options = options
  limits : session.limits = {}
  pending : session.pending = .ofLines held

/-- Feeding the lines does to the session what a run does to a bench. -/
def Performs (session : Session) (lines : List String) (bench after : Bench) : Prop :=
  ∃ replies final, Fed session lines replies final ∧
    (∀ reply ∈ replies, (reply.1.errors = [] ∧ reply.1.raised = none) ∧
    reply.1.output = Text.Utf8.decode reply.2) ∧
    final.pending = {} ∧ final.machine = after.machine ∧ final.queue = after.input ∧
    after.written = bench.written ++ replies.flatMap Prod.snd

variable {options : Optimize.Options} {held : List String} {session : Session} {line : String}

/-- A line that is not a command is put behind those that are held. -/
theorem submit_line (holds : session.Holds options held)
    (plain : held = [] → (Text.Blank.trim line.toList).head? ≠ some ':') :
    session.submit line =
      if (Source.Pending.ofLines (held ++ [line])).isComplete then
        submitSource { session with pending := {} } ("\n".intercalate (held ++ [line]))
      else .answered { session with pending := .ofLines (held ++ [line]) } {} := by
  have source : ¬ (session.pending.isEmpty ∧ (Text.Blank.trim line.toList).head? = some ':') := by
    rintro ⟨empty, command⟩
    rw [holds.pending, Source.Pending.isEmpty, Source.Pending.lines_ofLines, List.isEmpty_reverse,
      List.isEmpty_iff] at empty
    exact plain empty command
  rw [submit, if_neg source, holds.pending, ← Source.Pending.ofLines_concat]
  show (if _ then submitSource _ (Source.Pending.ofLines (held ++ [line])).text else _) = _
  rw [Source.Pending.text_ofLines]

/-- A line that leaves a loop open is only put aside. -/
theorem feed_of_open (holds : session.Holds options held)
    (plain : held = [] → (Text.Blank.trim line.toList).head? ≠ some ':')
    (opened : (Source.Pending.ofLines (held ++ [line])).isComplete = false) (fuel : Nat) :
    session.feed fuel line =
        some ({ session with pending := .ofLines (held ++ [line]) }, {}) ∧
      session.emitted fuel line = [] := by
  have submitted := submit_line holds plain
  rw [opened] at submitted
  unfold feed emitted
  rw [submitted]
  exact ⟨rfl, rfl⟩

/-- A line that completes a unit has it run. -/
theorem submit_unit (holds : session.Holds options held)
    (plain : held = [] → (Text.Blank.trim line.toList).head? ≠ some ':')
    (complete : (Source.Pending.ofLines (held ++ [line])).isComplete = true) {compiled : Compiled}
    (compiles : compile { text := "\n".intercalate (held ++ [line]), name := "<repl>" } options =
      .ok compiled) :
    session.submit line =
      .runs { session with pending := {}, lastProgram := some compiled.program }
        compiled.program := by
  rw [submit_line holds plain, complete, if_pos rfl, submitSource]
  simp only [holds.options, compiles]

theorem feed_of_runs {ready : Session} {program : Block}
    (submitted : session.submit line = .runs ready program) {fuel : Nat} {ending : Ending}
    {rig : Rig ByteQueue Collected (Option (AnyOf Guard))}
    (executed : execute fuel program ready.rig = some (ending, rig)) :
    session.feed fuel line = some (ready.settle ending rig) ∧
      session.emitted fuel line = rig.output.bytes.toList := by
  constructor
  · rw [feed, submitted]
    show (execute fuel program ready.rig).map _ = _
    rw [executed]
    rfl
  · simp only [emitted, submitted, executed]

/-- The unit runs from the machine and the queue of the session. -/
theorem exists_feed_of_complete (holds : session.Holds options held)
    (plain : held = [] → (Text.Blank.trim line.toList).head? ≠ some ':')
    (complete : (Source.Pending.ofLines (held ++ [line])).isComplete = true) {compiled : Compiled}
    (compiles : compile { text := "\n".intercalate (held ++ [line]), name := "<repl>" } options =
      .ok compiled) {bench next : Bench} (machine : session.machine = bench.machine)
    (queue : session.queue = bench.input)
    (ran : Rig.interpretation.runs compiled.program bench (.went next)) :
    ∃ fuel reply after, session.feed fuel line = some (after, reply) ∧
      (reply.errors = [] ∧ reply.raised = none) ∧
      reply.output = Text.Utf8.decode (session.emitted fuel line) ∧ after.Holds options [] ∧
      after.machine = next.machine ∧ after.queue = next.input ∧
      next.written = bench.written ++ session.emitted fuel line := by
  have submitted := submit_unit holds plain complete compiles
  -- The unit runs on a rig without a hook, whose output starts empty.
  have follows : bench.Follows bench.written session.rig :=
    { machine := machine
      input := queue
      written := (List.append_nil _).symm
      hook := by rw [rig, holds.limits]; rfl }
  obtain ⟨rig, ranRig, follows'⟩ := Bench.exists_went follows ran
  obtain ⟨fuel, executed⟩ := execute_eq_some_iff.2 ⟨.went rig, ranRig, rfl⟩
  obtain ⟨fed, wrote⟩ := feed_of_runs submitted executed
  refine ⟨fuel, _, _, fed, ⟨rfl, rfl⟩, ?_, ⟨holds.options, holds.limits, rfl⟩, follows'.machine,
    follows'.input, ?_⟩
  · rw [wrote]
    rfl
  · rw [wrote]
    exact follows'.written

theorem Performs.cons {fuel : Nat} {reply : Reply} {next : Session} {rest : List String}
    {bench mid after : Bench} (fed : session.feed fuel line = some (next, reply))
    (accepted : reply.errors = [] ∧ reply.raised = none)
    (shown : reply.output = Text.Utf8.decode (session.emitted fuel line))
    (wrote : mid.written = bench.written ++ session.emitted fuel line)
    (later : next.Performs rest mid after) : session.Performs (line :: rest) bench after := by
  obtain ⟨replies, final, more, good, pending, machine, queue, written⟩ := later
  refine ⟨_, final, .cons fed more, ?_, pending, machine, queue, ?_⟩
  · intro answer among
    rcases List.mem_cons.1 among with rfl | among
    · exact ⟨accepted, shown⟩
    · exact good answer among
  · rw [written, wrote, List.flatMap_cons, List.append_assoc]

/-! ## Units of a source -/

/-- A program that improves what the lines spell, and does what feeding them does, if the
first of them are held already. -/
structure Represents (options : Optimize.Options) (held rest : List String) (program : Block) :
    Prop where
  improves : ∀ {original : Block}, Program.spell? original =
    some (Source.instructions (held ++ rest)) →
      ∀ allowed, Strip.Improves lastCell allowed original program
  performs : ∀ {session : Session} {bench after : Bench}, session.Holds options held →
    session.machine = bench.machine → session.queue = bench.input →
      Rig.interpretation.runs program bench (.went after) → session.Performs rest bench after

theorem represents_nil : Represents options [] [] [] where
  improves := by
    intro original spelled allowed
    rw [Program.eq_nil_of_spell? spelled]
    exact Strip.improves_refl []
  performs := by
    intro session bench after holds machine queue ran
    cases (Interpretation.runs_nil ..).1 ran
    refine ⟨[], session, .nil, by simp, holds.pending, machine, queue, ?_⟩
    rw [List.flatMap_nil, List.append_nil]

/-- A line that leaves a loop open is held together with the others. -/
theorem Represents.of_open {rest : List String} {program : Block}
    (later : Represents options (held ++ [line]) rest program)
    (plain : held = [] → (Text.Blank.trim line.toList).head? ≠ some ':')
    (opened : (Source.Pending.ofLines (held ++ [line])).isComplete = false) :
    Represents options held (line :: rest) program where
  improves := by
    rw [List.append_cons]
    exact later.improves
  performs := by
    intro session bench after holds machine queue ran
    obtain ⟨fed, silent⟩ := feed_of_open holds plain opened 0
    refine .cons fed ⟨rfl, rfl⟩ ?_ ?_ (later.performs ⟨holds.options, holds.limits, rfl⟩ machine queue ran)
    · rw [silent]
      rfl
    · rw [silent, List.append_nil]

/-- A line that completes a unit puts the optimized unit in front. -/
theorem Represents.of_unit (double : options.precision = .double) {rest : List String}
    {program : Block} (later : Represents options [] rest program)
    (plain : held = [] → (Text.Blank.trim line.toList).head? ≠ some ':')
    (complete : (Source.Pending.ofLines (held ++ [line])).isComplete = true)
    (balanced : Brackets.Balanced (Source.instructions (held ++ [line])))
    (balanced' : Brackets.Balanced (Source.instructions rest)) :
    ∃ front, Represents options held (line :: rest) (front ++ program) := by
  rw [← Source.ofChars_intercalate] at balanced
  obtain ⟨compiled, compiles, spelled, optimized, _⟩ :=
    exists_compiled { text := "\n".intercalate (held ++ [line]), name := "<repl>" } balanced options
  obtain ⟨remainder, spelled'⟩ := Program.exists_spelled balanced'
  refine ⟨compiled.program, ?_, ?_⟩
  · intro original whole allowed
    have split : original = compiled.unoptimized ++ remainder := by
      refine Program.eq_of_spell? (Program.spell?_append spelled spelled') ?_
      rw [whole, List.append_cons, Source.instructions_append, ← Source.ofChars_intercalate]
    rw [split, optimized]
    exact Matching.refines_append (Optimize.improves_optimize double _ allowed)
      (later.improves spelled' allowed)
  · intro session bench after holds machine queue ran
    obtain ⟨first, ranUnit, leads⟩ := (Interpretation.runs_append ..).1 ran
    cases first with
    | ended ending t => cases leads
    | went mid =>
      obtain ⟨fuel, reply, next, fed, accepted, shown, holds', machine', queue', wrote⟩ :=
        exists_feed_of_complete holds plain complete compiles machine queue ranUnit
      exact .cons fed accepted shown wrote (later.performs holds' machine' queue' leads)

/-- The lines of balanced source are represented by the units among them. -/
theorem exists_represents (double : options.precision = .double) (rest : List String) :
    ∀ held, Brackets.Balanced (Source.instructions (held ++ rest)) →
      (held = [] ∨ ¬ Brackets.Balanced (Source.instructions held)) → PlainLines (held ++ rest) →
        ∃ program, Represents options held rest program := by
  induction rest with
  | nil =>
    intro held balanced unfinished _
    rw [List.append_nil] at balanced
    rcases unfinished with rfl | unbalanced
    · exact ⟨[], represents_nil⟩
    · exact absurd balanced unbalanced
  | cons line rest ih =>
    intro held balanced unfinished plain
    have notCommand : held = [] → (Text.Blank.trim line.toList).head? ≠ some ':' := by
      rintro rfl
      exact plain [] line rest rfl .nil
    rw [List.append_cons] at balanced plain
    have complete := Source.Pending.isComplete_ofLines balanced
    by_cases unit : Brackets.Balanced (Source.instructions (held ++ [line]))
    · -- What follows the unit starts with nothing held.
      rw [Source.instructions_append] at balanced
      have remainder := balanced.behind unit
      have plain' : PlainLines rest := by
        intro front next back same balanced'
        refine plain (held ++ [line] ++ front) next back (by rw [same]; simp) ?_
        rw [Source.instructions_append]
        exact unit.append balanced'
      obtain ⟨program, later⟩ := ih [] remainder (.inl rfl) plain'
      obtain ⟨front, represents⟩ :=
        later.of_unit double notCommand (complete.2 unit) unit remainder
      exact ⟨_, represents⟩
    · obtain ⟨program, later⟩ := ih (held ++ [line]) balanced (.inr unit) plain
      exact ⟨program, later.of_open notCommand (Bool.eq_false_iff.2 (mt complete.1 unit))⟩

/-! ## One run -/

open Optimize Strip in
/-- Where the original finishes without rounding, a program that improves it goes through
to the same state. -/
theorem went_of_improves {original program : Block} {bench : Bench}
    (improves : Improves lastCell bench.hook.allowed original program) (ready : Ready bench)
    (unrounded : Unrounded original bench) {fuel : Nat} {after : Bench}
    (executed : execute fuel original bench = some (.finished, after)) :
    ∃ next, Rig.interpretation.runs program bench (.went next) ∧ Agrees next after := by
  obtain ⟨s, shown⟩ := exists_shows ready unrounded
  obtain ⟨fate, ran, settled⟩ := execute_eq_some_iff.1 ⟨fuel, executed⟩
  rcases fate_cases unrounded shown ran with
    ⟨u, last, ranStrip, rfl, shown'⟩ | ⟨ending, u, other, last, _, rfl, like, _⟩
  · obtain ⟨v, ranImproved, polls, _, rfl⟩ := improves.went (near_refl s) ranStrip
    obtain ⟨next, ran', shown''⟩ := (faithful _ program).went shown ranImproved
    rw [settle_went] at settled
    cases settled
    have agrees := agrees_of_shows shown' shown''
    exact ⟨next, ran', agrees.cells, agrees.pointer, agrees.input, agrees.written⟩
  · rw [settle_ended] at settled
    cases like <;> cases settled

/-- The replies and the last state of a session are what a run leaves behind. -/
structure EndsAs (replies : List (Reply × List UInt8)) (final : Session) (after : Bench) :
    Prop where
  accepted : ∀ reply ∈ replies, reply.1.errors = [] ∧ reply.1.raised = none
  shown : ∀ reply ∈ replies, reply.1.output = Text.Utf8.decode reply.2
  pending : final.pending = {}
  cells : ∀ index, final.machine.tape.get index = after.machine.tape.get index
  pointer : final.machine.pointer = after.machine.pointer
  queue : final.queue = after.input
  written : replies.flatMap Prod.snd = after.written

/-- If the whole source, not optimized, finishes on the machine and the queue of the
session, then feeding its lines ends as that run does. -/
def FeedsAsOneRun (session : Session) (lines : List String) : Prop :=
  ∃ compiled, compile { text := "\n".intercalate lines } session.options = .ok compiled ∧
    ∀ fuel after, execute fuel compiled.unoptimized session.bench = some (.finished, after) →
      ∃ replies final, session.Fed lines replies final ∧ EndsAs replies final after

/-- However balanced source is cut into lines, feeding them is one run of all of it, as
long as no address of that run lies beyond the last cell that a tape can have. -/
theorem feedsAsOneRun_of_unrounded {session : Session} {lines : List String}
    (double : session.options.precision = .double) (limits : session.limits = {})
    (pending : session.pending = {}) (ready : Ready session.bench)
    (balanced : Brackets.Balanced (Instruction.ofChars ("\n".intercalate lines).toList))
    (plain : PlainLines lines)
    (unrounded : ∀ compiled, compile { text := "\n".intercalate lines } session.options =
      .ok compiled → Unrounded compiled.unoptimized session.bench) :
    FeedsAsOneRun session lines := by
  obtain ⟨compiled, compiles, spelled, _⟩ :=
    exists_compiled { text := "\n".intercalate lines } balanced session.options
  refine ⟨compiled, compiles, ?_⟩
  intro fuel after executed
  rw [Source.ofChars_intercalate] at balanced spelled
  obtain ⟨program, represents⟩ := exists_represents double lines [] balanced (.inl rfl) plain
  obtain ⟨next, ran, agrees⟩ :=
    went_of_improves (represents.improves spelled _) ready (unrounded compiled compiles) executed
  obtain ⟨replies, final, fed, good, pending, machine, queue, written⟩ :=
    represents.performs ⟨rfl, limits, pending⟩ rfl rfl ran
  refine ⟨replies, final, fed, ?_⟩
  exact {
    accepted := fun reply among => (good reply among).1
    shown := fun reply among => (good reply among).2
    pending := pending
    cells := fun index => by rw [machine, agrees.cells]
    pointer := by rw [machine, agrees.pointer]
    queue := by rw [queue, agrees.input]
    written := by
      have start : session.bench.written = [] := rfl
      rw [← agrees.written, written, start, List.nil_append] }

theorem plainLines_of_forall {lines : List String}
    (plain : ∀ line ∈ lines, (Text.Blank.trim line.toList).head? ≠ some ':') :
    PlainLines lines := by
  intro front line back same _
  refine plain line ?_
  rw [same]
  exact List.mem_append_right front List.mem_cons_self

/-- A loop over two lines, and an echo. -/
def loopLines : List String :=
  ["+[-", "]", ",."]

/-- A session with two cells and a byte to read. -/
def shortSession : Session :=
  { machine := ⟨Tape.ofSize 2, 0, .double⟩, queue := ⟨[66]⟩ }

/-- What the lines spell. -/
def loopProgram : Block :=
  [.addAt 0 1, .loop [.addAt 0 (-1)], .inputAt 0, .outputAt 0]

theorem feedsAsOneRun_loopLines :
    (execute 10 loopProgram shortSession.bench).map Prod.fst = some .finished ∧
      FeedsAsOneRun shortSession loopLines := by
  have spelled : Program.spell? loopProgram =
      some (Instruction.ofChars ("\n".intercalate loopLines).toList) := by decide +kernel
  refine ⟨by decide +kernel, feedsAsOneRun_of_unrounded rfl rfl rfl ⟨rfl, by decide⟩
    (Program.balanced_of_spell? spelled) (plainLines_of_forall (by decide +kernel)) ?_⟩
  intro compiled compiles
  rw [(eq_of_compile compiles spelled).1]
  exact unrounded_of_check 10 (by decide +kernel)

/-- A session whose pointer is at the last cell that is kept exactly. -/
def farSession : Session :=
  { machine := ⟨Tape.ofSize 1, 9007199254740991, .double⟩ }

theorem spell?_backAndForth : Program.spell? Optimize.backAndForth =
    some (Instruction.ofChars ("\n".intercalate [">><<<"]).toList) := by
  decide +kernel

theorem plainLines_backAndForth : PlainLines [">><<<"] :=
  plainLines_of_forall (by decide +kernel)

/-- The session runs the line as a single move. -/
theorem submit_farSession :
    farSession.submit ">><<<" =
      .runs { farSession with lastProgram := some [.move (-1)] } [.move (-1)] := by
  obtain ⟨unit, compiles, _⟩ :=
    exists_compiled { text := "\n".intercalate ([] ++ [">><<<"]), name := "<repl>" }
      (Program.balanced_of_spell? spell?_backAndForth) {}
  have optimized : unit.program = [.move (-1)] := by
    rw [(eq_of_compile compiles spell?_backAndForth).2, Optimize.optimize_backAndForth]
  have holds : farSession.Holds {} [] := ⟨rfl, rfl, rfl⟩
  have submitted := submit_unit holds (fun _ => plainLines_backAndForth [] _ _ rfl .nil)
    (by decide +kernel) compiles
  rw [optimized] at submitted
  exact submitted

theorem pointer_of_fed_farSession {replies : List (Reply × List UInt8)} {final : Session}
    (fed : Fed farSession [">><<<"] replies final) :
    final.machine.pointer = 9007199254740990 := by
  cases fed with
  | @cons _ _ _ _ _ _ _ fuel fed more =>
    cases more
    rw [feed, submit_farSession] at fed
    -- The move and the end of the program take two steps.
    obtain _ | _ | fuel := fuel
    · cases fed
    · cases fed
    · cases fed
      decide +kernel

/-- Where positions are rounded the optimized unit ends elsewhere. -/
theorem not_feedsAsOneRun_farSession :
    Ready farSession.bench ∧
      Brackets.Balanced (Instruction.ofChars ("\n".intercalate [">><<<"]).toList) ∧
        PlainLines [">><<<"] ∧ ¬ FeedsAsOneRun farSession [">><<<"] := by
  refine ⟨⟨rfl, by decide⟩, Program.balanced_of_spell? spell?_backAndForth,
    plainLines_backAndForth, ?_⟩
  rintro ⟨compiled, compiles, feeds⟩
  rw [(eq_of_compile compiles spell?_backAndForth).1] at feeds
  obtain ⟨after, executed, pointer⟩ : ∃ after,
      execute 6 Optimize.backAndForth farSession.bench = some (.finished, after) ∧
        after.machine.pointer = 9007199254740989 := ⟨_, rfl, by decide +kernel⟩
  obtain ⟨replies, final, fed, ends⟩ := feeds 6 after executed
  have pointer' := pointer_of_fed_farSession fed
  rw [ends.pointer, pointer] at pointer'
  cases pointer'

end Session

end TapeMachine
