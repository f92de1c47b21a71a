import TapeMachine.Proofs.Session.Feeding
import TapeMachine.Proofs.Source.Completeness

/-!
# What a line does to a session

Between two lines nothing is pending, or a loop is open that more lines can close (`Tidy`).
A line is answered as a command, put aside, refused by the compiler or run; what each of these
leaves of the machine, the queue and the last program is said by one equation for `feed`.
-/

namespace TapeMachine

/-! ## Texts in texts -/

/-- A part of a text that is put together stands in it. -/
theorem infix_intercalate {separator part : String} {parts : List String} (among : part ∈ parts) :
    part.toList <:+: (separator.intercalate parts).toList := by
  induction parts with
  | nil => cases among
  | cons first rest ih =>
    cases rest with
    | nil =>
      have whole : separator.intercalate [first] = part := by
        rw [List.mem_singleton.1 among, String.intercalate_singleton]
      exact whole.symm ▸ List.infix_rfl
    | cons next rest =>
      rw [String.intercalate_cons_cons, String.toList_append, String.toList_append]
      rcases List.mem_cons.1 among with rfl | among
      · rw [List.append_assoc]
        exact (List.prefix_append _ _).isInfix
      · exact (ih among).trans (List.suffix_append _ _).isInfix

namespace Diagnostic.Report

/-- Reports that are written out show the codes of all of them. -/
theorem infix_writeAll {reports : List Report} {report : Report} (among : report ∈ reports)
    (file : SourceFile) : report.code.name.toList <:+: (writeAll reports file).toList := by
  have shown : "\n".intercalate (report.lines file) ∈
      reports.map fun report => "\n".intercalate (report.lines file) :=
    List.mem_map_of_mem among
  refine .trans ?_ (infix_intercalate shown)
  have first : report.code.entry.severity.label ++ "[" ++ report.code.name ++ "]: " ++
      report.message ∈ report.lines file := by
    rw [lines]
    split
    · exact List.mem_cons_self
    · exact List.mem_cons_self
  refine .trans ?_ (infix_intercalate first)
  simp only [String.toList_append, List.append_assoc]
  refine .trans ?_ (List.suffix_append _ _).isInfix
  refine .trans ?_ (List.suffix_append _ _).isInfix
  exact (List.prefix_append _ _).isInfix

end Diagnostic.Report

/-- A combination is of the hooks that are present. -/
theorem AnyOf.hooks_of_of? {η : Type} {hooks : List (Option η)} {any : AnyOf η}
    (combined : AnyOf.of? hooks = some any) : any.hooks = hooks.filterMap id := by
  unfold AnyOf.of? at combined
  split at combined
  · cases combined
  · next present =>
    cases combined
    exact present.symm

namespace Session

variable {session next : Session} {line : String} {reply : Reply} {fuel : Nat}

/-! ## Kinds of lines -/

/-- The line is taken as a command. -/
def IsCommand (session : Session) (line : String) : Prop :=
  session.pending.isEmpty ∧ (Text.Blank.trim line.toList).head? = some ':'

/-- The line completes a unit of source. -/
def Completes (session : Session) (line : String) : Prop :=
  ¬ session.IsCommand line ∧ (session.pending.append line).isComplete = true

/-- The unit that a line ends. -/
def unit (session : Session) (line : String) : SourceFile :=
  { text := (session.pending.append line).text, name := "<repl>" }

/-- The name of a command: what stands in front of the first space. -/
def commandName (line : String) : String :=
  String.ofList ((Text.Blank.trim line.toList).takeWhile (· ≠ ' '))

theorem feed_of_command (command : session.IsCommand line) (fuel : Nat) :
    session.feed fuel line = session.answer (.ofChars (Text.Blank.trim line.toList)) := by
  unfold IsCommand at command
  rw [feed, submit, if_pos command]
  cases session.answer (.ofChars (Text.Blank.trim line.toList)) <;> rfl

/-- A line that is not a command is source, put behind what is pending. -/
theorem submit_of_source (source : ¬ session.IsCommand line) :
    session.submit line =
      if (session.pending.append line).isComplete then
        submitSource { session with pending := {} } (session.pending.append line).text
      else .answered { session with pending := session.pending.append line } {} := by
  unfold IsCommand at source
  rw [submit, if_neg source]
  rfl

theorem feed_of_incomplete (source : ¬ session.IsCommand line)
    (incomplete : (session.pending.append line).isComplete = false) (fuel : Nat) :
    session.feed fuel line =
      some ({ session with pending := session.pending.append line }, {}) := by
  rw [feed, submit_of_source source, incomplete]
  rfl

theorem feed_of_refused (completes : session.Completes line) {error : CompileError}
    (refused : compile (session.unit line) session.options = .error error) (fuel : Nat) :
    session.feed fuel line = some ({ session with pending := {} },
      { errors := [(Failure.ofCompileError error).compileLine] }) := by
  have submitted := submit_of_source completes.1
  rw [completes.2, if_pos rfl, submitSource] at submitted
  unfold unit at refused
  simp only [refused] at submitted
  rw [feed, submitted]

/-- The program of a unit runs on the machine and the queue of the session. -/
theorem feed_of_compiled (completes : session.Completes line) {compiled : Compiled}
    (compiles : compile (session.unit line) session.options = .ok compiled) (fuel : Nat) :
    session.feed fuel line = (execute fuel compiled.program session.rig).map
      fun (ending, after) =>
        ({ session with
            pending := {}, lastProgram := some compiled.program
            machine := after.machine, queue := after.input },
          { output := after.output.text
            errors := ((Failure.ofEnding? after.machine.tape ending).map Failure.runLine).toList }) := by
  have submitted := submit_of_source completes.1
  rw [completes.2, if_pos rfl, submitSource] at submitted
  unfold unit at compiles
  simp only [compiles] at submitted
  rw [feed, submitted]
  rfl

/-- An answer leaves the session as it is, but for a reset and for text that is queued. -/
theorem answer_cases {request : Request} (answered : session.answer request = some (next, reply)) :
    (next = session ∧ ∀ text, request ≠ .input text) ∨
      (request = .reset ∧ next = { session with
        machine := session.machine.reset, queue := {}, lastProgram := none }) ∨
      ∃ text, request = .input text ∧ next = { session with
        queue := session.queue.append (ByteQueue.ofText (text ++ "\n")).values } := by
  cases request with
  | reset =>
    cases answered
    exact .inr (.inl ⟨rfl, rfl⟩)
  | input text =>
    cases answered
    exact .inr (.inr ⟨text, rfl, rfl⟩)
  | showTape =>
    obtain ⟨_, _, same⟩ := Option.map_eq_some_iff.1 answered
    cases same
    exact .inl ⟨rfl, nofun⟩
  | help | leave | showProgram | unknown =>
    cases answered
    exact .inl ⟨rfl, nofun⟩

/-- No command touches what is pending, the limits or the clock. -/
theorem answer_keeps {request : Request} (answered : session.answer request = some (next, reply)) :
    next.pending = session.pending ∧ next.limits = session.limits ∧
      next.clock = session.clock := by
  rcases answer_cases answered with ⟨rfl, _⟩ | ⟨_, rfl⟩ | ⟨_, _, rfl⟩ <;> exact ⟨rfl, rfl, rfl⟩

/-- What feeding a line has led to: an answer, a longer wait, or the end of a unit. Neither
touches the limits or the clock. -/
theorem feed_cases (fed : session.feed fuel line = some (next, reply)) :
    (next.limits = session.limits ∧ next.clock = session.clock) ∧
      ((session.IsCommand line ∧ next.pending = session.pending) ∨
      (¬ session.IsCommand line ∧ (session.pending.append line).isComplete = false ∧
        next = { session with pending := session.pending.append line } ∧ reply = {}) ∨
      (session.Completes line ∧ next.pending = {})) := by
  by_cases command : session.IsCommand line
  · rw [feed_of_command command] at fed
    have kept := answer_keeps fed
    exact ⟨kept.2, .inl ⟨command, kept.1⟩⟩
  cases complete : (session.pending.append line).isComplete with
  | false =>
    rw [feed_of_incomplete command complete] at fed
    cases fed
    exact ⟨⟨rfl, rfl⟩, .inr (.inl ⟨command, rfl, rfl, rfl⟩)⟩
  | true =>
    have completes : session.Completes line := ⟨command, complete⟩
    cases compiles : compile (session.unit line) session.options with
    | error error =>
      rw [feed_of_refused completes compiles] at fed
      cases fed
      exact ⟨⟨rfl, rfl⟩, .inr (.inr ⟨completes, rfl⟩)⟩
    | ok compiled =>
      rw [feed_of_compiled completes compiles, Option.map_eq_some_iff] at fed
      obtain ⟨⟨ending, after⟩, _, same⟩ := fed
      cases same
      exact ⟨⟨rfl, rfl⟩, .inr (.inr ⟨completes, rfl⟩)⟩

/-! ## Commands -/

/-- Commands are known by their names. -/
theorem Request.ofChars_cases (line : List Char) :
    (String.ofList (line.takeWhile (· ≠ ' ')) = ":reset" ↔ ofChars line = .reset) ∧
      (String.ofList (line.takeWhile (· ≠ ' ')) = ":input" ↔ ∃ text, ofChars line = .input text) ∧
      (String.ofList (line.takeWhile (· ≠ ' ')) = ":tape" ↔ ofChars line = .showTape) ∧
      (String.ofList (line.takeWhile (· ≠ ' ')) = ":ir" ↔ ofChars line = .showProgram) := by
  unfold ofChars
  split <;> simp_all

/-- What a command does to a session, by its name. -/
structure Answered (session : Session) (name : String) (next : Session) : Prop where
  other : name ≠ ":reset" → name ≠ ":input" → next = session
  reset : name = ":reset" →
    next = { session with machine := next.machine, queue := {}, lastProgram := none } ∧
      (∀ index, next.machine.tape.get index = 0) ∧ next.machine.pointer = 0
  input : name = ":input" → next = { session with queue := next.queue } ∧
    session.queue.values <+: next.queue.values

theorem answered_of_answer
    (answered : session.answer (.ofChars (Text.Blank.trim line.toList)) = some (next, reply)) :
    session.Answered (commandName line) next := by
  obtain ⟨reset, input, _⟩ := Request.ofChars_cases (Text.Blank.trim line.toList)
  unfold commandName
  constructor
  · intro notReset notInput
    rcases answer_cases answered with ⟨same, _⟩ | ⟨request, _⟩ | ⟨text, request, _⟩
    · exact same
    · exact absurd (reset.2 request) notReset
    · exact absurd (input.2 ⟨text, request⟩) notInput
  · intro name
    rw [reset.1 name] at answered
    cases answered
    exact ⟨rfl, fun index => session.machine.tape.get_clear index, rfl⟩
  · intro name
    obtain ⟨text, request⟩ := input.1 name
    rw [request] at answered
    cases answered
    exact ⟨rfl, List.prefix_append _ _⟩

/-- A request is answered, unless the cells to show are too far out to be counted. -/
theorem answer_eq_none {request : Request} (never : session.answer request = none) :
    request = .showTape ∧ session.machine.describe = none := by
  cases request with
  | showTape => exact ⟨rfl, Option.map_eq_none_iff.1 never⟩
  | help | leave | reset | input | showProgram | unknown => cases never

/-- An answer is missing only if there is no text as long as the listing to show. -/
theorem raised_of_answer {request : Request}
    (answered : session.answer request = some (next, reply)) :
    reply.raised = none ∨ reply.raised = some .excessiveWidth ∧ request = .showProgram ∧
      ∃ program, session.lastProgram = some program ∧
        Program.listing program = .error .excessiveWidth := by
  cases request with
  | showProgram =>
    rw [answer] at answered
    cases answered
    cases ran : session.lastProgram with
    | none => exact .inl rfl
    | some program =>
      cases program with
      | nil => exact .inl rfl
      | cons node rest =>
        cases listed : Program.listing (node :: rest) with
        | ok text => exact .inl (by simp [programReply, listed])
        | error fault =>
          have long : fault = .excessiveWidth := by
            rw [Program.listing] at listed
            split at listed
            · exact (Except.error.inj listed).symm
            · cases listed
          subst long
          exact .inr ⟨by simp [programReply, listed], rfl, _, rfl, listed⟩
  | showTape =>
    obtain ⟨_, _, same⟩ := Option.map_eq_some_iff.1 answered
    cases same
    exact .inl rfl
  | help | leave | reset | input | unknown =>
    cases answered
    exact .inl rfl

/-! ## Between lines -/

/-- Nothing is pending, or lines that are not complete. -/
def Tidy (session : Session) : Prop :=
  ∃ held, session.pending = .ofLines held ∧
    (held = [] ∨ (Source.Pending.ofLines held).isComplete = false)

theorem tidy_of_pending (pending : session.pending = {}) : session.Tidy :=
  ⟨[], pending, .inl rfl⟩

theorem Tidy.feed (tidy : session.Tidy) (fed : session.feed fuel line = some (next, reply)) :
    next.Tidy := by
  rcases (feed_cases fed).2 with ⟨_, kept⟩ | ⟨_, incomplete, rfl, _⟩ | ⟨_, pending⟩
  · obtain ⟨held, pending, some⟩ := tidy
    exact ⟨held, kept.trans pending, some⟩
  · obtain ⟨held, pending, _⟩ := tidy
    rw [pending, ← Source.Pending.ofLines_concat] at incomplete ⊢
    exact ⟨held ++ [line], rfl, .inr incomplete⟩
  · exact tidy_of_pending pending

theorem Fed.tidy {lines : List String} {replies : List (Reply × List UInt8)}
    (fed : Fed session lines replies next) (tidy : session.Tidy) : next.Tidy := by
  induction fed with
  | nil => exact tidy
  | cons first _ ih => exact ih (tidy.feed first)

/-! ## Refused units -/

/-- The error has a report about a close without an open, and the line that is shown for the
error names it. -/
def NamesClose (error : CompileError) : Prop :=
  ∃ reports text, error = .rejected reports text ∧
    (∃ report ∈ reports, report.code = .unmatchedClose) ∧
      Diagnostic.Code.unmatchedClose.name.toList <:+:
        (Failure.ofCompileError error).compileLine.toList

/-- The reports about a file are together longer than a text can be, and the error is that they
could not be put together. -/
def Overlong (file : SourceFile) (error : CompileError) : Prop :=
  error = .broken .excessiveWidth ∧
    Text.Units.maxLength < Text.Units.length (Diagnostic.Report.writeAll file.reports file).toList

/-- A unit is refused because a close in it has no open. -/
theorem Tidy.namesClose (tidy : session.Tidy) (completes : session.Completes line)
    {error : CompileError}
    (refused : compile (session.unit line) session.options = .error error) :
    NamesClose error ∨ Overlong (session.unit line) error := by
  obtain ⟨held, pending, _⟩ := tidy
  have complete := completes.2
  have text : (session.unit line).text = "\n".intercalate (held ++ [line]) := by
    rw [unit, pending, ← Source.Pending.ofLines_concat, Source.Pending.text_ofLines]
  rw [pending, ← Source.Pending.ofLines_concat] at complete
  generalize session.unit line = file at refused text
  have unbalanced : ¬ Brackets.Balanced (Instruction.ofChars file.text.toList) := by
    intro balanced
    obtain ⟨compiled, compiles, _⟩ := exists_compiled file balanced session.options
    rw [compiles] at refused
    cases refused
  -- The unit is complete without being balanced, so a close in it is stray.
  have stray : (Source.Pending.ofLines (held ++ [line])).stray = true := by
    rw [text, Source.ofChars_intercalate, Source.Pending.balanced_instructions_iff] at unbalanced
    rw [Source.Pending.isComplete, Bool.or_eq_true, beq_iff_eq] at complete
    rcases complete with closed | stray
    · exact Bool.eq_true_of_not_eq_false fun none => unbalanced ⟨closed, none⟩
    · exact stray
  obtain ⟨report, among, code⟩ := (Source.Pending.stray_iff_exists_report _).1 stray
  rw [ParseTree.diagnostics_eq, ← text] at among
  rw [compile_of_not_balanced unbalanced] at refused
  split at refused
  · next overlong =>
    cases refused
    exact .inr ⟨rfl, overlong⟩
  · cases refused
    have shown := Diagnostic.Report.infix_writeAll among file
    rw [code] at shown
    exact .inl ⟨_, _, rfl, ⟨report, among, code⟩, shown⟩

/-! ## Consistency -/

/-- Nothing is pending, and a new line is asked for. -/
def AtRest (session : Session) : Prop :=
  session.pending = {} ∧ session.prompt = "tapeworm> "

/-- A loop is open that more lines can close, and they are asked for. -/
def Waits (session : Session) : Prop :=
  session.pending.lines ≠ [] ∧ 0 < session.pending.depth ∧ session.pending.stray = false ∧
    session.prompt = "...> "

theorem atRest_of_pending (pending : session.pending = {}) : session.AtRest := by
  refine ⟨pending, ?_⟩
  rw [prompt, pending]
  rfl

theorem Tidy.rests_or_waits (tidy : session.Tidy) : session.AtRest ∨ session.Waits := by
  obtain ⟨held, pending, rfl | incomplete⟩ := tidy
  · exact .inl (atRest_of_pending pending)
  · right
    unfold Waits prompt
    rw [pending, incomplete]
    rw [Source.Pending.isComplete, Bool.or_eq_false_iff, beq_eq_false_iff_ne] at incomplete
    refine ⟨?_, Nat.pos_of_ne_zero incomplete.1, incomplete.2, rfl⟩
    rw [Source.Pending.lines_ofLines]
    intro none
    rw [List.reverse_eq_nil_iff.1 none] at incomplete
    exact incomplete.1 rfl

/-- The step limit of a session starts from its first poll. -/
def Unspent (session : Session) : Prop :=
  ∀ any ∈ session.rig.hook, ∀ limit, Guard.steps limit ∈ any.hooks →
    limit.taken = 0 ∧ ∃ quantity ∈ session.limits.maxSteps, limit = .ofQuantity quantity

theorem unspent (session : Session) : session.Unspent := by
  intro any among limit inside
  have hooks : any.hooks = [
      session.limits.maxSteps.map fun quantity => Guard.steps (.ofQuantity quantity),
      session.limits.timeout.map fun quantity =>
        Guard.deadline (.start quantity session.clock)].filterMap id :=
    AnyOf.hooks_of_of? among
  rw [hooks, List.mem_filterMap] at inside
  obtain ⟨hook, listed, same⟩ := inside
  rw [id_eq] at same
  subst same
  simp only [List.mem_cons, List.not_mem_nil, or_false] at listed
  rcases listed with steps | deadline
  · obtain ⟨quantity, set, same⟩ := Option.map_eq_some_iff.1 steps.symm
    cases same
    exact ⟨rfl, quantity, set, rfl⟩
  · obtain ⟨_, _, other⟩ := Option.map_eq_some_iff.1 deadline.symm
    cases other

/-- What feeding a line does to a session that has been fed others. -/
structure StaysConsistent (session : Session) (line : String) : Prop where
  /-- Afterwards nothing is pending, or a loop is waiting to be closed. -/
  pending : ∀ {fuel : Nat} {next : Session} {reply : Reply},
    session.feed fuel line = some (next, reply) → next.AtRest ∨ next.Waits
  /-- While a loop is waiting no line is a command. -/
  source : session.Waits → ¬ session.IsCommand line
  /-- Source that opens a loop is put aside. -/
  held : ¬ session.IsCommand line → (session.pending.append line).isComplete = false →
    ∀ fuel, session.feed fuel line =
      some ({ session with pending := session.pending.append line }, {})
  /-- If a loop is waiting after a line, the line was put aside and nothing else happened. -/
  waits : ∀ {fuel : Nat} {next : Session} {reply : Reply},
    session.feed fuel line = some (next, reply) → next.Waits →
      next = { session with pending := session.pending.append line } ∧ reply = {}
  /-- A unit that does not compile changes nothing, and a stray close is named unless the reports
  about the unit are too long. -/
  refused : session.Completes line → ∀ {error : CompileError},
    compile (session.unit line) session.options = .error error →
      (∀ fuel, session.feed fuel line = some ({ session with pending := {} },
        { errors := [(Failure.ofCompileError error).compileLine] })) ∧
      (NamesClose error ∨ Overlong (session.unit line) error)
  /-- A unit that compiles is run. However the run ends, it leaves the machine and the
  queue. -/
  ran : session.Completes line → ∀ {compiled : Compiled},
    compile (session.unit line) session.options = .ok compiled →
      ∀ fuel, session.feed fuel line = (execute fuel compiled.program session.rig).map
        fun (ending, after) =>
          ({ session with
              pending := {}, lastProgram := some compiled.program
              machine := after.machine, queue := after.input },
            { output := after.output.text
              errors := ((Failure.ofEnding? after.machine.tape ending).map Failure.runLine).toList })
  /-- A command leaves nothing pending and changes little, also if its answer is missing: the
  listing of a program may be too long for a text. -/
  command : session.IsCommand line → session.AtRest ∧
    ∀ {fuel : Nat} {next : Session} {reply : Reply}, session.feed fuel line = some (next, reply) →
      next.AtRest ∧ session.Answered (commandName line) next ∧
        (reply.raised = none ∨ reply.raised = some .excessiveWidth ∧ commandName line = ":ir" ∧
          ∃ program, session.lastProgram = some program ∧
            Program.listing program = .error .excessiveWidth)
  /-- Only cells that are too far out to be counted keep a command from coming to an end. -/
  ends : session.IsCommand line → ∀ fuel, (∃ next reply,
    session.feed fuel line = some (next, reply)) ∨
      commandName line = ":tape" ∧ session.machine.describe = none
  /-- The next program runs from what this line leaves, with limits that start afresh. -/
  fresh : ∀ {fuel : Nat} {next : Session} {reply : Reply},
    session.feed fuel line = some (next, reply) →
      next.rig = ⟨next.machine, next.queue, {}, session.rig.hook⟩ ∧ next.Unspent

/-- A session stays consistent, whatever lines it is fed. -/
theorem staysConsistent {start : Session} {lines : List String}
    {replies : List (Reply × List UInt8)} (nothing : start.pending = {})
    (fed : start.Fed lines replies session) (line : String) : session.StaysConsistent line := by
  have tidy : session.Tidy := fed.tidy (tidy_of_pending nothing)
  constructor
  · intro fuel next reply fed
    exact (tidy.feed fed).rests_or_waits
  · intro waits command
    exact waits.1 (List.isEmpty_iff.1 command.1)
  · exact feed_of_incomplete
  · intro fuel next reply fed waits
    rcases (feed_cases fed).2 with ⟨command, kept⟩ | ⟨_, _, same, silent⟩ | ⟨_, pending⟩
    · exact absurd (kept ▸ List.isEmpty_iff.1 command.1) waits.1
    · exact ⟨same, silent⟩
    · exact absurd (congrArg Source.Pending.lines pending) waits.1
  · intro completes error refused
    exact ⟨feed_of_refused completes refused, tidy.namesClose completes refused⟩
  · intro completes compiled compiles
    exact feed_of_compiled completes compiles
  · intro command
    have empty := List.isEmpty_iff.1 command.1
    have atRest : session.AtRest := tidy.rests_or_waits.resolve_right fun waits => waits.1 empty
    refine ⟨atRest, ?_⟩
    intro fuel next reply fed
    rw [feed_of_command command fuel] at fed
    refine ⟨atRest_of_pending ((answer_keeps fed).1.trans atRest.1), answered_of_answer fed, ?_⟩
    refine (raised_of_answer fed).imp_right fun ⟨raised, request, listed⟩ => ⟨raised, ?_, listed⟩
    exact (Request.ofChars_cases _).2.2.2.2 request
  · intro command fuel
    rw [feed_of_command command fuel]
    cases answered : session.answer (.ofChars (Text.Blank.trim line.toList)) with
    | some result => exact .inl ⟨result.1, result.2, rfl⟩
    | none =>
      obtain ⟨request, never⟩ := answer_eq_none answered
      exact .inr ⟨(Request.ofChars_cases _).2.2.1.2 request, never⟩
  · intro fuel next reply fed
    obtain ⟨limits, clock⟩ := (feed_cases fed).1
    refine ⟨?_, next.unspent⟩
    rw [rig, rig, limits, clock]

/-- A session on a small tape that has not been fed anything. -/
def newSession : Session :=
  { machine := ⟨Tape.ofSize 1, 0, .double⟩ }

/-- The session after the first line of a loop. -/
def loopingSession : Session :=
  { newSession with pending := { lines := ["+["], depth := 1 } }

theorem staysConsistent_loopingSession :
    newSession.Fed ["+["] [({}, [])] loopingSession ∧ loopingSession.StaysConsistent ":reset" := by
  have plain : (Text.Blank.trim "+[".toList).head? ≠ some ':' := by decide +kernel
  have source : ¬ newSession.IsCommand "+[" := fun command => plain command.2
  have pending : newSession.pending.append "+[" = { lines := ["+["], depth := 1 } := by
    decide +kernel
  have fed : newSession.feed 0 "+[" = some (loopingSession, {}) := by
    rw [feed_of_incomplete source (by rw [pending]; rfl), pending]
    rfl
  have silent : newSession.emitted 0 "+[" = [] := by
    rw [emitted, submit_of_source source, pending]
    rfl
  have fed : newSession.Fed ["+["] [({}, [])] loopingSession := by
    rw [← silent]
    exact .cons fed .nil
  exact ⟨fed, staysConsistent rfl fed ":reset"⟩

/-! ### Too many closes -/

/-- A unit that does not compile names a stray close. -/
def NamesStray (session : Session) (line : String) : Prop :=
  session.Completes line → ∀ error,
    compile (session.unit line) session.options = .error error → NamesClose error

theorem mem_of_mem_trim {text : List Char} {c : Char} (among : c ∈ Text.Blank.trim text) :
    c ∈ text := by
  rw [Text.Blank.trim, List.mem_reverse] at among
  have among := List.mem_reverse.1 ((List.dropWhile_suffix _).subset among)
  exact (List.dropWhile_suffix _).subset among

theorem completes_closesOnly (count : Nat) : newSession.Completes (closesOnly count).text := by
  constructor
  · intro command
    have close : ':' ∈ List.replicate count ']' := by
      have among := mem_of_mem_trim (List.mem_of_head? command.2)
      rwa [closesOnly, String.toList_ofList] at among
    exact absurd (List.eq_of_mem_replicate close) (by decide)
  · have depth := (Source.Pending.tracks_ofLines [(closesOnly count).text]).1
    have closes : Source.instructions [(closesOnly count).text] =
        List.replicate count .loopClose := by
      rw [Source.instructions, List.flatMap_singleton, closesOnly, String.toList_ofList,
        ofChars_closes]
    rw [closes, scanFrom_closes] at depth
    show (Source.Pending.ofLines [(closesOnly count).text]).isComplete = true
    rw [Source.Pending.isComplete, depth]
    rfl

theorem text_unit (line : String) : (newSession.unit line).text = line := by
  have held := Source.Pending.text_ofLines [line]
  rw [String.intercalate_singleton] at held
  exact held

/-- A line of so many closes is refused without naming any of them. -/
theorem not_namesStray_closesOnly : ¬ newSession.NamesStray (closesOnly 19000).text := by
  intro names
  have refused : compile (newSession.unit (closesOnly 19000).text) newSession.options =
      .error (.broken .excessiveWidth) :=
    compile_closesOnly (text_unit (closesOnly 19000).text) (by decide) _
  obtain ⟨_, _, rejected, _⟩ := names (completes_closesOnly 19000) _ refused
  cases rejected

end Session

end TapeMachine
