import TapeMachine.Command.Repl
import TapeMachine.Proofs.Execution.Intake
import TapeMachine.Proofs.Session.Consistency

/-!
# Queued text

Text that is queued with `:input` comes to the programs of a session in the order in which it was
queued. Between two resets nothing is lost and nothing comes twice: what was unread and what is
queued is what the programs read and what is still unread (`Exchanges.conserved`). The text itself
loses the blanks at its end, since the line is trimmed before it is read as a command
(`queuesText`).
-/

namespace TapeMachine

/-! ## Text at the end of a line -/

namespace Text.Blank

/-- A text without the blanks at its end. -/
def trimEnd (text : List Char) : List Char :=
  (text.reverse.dropWhile isBlank).reverse

theorem trim_eq_trimEnd {text : List Char} (solid : ∀ c ∈ text.head?, isBlank c = false) :
    trim text = trimEnd text := by
  cases text with
  | nil => rfl
  | cons c rest =>
    rw [trim, trimEnd, List.dropWhile_cons, solid c rfl]
    rfl

/-- A text that does not end in a blank stays as it is. -/
theorem trimEnd_of_solid {text : List Char} (solid : ∀ c ∈ text.getLast?, isBlank c = false) :
    trimEnd text = text := by
  rw [trimEnd]
  cases reversed : text.reverse with
  | nil => rw [List.reverse_eq_nil_iff.1 reversed]; rfl
  | cons c rest =>
    have last : text.getLast? = some c := by
      rw [← List.head?_reverse, reversed]
      rfl
    rw [List.dropWhile_cons, solid c last]
    show (c :: rest).reverse = text
    rw [← reversed, List.reverse_reverse]

/-- Of a text that goes on with something solid, only the rest is trimmed. -/
theorem trimEnd_append (front : List Char) (back : List Char) :
    trimEnd (front ++ back) =
      if trimEnd back = [] then trimEnd front else front ++ trimEnd back := by
  rw [trimEnd, List.reverse_append, List.dropWhile_append]
  simp only [trimEnd, List.reverse_eq_nil_iff, List.isEmpty_iff]
  split
  · rfl
  · rw [List.reverse_append, List.reverse_reverse]

end Text.Blank

theorem ByteQueue.append_nil (queue : ByteQueue) : queue.append [] = queue := by
  rw [ByteQueue.append, List.append_nil]

namespace Session

open Text.Blank (trim trimEnd)

variable {session next : Session} {line text : String} {reply : Reply} {fuel : Nat}

/-! ## The entry -/

/-- The text that is queued when a text is entered. -/
def entered (text : String) : String :=
  String.ofList (trimEnd text.toList)

theorem trim_input (text : String) : trim (":input " ++ text).toList =
    if trimEnd text.toList = [] then ":input".toList
    else ":input ".toList ++ trimEnd text.toList := by
  rw [String.toList_append, Text.Blank.trim_eq_trimEnd, Text.Blank.trimEnd_append]
  · congr 1
  · intro c first
    cases first
    decide

/-- The command takes the text without the blanks at its end. -/
theorem ofChars_input (text : String) :
    Request.ofChars (trim (":input " ++ text).toList) = .input (entered text) := by
  rw [trim_input]
  split
  · next none => rw [entered, none]; rfl
  · rfl

/-- Bytes put behind those still unread, and the note about them. -/
def queueing (session : Session) (bytes : List UInt8) : Session × Reply :=
  ({ session with queue := session.queue.append (ByteQueue.ofBytes bytes).values },
    { notes := ["queued " ++ toString bytes.length ++ " bytes"] })

/-- The bytes of a text, and a newline. -/
def lineBytes (text : String) : List UInt8 :=
  Text.Utf8.encode text ++ [10]

theorem ofText_newline (text : String) :
    ByteQueue.ofText (text ++ "\n") = .ofBytes (lineBytes text) := by
  rw [ByteQueue.ofText, lineBytes, Text.Utf8.encode, String.toList_append, List.flatMap_append]
  rfl

theorem isCommand_input (idle : session.pending.isEmpty = true) (text : String) :
    session.IsCommand (":input " ++ text) := by
  refine ⟨idle, ?_⟩
  rw [trim_input]
  split <;> rfl

/-- The entry of a text queues it, and does nothing else. -/
theorem feed_input (idle : session.pending.isEmpty = true) (text : String) (fuel : Nat) :
    session.feed fuel (":input " ++ text) = some (session.queueing (lineBytes (entered text))) := by
  rw [feed_of_command (isCommand_input idle text), ofChars_input, answer, ofText_newline]
  simp only [queueing, ByteQueue.remaining, ByteQueue.ofBytes, List.length_map]

/-! ## Lines -/

instance (session : Session) (line : String) : Decidable (session.IsCommand line) :=
  inferInstanceAs (Decidable (_ ∧ _))

/-- The request of a line, if it is a command. -/
def request? (session : Session) (line : String) : Option Request :=
  if session.IsCommand line then some (.ofChars (trim line.toList)) else none

/-- The values that a request queues. -/
def Request.values : Request → List Int
  | .input text => (ByteQueue.ofBytes (lineBytes text)).values
  | _ => []

/-- The values that a line queues. -/
def queues (session : Session) (line : String) : List Int :=
  ((session.request? line).map Request.values).getD []

/-- The readings of the program that a line completes. -/
def received (fuel : Nat) (session : Session) (line : String) : List Reading :=
  match session.submit line with
  | .answered _ _ | .stuck => []
  | .runs session program => (Config.mk program [] session.rig).readings fuel

/-- A command leads to its answer, if it has one. -/
theorem answer_of_submit (command : session.IsCommand line)
    (answered : session.submit line = .answered next reply) :
    session.answer (.ofChars (trim line.toList)) = some (next, reply) := by
  unfold IsCommand at command
  rw [submit, if_pos command] at answered
  cases answer : session.answer (.ofChars (trim line.toList)) with
  | none =>
    rw [answer] at answered
    cases answered
  | some result =>
    rw [answer] at answered
    cases answered
    rfl

/-- A request other than a reset puts values behind the others at most. -/
theorem queue_answer {request : Request} (kept : request ≠ .reset)
    (answered : session.answer request = some (next, reply)) :
    next.queue = session.queue.append request.values := by
  rcases answer_cases answered with ⟨rfl, notInput⟩ | ⟨reset, _⟩ | ⟨text, rfl, rfl⟩
  · cases request with
    | input text => exact absurd rfl (notInput text)
    | _ => exact (ByteQueue.append_nil _).symm
  · exact absurd reset kept
  · rw [ofText_newline]
    rfl

/-- A line that needs no run puts values behind the others at most. -/
theorem queue_answered (kept : session.request? line ≠ some .reset)
    (answered : session.submit line = .answered next reply) :
    next.queue = session.queue.append (session.queues line) := by
  by_cases command : session.IsCommand line
  · have request : session.request? line = some (.ofChars (trim line.toList)) := if_pos command
    rw [request] at kept
    rw [queue_answer (mt (congrArg some) kept) (answer_of_submit command answered), queues, request]
    rfl
  · have request : session.request? line = none := if_neg command
    have nothing : session.queue = session.queue.append (session.queues line) := by
      rw [queues, request]
      exact (ByteQueue.append_nil _).symm
    rw [submit_of_source command] at answered
    split at answered
    · rw [submitSource] at answered
      split at answered
      · cases answered
        exact nothing
      · cases answered
    · cases answered
      exact nothing

/-- A program that a line completes runs with the queue of the session. -/
theorem queue_runs {ready : Session} {program : Block}
    (runs : session.submit line = .runs ready program) :
    ready.queue = session.queue ∧ session.queues line = [] := by
  have source : ¬ session.IsCommand line := by
    intro command
    unfold IsCommand at command
    rw [submit, if_pos command] at runs
    split at runs <;> cases runs
  have request : session.request? line = none := if_neg source
  rw [queues, request]
  rw [submit_of_source source] at runs
  split at runs
  · rw [submitSource] at runs
    split at runs
    · cases runs
    · cases runs
      exact ⟨rfl, rfl⟩
  · cases runs

/-- What a line does to the queue: it queues values, or has a program read some. -/
theorem queue_cases (kept : session.request? line ≠ some .reset)
    (fed : session.feed fuel line = some (next, reply)) :
    (next.queue = session.queue.append (session.queues line) ∧
      session.received fuel line = []) ∨
    (session.queues line = [] ∧
      InputSource.reads (session.received fuel line).length session.queue =
        (session.received fuel line, next.queue)) := by
  rw [feed] at fed
  rw [received]
  cases submitted : session.submit line with
  | answered answered answer =>
    rw [submitted] at fed
    cases fed
    exact .inl ⟨queue_answered kept submitted, rfl⟩
  | stuck =>
    rw [submitted] at fed
    cases fed
  | runs ready program =>
    rw [submitted] at fed
    obtain ⟨⟨ending, rig⟩, executed, settled⟩ := Option.map_eq_some_iff.1 fed
    cases settled
    obtain ⟨queue, none⟩ := queue_runs submitted
    refine .inr ⟨none, ?_⟩
    rw [← queue]
    exact reads_of_execute executed

/-- A program reads the unread values in order, and is told that there are no more only behind the
last of them. -/
theorem received_eq (fed : session.feed fuel line = some (next, reply)) :
    session.received fuel line =
      inOrder session.queue.values (session.received fuel line).length := by
  rw [feed] at fed
  rw [received]
  cases submitted : session.submit line with
  | answered | stuck =>
    show [] = [] ++ List.replicate (0 - session.queue.values.length) _
    rw [Nat.zero_sub]
    rfl
  | runs ready program =>
    rw [submitted] at fed
    obtain ⟨⟨ending, rig⟩, executed, -⟩ := Option.map_eq_some_iff.1 fed
    have read := reads_of_execute executed
    rw [ByteQueue.reads_eq] at read
    have unread : ready.rig.input.values = session.queue.values :=
      congrArg ByteQueue.values (queue_runs submitted).1
    rw [unread] at read
    exact (congrArg Prod.fst read).symm

/-! ## Conservation -/

/-- A session has been fed lines, none of them a reset. They queued these values, and the programs
they completed have made these reads. -/
inductive Exchanges : Session → List String → List Int → List Reading → Session → Prop
  | nil {session : Session} : Exchanges session [] [] [] session
  | cons {session next final : Session} {line : String} {rest : List String} {reply : Reply}
      {queued : List Int} {readings : List Reading} {fuel : Nat}
      (kept : session.request? line ≠ some .reset)
      (fed : session.feed fuel line = some (next, reply))
      (later : Exchanges next rest queued readings final) :
      Exchanges session (line :: rest) (session.queues line ++ queued)
        (session.received fuel line ++ readings) final

/-- A line moves values from the queue to the program and loses none. -/
theorem queue_feed (kept : session.request? line ≠ some .reset)
    (fed : session.feed fuel line = some (next, reply)) :
    session.queue.values ++ session.queues line =
      valuesOf (session.received fuel line) ++ next.queue.values := by
  rcases queue_cases kept fed with ⟨queued, none⟩ | ⟨none, read⟩
  · rw [queued, none]
    rfl
  · rw [ByteQueue.reads_eq] at read
    obtain ⟨readings, queue⟩ := Prod.mk.inj read
    have values := congrArg valuesOf readings
    rw [valuesOf_inOrder] at values
    rw [none, List.append_nil, ← values, ← queue]
    exact (List.take_append_drop _ _).symm

/-- What was unread and what is queued is what the programs read and what is still unread. -/
theorem Exchanges.conserved {lines : List String} {queued : List Int} {readings : List Reading}
    {final : Session} (exchanges : session.Exchanges lines queued readings final) :
    session.queue.values ++ queued = valuesOf readings ++ final.queue.values := by
  induction exchanges with
  | nil => exact List.append_nil _
  | cons kept fed later ih =>
    rw [← List.append_assoc, queue_feed kept fed, List.append_assoc, ih, valuesOf, valuesOf,
      valuesOf, List.filterMap_append, List.append_assoc]

/-! ## Queued text -/

theorem entered_of_solid (solid : ∀ c ∈ text.toList.getLast?, Text.Blank.isBlank c = false) :
    entered text = text := by
  rw [entered, Text.Blank.trimEnd_of_solid solid, String.ofList_toList]

theorem queues_input (idle : session.pending.isEmpty = true) (text : String) :
    session.queues (":input " ++ text) = (ByteQueue.ofBytes (lineBytes (entered text))).values := by
  rw [queues, request?, if_pos (isCommand_input idle text), ofChars_input]
  rfl

/-- A text is queued as it is, and a newline behind it. -/
def QueuesWhole (session : Session) (text : String) : Prop :=
  ∀ fuel, session.feed fuel (":input " ++ text) = some (session.queueing (lineBytes text))

/-- What becomes of a text that is entered. -/
structure QueuesText (session : Session) (text : String) : Prop where
  /-- A text that does not end in a blank is queued as it is. -/
  whole : (∀ c ∈ text.toList.getLast?, Text.Blank.isBlank c = false) → session.QueuesWhole text
  /-- Any other is queued without the blanks at its end. -/
  entry : ∀ fuel, session.feed fuel (":input " ++ text) =
    some (session.queueing (lineBytes (entered text)))
  /-- The text that the command is started with is entered before the first line. -/
  flag : ∀ (request : Command.ReplRequest) (fuel : Nat) (clock : Clock),
    request.input = some text → request.start fuel clock = some
      (queueing { options := .ofSwitches request.unoptimized request.oddDeltas
                  limits := request.limits, clock } (lineBytes (entered text))).1
  /-- It queues the same values whenever it is entered. -/
  values : ∀ later : Session, later.pending.isEmpty = true →
    later.queues (":input " ++ text) = (ByteQueue.ofBytes (lineBytes (entered text))).values
  /-- The programs run afterwards read what was unread, then the text, then what is queued later. -/
  order : ∀ {lines : List String} {queued : List Int} {readings : List Reading} {final : Session},
    (session.queueing (lineBytes (entered text))).1.Exchanges lines queued readings final →
      session.queue.values ++ (ByteQueue.ofBytes (lineBytes (entered text))).values ++ queued =
        valuesOf readings ++ final.queue.values
  /-- No program is told that there are no more values while there are. -/
  reads : ∀ {later next : Session} {fuel : Nat} {line : String} {reply : Reply},
    later.feed fuel line = some (next, reply) →
      later.received fuel line =
        inOrder later.queue.values (later.received fuel line).length

/-- Text that is queued reaches the programs of the session. -/
theorem queuesText (idle : session.pending.isEmpty = true) (text : String) :
    QueuesText session text where
  whole solid fuel := by
    rw [feed_input idle, entered_of_solid solid]
  entry := feed_input idle text
  flag request fuel clock given := by
    rw [Command.ReplRequest.start, given]
    show (feed fuel _ (":input " ++ text)).map Prod.fst = _
    rw [feed_input rfl, Option.map_some]
  values later idle := queues_input idle text
  order exchanges := exchanges.conserved
  reads fed := received_eq fed

/-- A text of two bytes for one character, with a blank at its end. -/
theorem queuesText_accent : ({} : Session).pending.isEmpty = true ∧ QueuesText {} "h\u00e9 " :=
  ⟨rfl, queuesText rfl "h\u00e9 "⟩

/-- A blank at the end of a text is not queued. -/
theorem not_queuesWhole_blank : ¬ QueuesWhole {} "hi " := by
  intro whole
  have same := (whole 0).symm.trans (feed_input rfl "hi " 0)
  have queues := congrArg (Option.map fun result : Session × Reply => result.1.queue) same
  exact absurd queues (by decide +kernel)

end Session

end TapeMachine
