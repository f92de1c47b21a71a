import TapeMachine.Proofs.Execution.Steps
import TapeMachine.Proofs.Machine.Addressing

/-!
# The cells that a step touches

A step reads and stores a few cells only: that under the pointer where a loop or a scan
is decided, and those that a node addresses. On a tape that holds the same in these
cells the step does the same, and all other cells stay as they are (`Config.confined`).
-/

namespace TapeMachine

/-! ## Touched cells -/

namespace Machine

/-- The cell at an offset, if there is one. -/
def cellAt (machine : Machine) (offset : Int) : List Int :=
  match machine.address offset with
  | .ok cell => [(cell : Int)]
  | .error _ => []

/-- The cells that a node reads or stores. A multiplication looks at its source first,
and at its target only if there is something to add. -/
def touched (machine : Machine) : Node → List Int
  | .addAt offset _ | .setAt offset _ | .outputAt offset | .inputAt offset => machine.cellAt offset
  | .mulAt offset into _ =>
    match machine.address offset with
    | .error _ => []
    | .ok source =>
      if machine.tape.get source = 0 then [(source : Int)]
      else (source : Int) :: machine.cellAt (machine.precision.add offset into)
  | .move _ => []
  | .loop _ | .scanLoop _ => [machine.pointer]

theorem mem_cellAt {machine : Machine} {offset : Int} {cell : Nat}
    (found : machine.address offset = .ok cell) : (cell : Int) ∈ machine.cellAt offset := by
  rw [cellAt, found]
  exact List.mem_singleton.2 rfl

end Machine

variable {ι ο η : Type}

/-- The cells that the next step reads or stores. -/
def Config.touched (config : Config ι ο η) : List Int :=
  match config.code, config.loops with
  | node :: _, _ => config.rig.machine.touched node
  | [], [] => []
  | [], _ :: _ => [config.rig.machine.pointer]

namespace Tape

/-- Two tapes hold the same in some cells. -/
def AgreeOn (cells : List Int) (tape other : Tape) : Prop :=
  ∀ index : Nat, (index : Int) ∈ cells → other.get index = tape.get index

/-- Two tapes hold the same in all other cells. -/
def AgreeOff (cells : List Int) (tape other : Tape) : Prop :=
  ∀ index : Nat, (index : Int) ∉ cells → other.get index = tape.get index

theorem agreeOff_set {cells : List Int} {index : Nat} (among : (index : Int) ∈ cells) (tape : Tape)
    (value : UInt8) : AgreeOff cells tape (tape.set index value) := by
  intro other outside
  have different : other ≠ index := by
    rintro rfl
    exact outside among
  rw [get_set, if_neg different]

theorem AgreeOn.set {cells : List Int} {tape other : Tape} (agree : AgreeOn cells tape other)
    (index : Nat) (value : UInt8) :
    AgreeOn cells (tape.set index value) (other.set index value) := by
  intro cell among
  rw [get_set, get_set, agree cell among]

end Tape

/-- The rig with another tape. -/
def Rig.withTape (rig : Rig ι ο η) (tape : Tape) : Rig ι ο η :=
  { rig with machine := { rig.machine with tape } }

/-- The outcome with another tape. -/
def Outcome.withTape (outcome : Outcome ι ο η) (tape : Tape) : Outcome ι ο η :=
  match outcome with
  | .went rig => .went (rig.withTape tape)
  | .ended ending rig => .ended ending (rig.withTape tape)

/-- The tape of an outcome. -/
def Outcome.tape : Outcome ι ο η → Tape
  | .went rig => rig.machine.tape
  | .ended _ rig => rig.machine.tape

/-- The configuration with another tape. -/
def Config.withTape (config : Config ι ο η) (tape : Tape) : Config ι ο η :=
  { config with rig := config.rig.withTape tape }

/-- What a step leads to, with another tape. -/
def Progress.withTape (progress : Progress ι ο η) (tape : Tape) : Progress ι ο η :=
  match progress with
  | .next config => .next (config.withTape tape)
  | .stop ending rig => .stop ending (rig.withTape tape)

/-- The tape of what a step leads to. -/
def Progress.tape : Progress ι ο η → Tape
  | .next config => config.rig.machine.tape
  | .stop _ rig => rig.machine.tape

/-- From two tapes, that were the same in these cells, two tapes came about that are the
same in them too, and neither changed in other cells. -/
structure Tape.Parallel (cells : List Int) (start other after after' : Tape) : Prop where
  agree : AgreeOn cells after after'
  kept : AgreeOff cells start after
  kept' : AgreeOff cells other after'

theorem Tape.Parallel.refl {cells : List Int} {tape other : Tape}
    (agree : AgreeOn cells tape other) : Parallel cells tape other tape other :=
  ⟨agree, fun _ _ => rfl, fun _ _ => rfl⟩

theorem Tape.Parallel.set {cells : List Int} {tape other : Tape}
    (agree : AgreeOn cells tape other) {index : Nat} (among : (index : Int) ∈ cells)
    (value : UInt8) :
    Parallel cells tape other (tape.set index value) (other.set index value) :=
  ⟨agree.set index value, agreeOff_set among tape value, agreeOff_set among other value⟩

/-- An action does the same with another tape. -/
def Outcome.Confined (cells : List Int) (start other : Tape) (outcome outcome' : Outcome ι ο η) :
    Prop :=
  ∃ after, outcome' = outcome.withTape after ∧
    Tape.Parallel cells start other outcome.tape after

/-! ## Actions -/

namespace Rig

variable {rig : Rig ι ο η} {cells : List Int} {other : Tape}

theorem confined_self (agree : Tape.AgreeOn cells rig.machine.tape other) :
    Outcome.Confined cells rig.machine.tape other (.went rig) (.went (rig.withTape other)) :=
  ⟨other, rfl, .refl agree⟩

/-- Addresses do not depend on what the cells hold. -/
theorem confined_access (agree : Tape.AgreeOn cells rig.machine.tape other) {offset : Int}
    {use use' : Nat → Outcome ι ο η}
    (confined : ∀ cell, rig.machine.address offset = .ok cell →
      Outcome.Confined cells rig.machine.tape other (use cell) (use' cell)) :
    Outcome.Confined cells rig.machine.tape other (rig.access offset use)
      ((rig.withTape other).access offset use') := by
  have same : (rig.withTape other).machine.address offset = rig.machine.address offset := rfl
  unfold access
  rw [same]
  cases found : rig.machine.address offset with
  | error cell => exact ⟨other, rfl, .refl agree⟩
  | ok cell => exact confined cell found

/-- Whether a byte can be stored does not depend on what the cells hold either. -/
theorem confined_store (agree : Tape.AgreeOn cells rig.machine.tape other) {cell : Nat}
    (among : (cell : Int) ∈ cells) (value : UInt8) :
    Outcome.Confined cells rig.machine.tape other (rig.store cell value)
      ((rig.withTape other).store cell value) := by
  rw [store_eq, store_eq]
  split
  · exact ⟨other.set cell value, rfl, .set agree among value⟩
  · exact ⟨other, rfl, .refl agree⟩

theorem confined_update {offset : Int}
    (agree : Tape.AgreeOn (rig.machine.cellAt offset) rig.machine.tape other)
    (change : UInt8 → UInt8) :
    Outcome.Confined (rig.machine.cellAt offset) rig.machine.tape other (rig.update offset change)
      ((rig.withTape other).update offset change) := by
  rw [update_eq, update_eq]
  refine confined_access agree ?_
  intro cell found
  have among := Machine.mem_cellAt found
  have same : (rig.withTape other).machine.tape.get cell = rig.machine.tape.get cell :=
    agree cell among
  rw [same]
  exact confined_store agree among _

theorem confined_multiply {offset into : Int} {factor : Int8}
    (agree : Tape.AgreeOn (rig.machine.touched (.mulAt offset into factor))
      rig.machine.tape other) :
    Outcome.Confined (rig.machine.touched (.mulAt offset into factor)) rig.machine.tape other
      (rig.multiply offset into factor.toUInt8)
      ((rig.withTape other).multiply offset into factor.toUInt8) := by
  rw [multiply_eq, multiply_eq]
  refine confined_access agree ?_
  intro source found
  rw [Machine.touched, found] at agree ⊢
  simp only at agree ⊢
  by_cases zero : rig.machine.tape.get source = 0
  · rw [if_pos zero] at agree ⊢
    have same : (rig.withTape other).machine.tape.get source = rig.machine.tape.get source :=
      agree source (List.mem_singleton.2 rfl)
    rw [same, if_pos zero, if_pos zero]
    exact confined_self agree
  · rw [if_neg zero] at agree ⊢
    have same : (rig.withTape other).machine.tape.get source = rig.machine.tape.get source :=
      agree source List.mem_cons_self
    rw [same, if_neg zero, if_neg zero]
    refine confined_access agree ?_
    intro target found
    have among := List.mem_cons_of_mem (source : Int) (Machine.mem_cellAt found)
    have same : (rig.withTape other).machine.tape.get target = rig.machine.tape.get target :=
      agree target among
    rw [same]
    exact confined_store agree among _

theorem confined_move (agree : Tape.AgreeOn cells rig.machine.tape other) (delta : Int) :
    Outcome.Confined cells rig.machine.tape other (rig.move delta)
      ((rig.withTape other).move delta) := by
  rw [move_eq, move_eq]
  refine confined_access agree ?_
  intro cell _
  exact ⟨other, rfl, .refl agree⟩

theorem confined_write [OutputSink ο] {offset : Int}
    (agree : Tape.AgreeOn (rig.machine.cellAt offset) rig.machine.tape other) :
    Outcome.Confined (rig.machine.cellAt offset) rig.machine.tape other (rig.write offset)
      ((rig.withTape other).write offset) := by
  rw [write_eq, write_eq]
  refine confined_access agree ?_
  intro cell found
  have same : (rig.withTape other).machine.tape.get cell = rig.machine.tape.get cell :=
    agree cell (Machine.mem_cellAt found)
  have sink : (rig.withTape other).output = rig.output := rfl
  rw [same, sink]
  split
  · exact ⟨other, rfl, .refl agree⟩
  · exact ⟨other, rfl, .refl agree⟩

theorem confined_receive [InputSource ι] {offset : Int}
    (agree : Tape.AgreeOn (rig.machine.cellAt offset) rig.machine.tape other) :
    Outcome.Confined (rig.machine.cellAt offset) rig.machine.tape other (rig.receive offset)
      ((rig.withTape other).receive offset) := by
  rw [receive_eq, receive_eq]
  refine confined_access agree ?_
  intro cell found
  have source : (rig.withTape other).input = rig.input := rfl
  rw [source]
  split
  · next value input _ =>
    let received : Rig ι ο η := { rig with input }
    have agree : Tape.AgreeOn (rig.machine.cellAt offset) received.machine.tape other := agree
    exact confined_store agree (Machine.mem_cellAt found) _
  · exact ⟨other, rfl, .refl agree⟩

/-- The hook does not look at the tape. -/
theorem poll_withTape [AbortHook η] (rig : Rig ι ο η) (tape : Tape) :
    (rig.withTape tape).poll = rig.poll.withTape tape := by
  obtain ⟨machine, input, output, hook⟩ := rig
  simp only [poll, withTape]
  obtain ⟨fired, next⟩ := AbortHook.poll hook
  cases fired <;> rfl

theorem confined_poll [AbortHook η]
    (agree : Tape.AgreeOn cells rig.machine.tape other) :
    Outcome.Confined cells rig.machine.tape other rig.poll (rig.withTape other).poll := by
  refine ⟨other, rig.poll_withTape other, ?_⟩
  have kept : rig.poll.tape = rig.machine.tape := by
    cases polled : rig.poll with
    | went next => rw [Outcome.tape, machine_of_poll polled]
    | ended ending after => rw [Outcome.tape, (poll_ended polled).2.1]
  rw [kept]
  exact .refl agree

/-- The cell under the pointer is the same if it is touched. -/
theorem current_withTape
    (agree : Tape.AgreeOn [rig.machine.pointer] rig.machine.tape other) :
    (rig.withTape other).machine.current = rig.machine.current := by
  obtain ⟨⟨tape, pointer, precision⟩, input, output, hook⟩ := rig
  cases pointer with
  | ofNat index => exact agree index (List.mem_singleton.2 rfl)
  | negSucc index => rfl

variable [InputSource ι] [OutputSink ο]

theorem confined_act {node : Node} (single : node.isSingle = true)
    (agree : Tape.AgreeOn (rig.machine.touched node) rig.machine.tape other) :
    Outcome.Confined (rig.machine.touched node) rig.machine.tape other (rig.act node)
      ((rig.withTape other).act node) := by
  cases node with
  | addAt offset delta =>
    rw [act, act]
    exact confined_update agree _
  | setAt offset value =>
    rw [act, act]
    exact confined_update agree _
  | mulAt offset into factor => exact confined_multiply agree
  | move delta => exact confined_move agree delta
  | outputAt offset => exact confined_write agree
  | inputAt offset => exact confined_receive agree
  | loop body => cases single
  | scanLoop step => cases single

end Rig

/-! ## Steps -/

namespace Outcome

variable {cells : List Int} {start other : Tape} {outcome outcome' : Outcome ι ο η}

/-- An action that does the same leads to the same code. -/
theorem Confined.andThen (confined : Confined cells start other outcome outcome') (rest : Block)
    (loops : List OpenLoop) :
    ∃ after, outcome'.andThen (⟨rest, loops, ·⟩) =
        (outcome.andThen (⟨rest, loops, ·⟩)).withTape after ∧
      Tape.Parallel cells start other (outcome.andThen (⟨rest, loops, ·⟩)).tape after := by
  obtain ⟨after, rfl, parallel⟩ := confined
  cases outcome with
  | went rig => exact ⟨after, rfl, parallel⟩
  | ended ending rig => exact ⟨after, rfl, parallel⟩

end Outcome

namespace Config

variable [InputSource ι] [OutputSink ο] [AbortHook η]

/-- The next step reads and stores no cells but these: on another tape that holds the same
in them it does the same, and no other cell changes. -/
def Confined (cells : List Int) (config : Config ι ο η) : Prop :=
  ∀ other, Tape.AgreeOn cells config.rig.machine.tape other →
    ∃ after, (config.withTape other).step = config.step.withTape after ∧
      Tape.Parallel cells config.rig.machine.tape other config.step.tape after

/-- The next step reads and stores touched cells only. -/
theorem confined (config : Config ι ο η) : config.Confined config.touched := by
  intro other agree
  obtain ⟨_ | ⟨node, rest⟩, loops, rig⟩ := config
  · obtain _ | ⟨loop, outer⟩ := loops
    · exact ⟨other, rfl, .refl agree⟩
    have same := Rig.current_withTape agree
    show ∃ after, step ⟨[], loop :: outer, rig.withTape other⟩ = _ ∧ _
    rw [step_nil, step_nil, same]
    split
    · exact ⟨other, rfl, .refl agree⟩
    · exact (Rig.confined_poll agree).andThen loop.body (loop :: outer)
  cases single : node.isSingle with
  | true =>
    show ∃ after, step ⟨node :: rest, loops, rig.withTape other⟩ = _ ∧ _
    rw [step_single single, step_single single]
    exact (Rig.confined_act single agree).andThen rest loops
  | false =>
    cases node with
    | loop body =>
      have same := Rig.current_withTape agree
      show ∃ after, step ⟨.loop body :: rest, loops, rig.withTape other⟩ = _ ∧ _
      rw [step_loop_eq, step_loop_eq, same]
      split
      · exact (Rig.confined_poll agree).andThen rest loops
      · exact (Rig.confined_poll agree).andThen body (⟨body, rest⟩ :: loops)
    | scanLoop distance =>
      have same := Rig.current_withTape agree
      show ∃ after, step ⟨.scanLoop distance :: rest, loops, rig.withTape other⟩ = _ ∧ _
      rw [step_scanLoop, step_scanLoop, same]
      split
      · exact ⟨other, rfl, .refl agree⟩
      -- The move starts where the poll has left the rig, on the same tape.
      rw [Rig.poll_withTape]
      cases polled : rig.poll with
      | ended ending after =>
        have kept : after.machine = rig.machine := (Rig.poll_ended polled).2.1
        refine ⟨other, rfl, ?_⟩
        show Tape.Parallel _ _ _ after.machine.tape other
        rw [kept]
        exact .refl agree
      | went next =>
        have kept : next.machine = rig.machine := Rig.machine_of_poll polled
        have agree' : Tape.AgreeOn [rig.machine.pointer] next.machine.tape other := by
          rw [kept]
          exact agree
        have moved := (Rig.confined_move agree' distance).andThen (.scanLoop distance :: rest) loops
        rw [kept] at moved
        exact moved
    | _ => cases single

end Config

end TapeMachine
