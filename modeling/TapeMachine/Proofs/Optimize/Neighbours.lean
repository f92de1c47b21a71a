import TapeMachine.Proofs.Machine.Addressing
import TapeMachine.Proofs.Optimize.Rewriting
import TapeMachine.Proofs.Strip.Improvement

/-!
# Rewriting neighbours

The rewrites that join, drop or exchange neighbouring nodes improve a program: what
they leave out is an address that would have been formed on the way. So does the
rewrite of a loop that only moves, which leaves out a poll.
-/

namespace TapeMachine.Optimize

open Strip

variable {last : Nat} {allowed : Option Nat}

/-! ## Code that writes nothing before it ends -/

/-- The node writes to the output. -/
def writes : Node → Bool
  | .outputAt _ => true
  | _ => false

/-- A node that does not write leaves the output alone. -/
theorem written_of_silent {node : Node} (silent : writes node = false) (s : Strip last) :
    (act node s).state.written = s.written := by
  rcases act_went_or_underflow node s with ⟨t, acted⟩ | ⟨offset, _, acted⟩
  · rw [acted]
    cases node with
    | outputAt offset => cases silent
    | _ =>
      simp only [act, access] at acted
      (repeat' split at acted) <;> first | (cases acted; rfl) | cases acted
  · rw [acted]
    rfl

/-- An action that ends the run changes nothing. -/
theorem eq_of_act_ended {node : Node} {s u : Strip last} {ending : Ending}
    (ended : act node s = .ended ending u) : u = s := by
  rcases act_went_or_underflow node s with ⟨t, acted⟩ | ⟨offset, _, acted⟩
  · rw [acted] at ended
    cases ended
  · rw [acted] at ended
    cases ended
    rfl

/-- Two nodes of which the first does not write have written nothing when they
end the run. -/
theorem written_of_pair_ended {a b : Node} (silent : writes a = false) (s u : Strip last)
    (ending : Ending)
    (ended : (interpretation last allowed).perform [a, b] s = .ended ending u) :
    u.written = s.written := by
  have first := written_of_silent silent s
  rw [Interpretation.perform_cons, interpretation_act] at ended
  cases acted : act a s with
  | ended e t =>
    rw [acted] at ended
    cases ended
    rw [eq_of_act_ended acted]
  | went t =>
    rw [acted] at ended first
    rw [Fate.andThen_went, Interpretation.perform_cons, interpretation_act] at ended
    cases acted' : act b t with
    | ended e v =>
      rw [acted'] at ended
      cases ended
      rw [eq_of_act_ended acted']
      exact first
    | went v =>
      rw [acted'] at ended
      cases ended

/-- A single node has written nothing when it ends the run. -/
theorem written_of_single_ended {a : Node} (s u : Strip last) (ending : Ending)
    (ended : (interpretation last allowed).perform [a] s = .ended ending u) :
    u.written = s.written := by
  rw [Interpretation.perform_cons, interpretation_act] at ended
  cases acted : act a s with
  | ended e t =>
    rw [acted] at ended
    cases ended
    rw [eq_of_act_ended acted]
  | went t =>
    rw [acted] at ended
    cases ended

/-! ## Additions and assignments -/

/-- Two changes of one cell are one change. -/
theorem put_put (s : Strip last) (cell : Nat) (value value' : UInt8) :
    (s.put cell value).put cell value' = s.put cell value' := by
  simp [put]

theorem put_self (s : Strip last) (cell : Nat) : s.put cell (s.cells cell) = s := by
  simp [put]

@[simp] theorem cells_put_self (s : Strip last) (cell : Nat) (value : UInt8) :
    (s.put cell value).cells cell = value := by
  simp [put]

/-- Where an offset leads depends on the pointer alone. -/
@[simp] theorem holds_put (s : Strip last) (cell : Nat) (value : UInt8) (offset : Int) :
    (s.put cell value).Holds offset ↔ s.Holds offset := Iff.rfl

@[simp] theorem cell_put (s : Strip last) (cell : Nat) (value : UInt8) (offset : Int) :
    (s.put cell value).cell offset = s.cell offset := rfl

theorem improves_addAdd (offset : Int) (a b : Int8) :
    Improves last allowed [.addAt offset a, .addAt offset b] [.addAt offset (a + b)] := by
  refine improves_straight rfl rfl (fun s u performed => ?_) (written_of_pair_ended rfl)
  by_cases holds : s.Holds offset
  · simpa [act, access, holds, put_put, UInt8.add_assoc] using performed
  · simp [act, access, holds] at performed

theorem improves_addZero (offset : Int) : Improves last allowed [.addAt offset 0] [] := by
  refine improves_straight rfl rfl (fun s u performed => ?_) written_of_single_ended
  have nothing : (0 : Int8).toUInt8 = 0 := rfl
  by_cases holds : s.Holds offset
  · simpa [act, access, holds, nothing, put_self] using performed
  · simp [act, access, holds] at performed

theorem improves_setAdd (offset : Int) (value : UInt8) (delta : Int8) :
    Improves last allowed [.setAt offset value, .addAt offset delta]
      [.setAt offset (value + delta.toUInt8)] := by
  refine improves_straight rfl rfl (fun s u performed => ?_) (written_of_pair_ended rfl)
  by_cases holds : s.Holds offset
  · simpa [act, access, holds, put_put] using performed
  · simp [act, access, holds] at performed

/-! ## Moves -/

/-- Sums that stay within the size of the strip are exact at this precision. -/
def Precise (precision : Precision) (last : Nat) : Prop :=
  ∀ n : Int, n.natAbs ≤ last → precision.round n = n

theorem precise_digits {count : Nat} (fits : last < 2 ^ count) : Precise (.digits count) last :=
  fun _ small => Precision.round_of_lt (Nat.lt_of_le_of_lt small fits)

/-- A sum that leads to a cell of the strip is exact. -/
theorem Precise.add_eq {precision : Precision} (precise : Precise precision last)
    {s : Strip last} {a b : Int} (holds : s.Holds (a + b)) : precision.add a b = a + b := by
  have within := s.within
  obtain ⟨low, high⟩ := holds
  exact precise (a + b) (by omega)

/-- Offsets after a move. -/
theorem holds_moved {s : Strip last} {delta : Int} (holds : s.Holds delta) (offset : Int) :
    (s.moved delta holds).Holds offset ↔ s.Holds (offset + delta) := by
  have pointer : ((s.moved delta holds).pointer : Int) = s.pointer + delta := coe_cell holds
  simp only [Holds, pointer]
  omega

theorem cell_moved {s : Strip last} {delta : Int} (holds : s.Holds delta) (offset : Int) :
    (s.moved delta holds).cell offset = s.cell (offset + delta) := by
  have pointer : ((s.moved delta holds).pointer : Int) = s.pointer + delta := coe_cell holds
  simp only [cell, pointer]
  omega

/-- An offset used after a move leads to a cell before it as well. -/
theorem access_of_moved {s u : Strip last} {delta offset : Int} (holds : s.Holds delta)
    {use : (s.moved delta holds).Holds offset → Fate (Strip last)}
    (accessed : (s.moved delta holds).access offset use = .went u) :
    ∃ on : s.Holds (offset + delta), use ((holds_moved holds offset).2 on) = .went u := by
  by_cases on : s.Holds (offset + delta)
  · rw [access_of_holds ((holds_moved holds offset).2 on)] at accessed
    exact ⟨on, accessed⟩
  · rw [access_of_not_holds (mt (holds_moved holds offset).1 on)] at accessed
    cases accessed

/-- A move that goes through, and what follows it. -/
theorem holds_of_perform_move {delta : Int} {rest : Block} {s u : Strip last}
    (performed : (interpretation last allowed).perform (.move delta :: rest) s = .went u) :
    ∃ holds : s.Holds delta,
      (interpretation last allowed).perform rest (s.moved delta holds) = .went u := by
  rw [Interpretation.perform_cons, interpretation_act, act] at performed
  by_cases holds : s.Holds delta
  · rw [access_of_holds holds] at performed
    exact ⟨holds, performed⟩
  · rw [access_of_not_holds holds] at performed
    cases performed

theorem perform_move {delta : Int} {s : Strip last} (holds : s.Holds delta) :
    (interpretation last allowed).perform [.move delta] s = .went (s.moved delta holds) := by
  rw [Interpretation.perform_cons, interpretation_act, act, access_of_holds holds]
  rfl

theorem moved_zero {s : Strip last} (holds : s.Holds 0) : s.moved 0 holds = s := by
  simp [moved]

theorem improves_moveZero : Improves last allowed [.move 0] [] := by
  refine improves_straight rfl rfl (fun s u performed => ?_) written_of_single_ended
  rwa [perform_move (holds_zero s), moved_zero] at performed

section Rounded

variable {precision : Precision} (precise : Precise precision last)

include precise

theorem improves_moveMove (a b : Int) :
    Improves last allowed [.move a, .move b] [.move (precision.add a b)] := by
  refine improves_straight rfl rfl (fun s u performed => ?_) (written_of_pair_ended rfl)
  obtain ⟨holds, performed⟩ := holds_of_perform_move performed
  obtain ⟨holds', performed⟩ := holds_of_perform_move performed
  have both : s.Holds (a + b) := Int.add_comm b a ▸ (holds_moved holds b).1 holds'
  cases performed
  rw [precise.add_eq both, perform_move both]
  refine congrArg Fate.went ?_
  ext1
  case pointer => exact (Int.add_comm b a ▸ cell_moved holds b).symm
  all_goals rfl

theorem improves_roundMove (delta : Int) :
    Improves last allowed [.move delta] [.move (precision.add 0 delta)] := by
  refine improves_straight rfl rfl (fun s u performed => ?_) written_of_single_ended
  obtain ⟨holds, _⟩ := holds_of_perform_move performed
  have exactly : precision.add 0 delta = delta := by
    rw [precise.add_eq ((Int.zero_add delta).symm ▸ holds), Int.zero_add]
  rw [exactly]
  exact performed

/-- A node that addresses a cell does the same before a move, with its offset
shifted. -/
theorem act_of_moved {distance : Int} {node shifted : Node}
    (steps : node.shift? precision distance = some shifted) {s u : Strip last}
    (holds : s.Holds distance) (acted : act node (s.moved distance holds) = .went u) :
    ∃ (v : Strip last) (still : v.Holds distance), act shifted s = .went v ∧
      v.moved distance still = u := by
  cases node with
  | addAt offset | setAt offset | outputAt offset | inputAt offset =>
    cases steps
    obtain ⟨on, used⟩ := access_of_moved holds acted
    rw [cell_moved] at used
    cases used
    rw [precise.add_eq on]
    refine ⟨_, ?_, access_of_holds on, ?_⟩
    · exact holds
    · rfl
  | mulAt offset into factor =>
    cases steps
    obtain ⟨on, used⟩ := access_of_moved holds acted
    rw [precise.add_eq on]
    simp only [act, access_of_holds on]
    rw [cell_moved] at used
    change (if s.cells (s.cell (offset + distance)) = 0 then _ else _) = _ at used
    split at used
    · rename_i zero
      cases used
      exact ⟨s, holds, if_pos zero, rfl⟩
    · rename_i nonzero
      obtain ⟨on', used⟩ := access_of_moved holds used
      rw [cell_moved] at used
      cases used
      rw [Int.add_right_comm offset distance into]
      refine ⟨_, ?_, (if_neg nonzero).trans (access_of_holds on'), ?_⟩
      · exact holds
      · rfl
  | move | loop | scanLoop => cases steps

omit precise in
/-- Only nodes that are neither loops nor scans are shifted, and into such. -/
theorem isSingle_of_shift? {distance : Int} {node shifted : Node}
    (steps : node.shift? precision distance = some shifted) :
    node.isSingle = true ∧ shifted.isSingle = true := by
  cases node <;> cases steps <;> exact ⟨rfl, rfl⟩

theorem improves_absorb {distance : Int} {node shifted : Node}
    (steps : node.shift? precision distance = some shifted) :
    Improves last allowed [.move distance, node] [shifted, .move distance] := by
  obtain ⟨single, single'⟩ := isSingle_of_shift? steps
  have straight : [Node.move distance, node].all Node.isSingle = true := by
    rw [List.all_cons, List.all_cons, single]
    rfl
  have straight' : [shifted, .move distance].all Node.isSingle = true := by
    rw [List.all_cons, single']
    rfl
  refine improves_straight straight straight' (fun s u performed => ?_) (written_of_pair_ended rfl)
  obtain ⟨holds, performed⟩ := holds_of_perform_move performed
  rw [Interpretation.perform_cons, interpretation_act] at performed
  cases acted : act node (s.moved distance holds) with
  | ended ending t =>
    rw [acted] at performed
    cases performed
  | went t =>
    rw [acted] at performed
    cases performed
    obtain ⟨v, still, acted', rfl⟩ := act_of_moved precise steps holds acted
    rw [Interpretation.perform_cons, interpretation_act, acted', Fate.andThen_went,
      perform_move still]

theorem improves_roundOffset {node shifted : Node}
    (steps : node.shift? precision 0 = some shifted) :
    Improves last allowed [node] [shifted] := by
  obtain ⟨single, single'⟩ := isSingle_of_shift? steps
  have straight : [node].all Node.isSingle = true := by
    rw [List.all_cons, single]
    rfl
  have straight' : [shifted].all Node.isSingle = true := by
    rw [List.all_cons, single']
    rfl
  refine improves_straight straight straight' (fun s u performed => ?_) written_of_single_ended
  rw [Interpretation.perform_cons, interpretation_act] at performed
  cases acted : act node s with
  | ended ending t =>
    rw [acted] at performed
    cases performed
  | went t =>
    rw [acted] at performed
    cases performed
    -- The shift is the one past a move by nothing.
    rw [← moved_zero (holds_zero s)] at acted
    obtain ⟨v, still, acted', rfl⟩ := act_of_moved precise steps (holds_zero s) acted
    rw [Interpretation.perform_cons, interpretation_act, acted', moved_zero]
    rfl

end Rounded

/-! ## Scans -/

/-- A poll of the first strip alone only adds to its polls. -/
theorem near_of_poll {s t u : Strip last} (near : (improvement last allowed).near s t)
    (went : poll allowed s = .went u) : (improvement last allowed).near u t := by
  obtain ⟨polls, le, rfl⟩ := near
  have state : (poll allowed s).state = _ := state_of_poll s
  rw [went] at state
  cases state
  exact ⟨polls, Nat.le_succ_of_le le, rfl⟩

/-- A scan does not poll where it finds a zero, and is otherwise the loop. -/
theorem improves_scan (delta : Int) :
    Improves last allowed [.loop [.move delta]] [.scanLoop delta] := by
  have rounds := (@improves_refl last allowed [.move delta]).repeats
  have move : (interpretation last allowed).runs [.move delta] =
      fun s fate => fate = (interpretation last allowed).act (.move delta) s := by
    funext s fate
    rw [Interpretation.runs_singleton, Interpretation.runsNode_single _ rfl]
  have scans : (interpretation last allowed).runs [.scanLoop delta] =
      (interpretation last allowed).Repeats ((interpretation last allowed).runs [.move delta]) := by
    funext s fate
    rw [Interpretation.runs_singleton, Interpretation.runsNode_scanLoop, move]
  rw [Improves, Matching.Refines, scans]
  constructor
  · exact rounds.functional
  · exact rounds.stable
  · intro s t u near ran
    rcases (Interpretation.runs_loop ..).1 ran with ⟨zero, polled⟩ | ⟨_, repeated⟩
    · -- The loop polls before it finds the zero, the scan does not.
      exact ⟨t, .done (((improvement last allowed).zero_iff near).1 zero),
        near_of_poll near polled.symm⟩
    · exact rounds.went near repeated
  · intro s t u ending b near ran ran'
    rcases (Interpretation.runs_loop ..).1 ran with ⟨zero, polled⟩ | ⟨_, repeated⟩
    · rw [interpretation_poll] at polled
      have same : u.written = t.written := by
        obtain ⟨polls, _, rfl⟩ := near
        have kept : (poll allowed s).state.written = s.written := written_of_poll s
        rw [← polled] at kept
        exact kept
      have covered : (improvement last allowed).covers ending u (.went t) := by
        show u.written <+: t.written
        exact ⟨[], by rw [List.append_nil, same]⟩
      exact rounds.stable covered ran'
    · exact rounds.ended near repeated ran'
  · intro s t b near ran'
    by_cases zero : (interpretation last allowed).zero s
    · exact ⟨_, (Interpretation.runs_loop ..).2 (.inl ⟨zero, rfl⟩)⟩
    · obtain ⟨a, repeated⟩ := rounds.back near ran'
      exact ⟨a, (Interpretation.runs_loop ..).2 (.inr ⟨zero, repeated⟩)⟩

end TapeMachine.Optimize
