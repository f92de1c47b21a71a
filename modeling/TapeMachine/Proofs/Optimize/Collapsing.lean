import TapeMachine.Proofs.Execution.SameCells
import TapeMachine.Proofs.Optimize.Counting

/-!
# Assignments and scans in the place of loops

A loop that counts its cell to zero in odd steps ends from every value, whatever cell it is at,
and a scan makes the moves of the loop in whose place it stands one by one. So the passes that
put assignments and scans in the place of loops change nothing about a run, not even where it
runs off the tape, as long as the tape can have the cells that the program addresses
(`collapsing_keeps_runs`).
-/

namespace TapeMachine.Optimize

variable {ι ο : Type} [InputSource ι] [OutputSink ο]

theorem congruence_interchangeable : Congruence (Interchangeable ι ο) where
  refl := .refl
  trans := .trans
  append front back :=
    ⟨Matching.refines_append front.forth back.forth, Matching.refines_append front.back back.back⟩
  loop body := ⟨Matching.refines_loop body.forth, Matching.refines_loop body.back⟩

/-! ## Assignments -/

/-- An addition to a cell just assigned changes what is assigned. -/
theorem interchangeable_setAdd (offset : Int) (value : UInt8) (delta : Int8) :
    Interchangeable ι ο [.setAt offset value, .addAt offset delta]
      [.setAt offset (value + delta.toUInt8)] := by
  refine .of_fates ?_
  intro rig other near
  refine ⟨_, _, (Interpretation.runs_straight _ rfl rig _).2 rfl,
    (Interpretation.runs_straight _ rfl other _).2 rfl, ?_⟩
  -- All three actions have the same offset, so they lead to the same cell or all end the run.
  cases found : rig.seek offset with
  | error ending =>
    have refused : Rig.fenced.act (.setAt offset value) rig = .ended ending rig :=
      Rig.fenced_update_of_error found (fun _ => value) rfl rfl
    have refused' : Rig.fenced.act (.setAt offset (value + delta.toUInt8)) other =
        .ended ending other :=
      Rig.fenced_update_of_error ((near.1.seek offset).trans found) (fun _ => _) rfl rfl
    simp only [Interpretation.perform_cons, refused, refused', Fate.andThen_ended]
    exact ⟨other, rfl, near⟩
  | ok cell =>
    have assigned : Rig.fenced.act (.setAt offset value) rig = .went (rig.put cell value) :=
      Rig.fenced_update_of_ok near.2 found (fun _ => value) rfl rfl
    have added : Rig.fenced.act (.addAt offset delta) (rig.put cell value) =
        .went ((rig.put cell value).put cell (value + delta.toUInt8)) := by
      have stored : (rig.put cell value).machine.tape.get cell = value := by
        show (rig.machine.tape.set cell value).get cell = value
        rw [Tape.get_set, if_pos rfl]
      have placed : Placed (rig.put cell value) := near.2.of_eq rfl rfl
      have again : (rig.put cell value).seek offset = .ok cell := found
      exact (Rig.fenced_update_of_ok placed again (· + delta.toUInt8) rfl rfl).trans (by rw [stored])
    have assigned' : Rig.fenced.act (.setAt offset (value + delta.toUInt8)) other =
        .went (other.put cell (value + delta.toUInt8)) :=
      Rig.fenced_update_of_ok near.symm.2 ((near.1.seek offset).trans found) (fun _ => _) rfl rfl
    simp only [Interpretation.perform_cons, Interpretation.perform_nil, assigned, added, assigned',
      Fate.andThen_went]
    have stored := Rig.Near.put near cell (value + delta.toUInt8)
    have once : (rig.put cell (value + delta.toUInt8)).Near
        ((rig.put cell value).put cell (value + delta.toUInt8)) :=
      ⟨.put_put rig cell value _, stored.2⟩
    exact ⟨_, rfl, once.symm.trans stored⟩

/-! ## Clearing loops -/

omit [InputSource ι] [OutputSink ο] in
/-- A cell that is zero may be cleared. -/
theorem sameCells_put_zero {rig : Rig ι ο Unit} (placed : Placed rig)
    (zero : rig.machine.current = 0) : (rig.put rig.machine.pointer.toNat 0).SameCells rig := by
  refine ⟨?_, rfl, rfl, rfl, rfl⟩
  intro index
  show _ = (rig.machine.tape.set rig.machine.pointer.toNat 0).get index
  rw [Tape.get_set]
  split
  · next here => rw [here, ← placed.current_eq, zero]
  · rfl

/-- A loop that reaches zero in some number of rounds clears its cell. -/
theorem exists_repeats_clear {delta : Int8} (rounds : Nat) :
    ∀ {rig : Rig ι ο Unit}, Placed rig →
      rig.machine.current + UInt8.ofNat rounds * delta.toUInt8 = 0 →
      ∃ u, Rig.fenced.Repeats (Rig.fenced.runs [.addAt 0 delta]) rig (.went u) ∧
        (rig.put rig.machine.pointer.toNat 0).SameCells u := by
  induction rounds with
  | zero =>
    intro rig placed reaches
    have zero : rig.machine.current = 0 := by
      rw [← reaches]
      simp
    exact ⟨rig, .done zero, sameCells_put_zero placed zero⟩
  | succ rounds ih =>
    intro rig placed reaches
    by_cases zero : rig.machine.current = 0
    · exact ⟨rig, .done zero, sameCells_put_zero placed zero⟩
    -- A round goes on from the rig with the addition made once.
    have acted : Rig.fenced.act (.addAt 0 delta) rig =
        .went (rig.put rig.machine.pointer.toNat (rig.machine.current + delta.toUInt8)) := by
      rw [placed.current_eq]
      exact Rig.fenced_update_of_ok placed placed.seek_zero (· + delta.toUInt8) rfl rfl
    have placed' : Placed (rig.put rig.machine.pointer.toNat
        (rig.machine.current + delta.toUInt8)) := placed.of_eq rfl rfl
    have nearer : (rig.put rig.machine.pointer.toNat
        (rig.machine.current + delta.toUInt8)).machine.current +
          UInt8.ofNat rounds * delta.toUInt8 = 0 := by
      rw [placed'.current_eq]
      show (rig.machine.tape.set rig.machine.pointer.toNat _).get rig.machine.pointer.toNat + _ = 0
      rw [Tape.get_set, if_pos rfl, ← reaches, UInt8.ofNat_add]
      grind
    obtain ⟨u, repeated, same⟩ := ih placed' nearer
    refine ⟨u, .again zero rfl ?_ repeated, (Rig.SameCells.put_put rig _ _ 0).trans same⟩
    rw [Interpretation.runs_straight _ rfl, Interpretation.perform_cons, acted]
    rfl

/-- A loop that counts its cell to zero in odd steps assigns zero. -/
theorem interchangeable_clear {delta : Int8} (odd : delta.toInt % 2 ≠ 0) :
    Interchangeable ι ο [.loop [.addAt 0 delta]] [.setAt 0 0] := by
  refine .of_fates ?_
  intro rig other near
  -- The number of rounds depends on the cell; a loop that is not entered makes none.
  have cleared : ∃ u, Rig.fenced.runs [.loop [.addAt 0 delta]] rig (.went u) ∧
      (rig.put rig.machine.pointer.toNat 0).SameCells u := by
    by_cases zero : rig.machine.current = 0
    · exact ⟨rig, (Interpretation.runs_loop ..).2 (.inl ⟨zero, rfl⟩),
        sameCells_put_zero near.2 zero⟩
    · obtain ⟨rounds, reaches⟩ := exists_rounds (toNat_odd odd) rig.machine.current
      obtain ⟨u, repeated, same⟩ := exists_repeats_clear rounds near.2 reaches
      exact ⟨u, (Interpretation.runs_loop ..).2 (.inr ⟨zero, repeated⟩), same⟩
  obtain ⟨u, ran, same⟩ := cleared
  refine ⟨_, _, ran, (Interpretation.runs_straight _ rfl other _).2 rfl, ?_⟩
  have assigned : Rig.fenced.act (.setAt 0 0) other =
      .went (other.put rig.machine.pointer.toNat 0) :=
    Rig.fenced_update_of_ok near.symm.2 ((near.1.seek 0).trans near.2.seek_zero) (fun _ => 0) rfl rfl
  rw [Interpretation.perform_cons, assigned]
  have stored := Rig.Near.put near rig.machine.pointer.toNat 0
  have reached : (rig.put rig.machine.pointer.toNat 0).Near u := ⟨same, stored.2⟩
  exact ⟨_, rfl, reached.symm.trans stored⟩

/-! ## Scans -/

/-- Without a hook a loop that only moves does what a scan does, move by move. -/
theorem runs_scan_iff (delta : Int) (rig : Rig ι ο Unit) (fate : Fate (Rig ι ο Unit)) :
    Rig.fenced.runs [.loop [.move delta]] rig fate ↔
      Rig.fenced.runs [.scanLoop delta] rig fate := by
  have body : Rig.fenced.runs [.move delta] = fun (s : Rig ι ο Unit) last =>
      last = Rig.fenced.act (.move delta) s := by
    funext s last
    rw [Interpretation.runs_singleton, Interpretation.runsNode_single _ rfl]
  rw [Interpretation.runs_loop, Interpretation.runs_singleton, Interpretation.runsNode_scanLoop,
    body]
  constructor
  · rintro (⟨zero, rfl⟩ | ⟨_, repeated⟩)
    · exact .done zero
    · exact repeated
  · intro repeated
    by_cases zero : Rig.fenced.zero rig
    · cases repeated with
      | done => exact .inl ⟨zero, rfl⟩
      | cut nonzero | failed nonzero | again nonzero => exact absurd zero nonzero
    · exact .inr ⟨zero, repeated⟩

theorem interchangeable_scan (delta : Int) :
    Interchangeable ι ο [.loop [.move delta]] [.scanLoop delta] :=
  .of_runs_iff (runs_scan_iff delta)

/-! ## Passes -/

/-- Assignments and scans may take the place of the loops of any program that forms no address
beyond the last cell of a tape: the run ends as before, at the same cell if it runs off the tape,
with the same cells, pointer, output and unread input, or it runs forever as before. -/
theorem collapsing_keeps_runs {rig : Rig ι ο Unit} {program : Block} (ready : Ready rig)
    (unrounded : Unrounded program rig) :
    (∀ oddDeltas precision,
      SameRuns program ((Pass.collapseAssignments oddDeltas).apply precision program) rig) ∧
    ∀ precision, SameRuns program (Pass.collapseScanLoops.apply precision program) rig := by
  have congruence := congruence_interchangeable (ι := ι) (ο := ο)
  refine ⟨?_, ?_⟩
  · intro oddDeltas precision
    refine (congruence.apply ?_ program).sameRuns ready unrounded
    exact congruence.assign interchangeable_clear interchangeable_setAdd oddDeltas
  · intro precision
    refine (congruence.apply ?_ program).sameRuns ready unrounded
    exact congruence.scan interchangeable_scan

/-- A program that counts its cell to zero and then runs off the tape. -/
theorem collapsing_keeps_underflow :
    let program : Block :=
      [.addAt 0 5, .loop [.addAt 0 (-1)], .addAt 0 3, .loop [.move (-1)], .outputAt 0]
    let rig : Rig ByteQueue Collected Unit := ⟨{ tape := .ofSize 1 }, .ofBytes [], {}, ()⟩
    (execute 40 program rig).map Prod.fst = some (.underflow (-1)) ∧
      SameRuns program ((Pass.collapseAssignments false).apply .double program) rig ∧
      SameRuns program (Pass.collapseScanLoops.apply .double program) rig := by
  intro program rig
  have kept := collapsing_keeps_runs ⟨rfl, Int.le_refl 0⟩
    (unrounded_of_check 40 (by decide +kernel) : Unrounded program rig)
  exact ⟨by decide +kernel, kept.1 false .double, kept.2 .double⟩

/-- Where the tape cannot grow to the pointer's cell, a loop that is not entered does nothing,
and the assignment in its place fails. -/
theorem not_collapsing_keeps_runs_beyondTape :
    let program : Block := [.loop [.addAt 0 (-1)]]
    let rig : Rig ByteQueue Collected Unit :=
      ⟨{ tape := .ofSize 1024, pointer := Tape.limit }, .ofBytes [], {}, ()⟩
    Ready rig ∧ (execute 2 program rig).map Prod.fst = some .finished ∧
      ¬ SameRuns program ((Pass.collapseAssignments false).apply .double program) rig := by
  intro program rig
  have finishes : (execute 2 program rig).map Prod.fst = some .finished := by decide +kernel
  refine ⟨⟨rfl, by decide⟩, finishes, fun same => ?_⟩
  have assigned : (Pass.collapseAssignments false).apply .double program = [.setAt 0 0] := by
    simp only [Pass.apply, Program.mapBlocks_eq_replaceNested]
    decide +kernel
  have fails : (execute 2 [.setAt 0 0] rig).map Prod.fst = some (.overgrown Tape.limit) := by
    decide +kernel
  obtain ⟨⟨_, after⟩, executed, rfl⟩ := Option.map_eq_some_iff.1 finishes
  obtain ⟨⟨_, failed⟩, executed', rfl⟩ := Option.map_eq_some_iff.1 fails
  rw [assigned] at same
  obtain ⟨more, other, finished, _⟩ := same.forth 2 _ _ executed
  cases execute_functional finished executed'

end TapeMachine.Optimize
