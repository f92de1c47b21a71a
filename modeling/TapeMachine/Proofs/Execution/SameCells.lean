import TapeMachine.Proofs.Execution.Fenced

/-!
# Rigs with the same cells

A tape may have grown further than another and still hold the same. Behind the fence, rigs that
have the same cells, the same pointer and the same devices, and no hook that could stop a run,
are taken for the same by every program (`Interchangeable.refl`). Of two programs that may take
each other's place on such rigs, one may form no address beyond the last cell; then both end in
the same way, an error included, or both run forever (`Interchangeable.sameRuns`).
-/

namespace TapeMachine

variable {ι ο η : Type}

/-! ## The same cells -/

namespace Rig

/-- The rigs have the same cells, the same pointer and the same devices. -/
structure SameCells (rig other : Rig ι ο η) : Prop where
  cells : ∀ index, other.machine.tape.get index = rig.machine.tape.get index
  pointer : other.machine.pointer = rig.machine.pointer
  precision : other.machine.precision = rig.machine.precision
  input : other.input = rig.input
  output : other.output = rig.output

namespace SameCells

variable {rig other third : Rig ι ο η}

theorem refl (rig : Rig ι ο η) : rig.SameCells rig :=
  ⟨fun _ => rfl, rfl, rfl, rfl, rfl⟩

theorem symm (same : rig.SameCells other) : other.SameCells rig where
  cells index := (same.cells index).symm
  pointer := same.pointer.symm
  precision := same.precision.symm
  input := same.input.symm
  output := same.output.symm

theorem trans (same : rig.SameCells other) (more : other.SameCells third) :
    rig.SameCells third where
  cells index := (more.cells index).trans (same.cells index)
  pointer := more.pointer.trans same.pointer
  precision := more.precision.trans same.precision
  input := more.input.trans same.input
  output := more.output.trans same.output

theorem put (same : rig.SameCells other) (cell : Nat) (value : UInt8) :
    (rig.put cell value).SameCells (other.put cell value) := by
  refine { same with cells := ?_ }
  intro index
  show (other.machine.tape.set cell value).get index = (rig.machine.tape.set cell value).get index
  rw [Tape.get_set, Tape.get_set, same.cells]

/-- A byte that is stored in a cell twice is stored once. -/
theorem put_put (rig : Rig ι ο η) (cell : Nat) (first second : UInt8) :
    (rig.put cell second).SameCells ((rig.put cell first).put cell second) := by
  refine ⟨?_, rfl, rfl, rfl, rfl⟩
  intro index
  show ((rig.machine.tape.set cell first).set cell second).get index =
    (rig.machine.tape.set cell second).get index
  simp only [Tape.get_set]
  split <;> rfl

theorem address (same : rig.SameCells other) (offset : Int) :
    other.machine.address offset = rig.machine.address offset := by
  rw [Machine.address, Machine.address, same.precision, same.pointer]

theorem read (same : rig.SameCells other) (address : Int) :
    other.machine.read address = rig.machine.read address := by
  cases address with
  | ofNat index => exact same.cells index
  | negSucc => rfl

theorem seek (same : rig.SameCells other) (offset : Int) : other.seek offset = rig.seek offset := by
  rw [Rig.seek, Rig.seek, same.pointer, same.address]

theorem current (same : rig.SameCells other) :
    other.machine.current = rig.machine.current := by
  rw [Machine.current, Machine.current, same.pointer, same.read]

/-- The same nodes form an address beyond the last cell. -/
theorem leaves_iff (same : rig.SameCells other) (node : Node) :
    other.Leaves node ↔ rig.Leaves node := by
  have bytes : other.machine.byte = rig.machine.byte := by
    funext offset
    rw [Machine.byte, Machine.byte, same.pointer, same.read]
  rw [Leaves, Leaves, bytes, same.pointer]

/-- The flush at the end is the same as well. -/
theorem settle [OutputSink ο] (same : rig.SameCells other) (ending : Ending) :
    (other.settle ending).1 = (rig.settle ending).1 ∧
      (rig.settle ending).2.SameCells (other.settle ending).2 := by
  rw [Rig.settle, Rig.settle, same.output]
  cases OutputSink.flush rig.output with
  | mk fault output =>
    cases fault with
    | none => exact ⟨rfl, { same with output := rfl }⟩
    | some fault => exact ⟨rfl, { same with output := rfl }⟩

end SameCells

/-- Without a hook a poll does nothing. -/
theorem poll_unit (rig : Rig ι ο Unit) : rig.poll = .went rig := rfl

variable [InputSource ι] [OutputSink ο]

/-! ## Programs on such rigs -/

variable (ι ο) in
/-- Rigs behind the fence, without a hook, that have the same cells. A run that has ended is
answered by one that has ended in the same way. -/
def sameCells : Matching (fenced : Interpretation (Rig ι ο Unit))
    (fenced : Interpretation (Rig ι ο Unit)) where
  near s t := s.SameCells t ∧ Placed s
  covers ending u fate := ∃ v, fate = .ended ending v ∧ u.SameCells v ∧ Placed u
  zero_iff := by
    rintro s t ⟨same, _⟩
    rw [fenced_zero, fenced_zero, same.current]
  poll_went := by
    rintro s t u near polled
    rw [fenced_poll, poll_unit] at polled
    cases polled
    exact ⟨t, rfl, near⟩
  poll_ended := by
    intro s t u ending near polled
    cases polled
  poll_stable := nofun
  act_stable := nofun

/-- The rigs correspond. -/
abbrev Near (rig other : Rig ι ο Unit) : Prop :=
  (sameCells ι ο).near rig other

/-- What becomes of rigs that correspond does so too. -/
abbrev Agree (outcome other : Outcome ι ο Unit) : Prop :=
  (sameCells ι ο).Matched outcome.fate other.fate

namespace Near

variable {rig other third : Rig ι ο Unit}

theorem symm (near : rig.Near other) : other.Near rig := by
  obtain ⟨same, placed⟩ := near
  exact ⟨same.symm, placed.of_eq same.pointer same.precision⟩

theorem trans (near : rig.Near other) (more : other.Near third) : rig.Near third :=
  ⟨near.1.trans more.1, near.2⟩

theorem left (near : rig.Near other) : rig.Near rig :=
  near.trans near.symm

theorem put (near : rig.Near other) (cell : Nat) (value : UInt8) :
    (rig.put cell value).Near (other.put cell value) :=
  ⟨near.1.put cell value, near.2.of_eq rfl rfl⟩

theorem store (near : rig.Near other) (cell : Nat) (value : UInt8) :
    Agree (rig.store cell value) (other.store cell value) := by
  rw [store_eq, store_eq]
  split
  · exact ⟨_, rfl, near.put cell value⟩
  · exact ⟨other, rfl, near⟩

/-- Actions go alike if they do at the cell that they lead to. -/
theorem access (near : rig.Near other) {offset : Int} {use use' : Nat → Outcome ι ο Unit}
    (next : ∀ cell, rig.machine.address offset = .ok cell → Agree (use cell) (use' cell)) :
    Agree (rig.access offset use) (other.access offset use') := by
  unfold Rig.access
  rw [near.1.address]
  cases found : rig.machine.address offset with
  | error cell => exact ⟨other, rfl, near⟩
  | ok cell => exact next cell found

theorem update (near : rig.Near other) (offset : Int) (change : UInt8 → UInt8) :
    Agree (rig.update offset change) (other.update offset change) := by
  rw [update_eq, update_eq]
  refine near.access ?_
  intro cell _
  rw [near.1.cells]
  exact near.store cell _

theorem multiply (near : rig.Near other) (offset into : Int) (factor : UInt8) :
    Agree (rig.multiply offset into factor) (other.multiply offset into factor) := by
  rw [multiply_eq, multiply_eq]
  refine near.access ?_
  intro source _
  rw [near.1.cells, near.1.precision]
  split
  · exact ⟨other, rfl, near⟩
  · refine near.access ?_
    intro cell _
    rw [near.1.cells]
    exact near.store cell _

theorem move (near : rig.Near other) {delta : Int} (stays : ¬ rig.Leaves (.move delta)) :
    Agree (rig.move delta) (other.move delta) := by
  rw [move_eq, move_eq]
  refine near.access ?_
  intro cell found
  refine ⟨_, rfl, { near.1 with pointer := rfl }, near.2.act stays ?_⟩
  rw [Rig.act, move_eq, access_of_ok found]

theorem write (near : rig.Near other) (offset : Int) :
    Agree (rig.write offset) (other.write offset) := by
  rw [write_eq, write_eq]
  refine near.access ?_
  intro cell _
  rw [near.1.cells, near.1.output]
  cases OutputSink.write rig.output (rig.machine.tape.get cell) with
  | mk fault output =>
    cases fault with
    | none => exact ⟨_, rfl, { near.1 with output := rfl }, near.2.of_eq rfl rfl⟩
    | some fault => exact ⟨_, rfl, { near.1 with output := rfl }, near.2.of_eq rfl rfl⟩

theorem receive (near : rig.Near other) (offset : Int) :
    Agree (rig.receive offset) (other.receive offset) := by
  rw [receive_eq, receive_eq]
  refine near.access ?_
  intro cell _
  rw [near.1.input]
  cases InputSource.read rig.input with
  | mk result input =>
    cases result with
    | ok value =>
      have read : Near { rig with input } { other with input } :=
        ⟨{ near.1 with input := rfl }, near.2.of_eq rfl rfl⟩
      exact read.store cell (UInt8.ofInt (value.getD 0))
    | error fault => exact ⟨_, rfl, { near.1 with input := rfl }, near.2.of_eq rfl rfl⟩

/-- Every node acts alike on rigs that correspond, or leaves the cells behind the fence on both. -/
theorem act (near : rig.Near other) (node : Node) :
    (sameCells ι ο).Matched (fenced.act node rig) (fenced.act node other) := by
  by_cases leaves : rig.Leaves node
  · rw [fenced_act_of_leaves leaves, fenced_act_of_leaves ((near.1.leaves_iff node).2 leaves)]
    exact ⟨other, rfl, near⟩
  rw [fenced_act_of_stays leaves, fenced_act_of_stays (mt (near.1.leaves_iff node).1 leaves)]
  cases node with
  | addAt offset delta => exact near.update offset (· + delta.toUInt8)
  | setAt offset value => exact near.update offset fun _ => value
  | mulAt offset into factor => exact near.multiply offset into factor.toUInt8
  | move delta => exact near.move leaves
  | outputAt offset => exact near.write offset
  | inputAt offset => exact near.receive offset
  | loop | scanLoop => exact ⟨other, rfl, near⟩

end Near

theorem matched_symm {a b : Fate (Rig ι ο Unit)} (matched : (sameCells ι ο).Matched a b) :
    (sameCells ι ο).Matched b a := by
  cases a with
  | went u =>
    obtain ⟨v, rfl, near⟩ := matched
    exact ⟨u, rfl, Near.symm near⟩
  | ended ending u =>
    obtain ⟨v, rfl, near⟩ := matched
    exact ⟨u, rfl, Near.symm near⟩

/-- Fates that match are settled alike. -/
theorem settle_of_matched {a b : Fate (Rig ι ο Unit)} (matched : (sameCells ι ο).Matched a b) :
    b.settle.1 = a.settle.1 ∧ a.settle.2.SameCells b.settle.2 := by
  cases a with
  | went u =>
    obtain ⟨v, rfl, same, _⟩ := matched
    exact same.settle .finished
  | ended ending u =>
    obtain ⟨v, rfl, same, _⟩ := matched
    exact same.settle ending

end Rig

/-! ## Programs that may take each other's place -/

section Interchangeable

variable [InputSource ι] [OutputSink ο]

/-- Both runs end, in the same way and with the same cells, pointer, input and output, or both
go on forever. -/
structure SameRuns [AbortHook η] (p q : Block) (rig : Rig ι ο η) : Prop where
  forth : ∀ fuel ending after, execute fuel p rig = some (ending, after) →
    ∃ more after', execute more q rig = some (ending, after') ∧ after.SameCells after'
  back : ∀ fuel ending after', execute fuel q rig = some (ending, after') →
    ∃ more after, execute more p rig = some (ending, after) ∧ after.SameCells after'
  endless : (∀ fuel, execute fuel p rig = none) ↔ ∀ fuel, execute fuel q rig = none

/-- Programs whose ends answer each other's also both run forever, or neither does. -/
theorem SameRuns.of_ends [AbortHook η] {p q : Block} {rig : Rig ι ο η}
    (forth : ∀ fuel ending after, execute fuel p rig = some (ending, after) →
      ∃ more after', execute more q rig = some (ending, after') ∧ after.SameCells after')
    (back : ∀ fuel ending after', execute fuel q rig = some (ending, after') →
      ∃ more after, execute more p rig = some (ending, after) ∧ after.SameCells after') :
    SameRuns p q rig := by
  refine ⟨forth, back, ?_, ?_⟩
  · intro never fuel
    cases executed : execute fuel q rig with
    | none => rfl
    | some result =>
      obtain ⟨more, after, executed', _⟩ := back fuel _ _ executed
      rw [never] at executed'
      cases executed'
  · intro never fuel
    cases executed : execute fuel p rig with
    | none => rfl
    | some result =>
      obtain ⟨more, after, executed', _⟩ := forth fuel _ _ executed
      rw [never] at executed'
      cases executed'

variable (ι ο) in
/-- Each of two programs answers for the other on rigs with the same cells. -/
structure Interchangeable (p q : Block) : Prop where
  forth : (Rig.sameCells ι ο).Refines p q
  back : (Rig.sameCells ι ο).Refines q p

theorem refines_trans {p q r : Block} (first : (Rig.sameCells ι ο).Refines p q)
    (second : (Rig.sameCells ι ο).Refines q r) : (Rig.sameCells ι ο).Refines p r := by
  refine Matching.refines_trans Rig.Near.left Rig.Near.trans ?_ first second
  rintro ending u _ b ⟨v, rfl, near⟩ ⟨w, rfl, near'⟩
  exact ⟨w, rfl, Rig.Near.trans near near'⟩

namespace Interchangeable

variable {p q r : Block}

theorem refl (p : Block) : Interchangeable ι ο p p :=
  ⟨Matching.refines_same (fun node _ _ near => Rig.Near.act near node) p,
    Matching.refines_same (fun node _ _ near => Rig.Near.act near node) p⟩

theorem symm (change : Interchangeable ι ο p q) : Interchangeable ι ο q p :=
  ⟨change.back, change.forth⟩

theorem trans (first : Interchangeable ι ο p q) (second : Interchangeable ι ο q r) :
    Interchangeable ι ο p r :=
  ⟨refines_trans first.forth second.forth, refines_trans second.back first.back⟩

/-- Programs that have the same fates may take each other's place. -/
theorem of_runs_iff
    (same : ∀ (rig : Rig ι ο Unit) (fate : Fate (Rig ι ο Unit)),
      Rig.fenced.runs p rig fate ↔ Rig.fenced.runs q rig fate) :
    Interchangeable ι ο p q := by
  have equal : (Rig.fenced : Interpretation (Rig ι ο Unit)).runs p = Rig.fenced.runs q := by
    funext rig fate
    exact propext (same rig fate)
  have kept := (refl p : Interchangeable ι ο p p).forth
  refine ⟨?_, ?_⟩
  · rwa [Matching.Refines, ← equal]
  · rwa [Matching.Refines, ← equal]

/-- So may programs that each have a fate, where the two match. -/
theorem of_fates
    (fates : ∀ {rig other : Rig ι ο Unit}, rig.Near other → ∃ a b,
      Rig.fenced.runs p rig a ∧ Rig.fenced.runs q other b ∧ (Rig.sameCells ι ο).Matched a b) :
    Interchangeable ι ο p q := by
  refine ⟨Matching.refines_of_fates fates, Matching.refines_of_fates ?_⟩
  intro rig other near
  obtain ⟨a, b, ran, ran', matched⟩ := fates (Rig.Near.symm near)
  exact ⟨b, a, ran', ran, Rig.matched_symm matched⟩

/-- A run of one of the two programs is answered by one of the other. -/
theorem exists_fate (change : Interchangeable ι ο p q) {rig other : Rig ι ο Unit}
    (near : rig.Near other) {a : Fate (Rig ι ο Unit)} (ran : Rig.fenced.runs p rig a) :
    ∃ b, Rig.fenced.runs q other b ∧ (Rig.sameCells ι ο).Matched a b := by
  obtain ⟨b, ran'⟩ := change.back.back near.symm ran
  exact ⟨b, ran', change.forth.matched near ran ran'⟩

/-! ## Without the fence -/

variable {rig : Rig ι ο Unit}

/-- Where the first program forms no address beyond the last cell, no run of the second one
that answers for it ends at the fence. -/
theorem runs_of_matched (placed : Placed rig) (unrounded : Unrounded p rig)
    {a b : Fate (Rig ι ο Unit)} (ran : Rig.fenced.runs p rig a) (ran' : Rig.fenced.runs q rig b)
    (matched : (Rig.sameCells ι ο).Matched a b) : Rig.interpretation.runs q rig b := by
  refine Rig.runs_of_fenced ran' ?_
  rintro ending after rfl
  obtain ⟨u, rfl, _⟩ := Rig.matched_symm matched
  exact Rig.not_overgrown_of_fenced placed unrounded ran ending u rfl

/-- So its runs have fates that match, without the fence. -/
theorem exists_unfenced (change : Interchangeable ι ο p q) (placed : Placed rig)
    (unrounded : Unrounded p rig) {a : Fate (Rig ι ο Unit)}
    (ran : Rig.interpretation.runs p rig a) :
    ∃ b, Rig.interpretation.runs q rig b ∧ (Rig.sameCells ι ο).Matched a b := by
  have fenced := (Rig.runs_fenced_iff placed unrounded a).2 ran
  obtain ⟨b, ran', matched⟩ := change.exists_fate ⟨.refl rig, placed⟩ fenced
  exact ⟨b, runs_of_matched placed unrounded fenced ran' matched, matched⟩

/-- And if the second program has a fate, so has the first. -/
theorem exists_unfenced_back (change : Interchangeable ι ο p q) (placed : Placed rig)
    (unrounded : Unrounded p rig) {b : Fate (Rig ι ο Unit)}
    (ran : Rig.interpretation.runs q rig b) :
    ∃ a, Rig.interpretation.runs p rig a ∧ (Rig.sameCells ι ο).Matched a b := by
  obtain ⟨b', ran'⟩ := (Rig.fence.refines q).back ⟨rfl, placed⟩ ran
  obtain ⟨a, fenced, matched⟩ := change.symm.exists_fate ⟨.refl rig, placed⟩ ran'
  have both := runs_of_matched placed unrounded fenced ran' (Rig.matched_symm matched)
  obtain rfl := Rig.interpretation.runs_functional q rig _ _ ran both
  exact ⟨a, (Rig.runs_fenced_iff placed unrounded a).1 fenced, Rig.matched_symm matched⟩

/-- Programs that may take each other's place run alike, if the first one forms no address
beyond the last cell. -/
theorem sameRuns (change : Interchangeable ι ο p q) (ready : Ready rig)
    (unrounded : Unrounded p rig) : SameRuns p q rig := by
  have placed : Placed rig :=
    ⟨ready, unrounded _ .refl rig.machine.pointer List.mem_cons_self⟩
  refine .of_ends ?_ ?_
  · intro fuel ending after executed
    obtain ⟨a, ran, settled⟩ := execute_eq_some_iff.1 ⟨fuel, executed⟩
    obtain ⟨b, ran', matched⟩ := change.exists_unfenced placed unrounded ran
    obtain ⟨more, executed'⟩ := execute_eq_some_iff.2 ⟨b, ran', rfl⟩
    obtain ⟨sameEnding, same⟩ := Rig.settle_of_matched matched
    rw [← settled] at sameEnding same
    exact ⟨more, b.settle.2, executed'.trans (congrArg (fun e => some (e, _)) sameEnding), same⟩
  · intro fuel ending after' executed
    obtain ⟨b, ran, settled⟩ := execute_eq_some_iff.1 ⟨fuel, executed⟩
    obtain ⟨a, ran', matched⟩ := change.exists_unfenced_back placed unrounded ran
    obtain ⟨more, executed'⟩ := execute_eq_some_iff.2 ⟨a, ran', rfl⟩
    obtain ⟨sameEnding, same⟩ := Rig.settle_of_matched matched
    rw [← settled] at sameEnding same
    exact ⟨more, a.settle.2, executed'.trans (congrArg (fun e => some (e, _)) sameEnding.symm), same⟩

end Interchangeable

end Interchangeable

end TapeMachine
