import TapeMachine.Proofs.Execution.Fence

/-!
# Rigs behind a fence

The executor, except that a run ends where a node is about to form an address beyond the last
cell that a tape can have (`Rig.fenced`). Behind the fence the pointer stays where its sums are
exact (`Placed`), so there the actions of two programs can be compared cell by cell. A run that
forms no address beyond the last cell does not notice the fence (`Rig.runs_fenced_iff`).
-/

namespace TapeMachine

variable {ι ο η : Type}

/-- A machine with 53 digits whose pointer is at a cell that a tape can have. -/
structure Placed (rig : Rig ι ο η) : Prop extends Ready rig where
  within : rig.machine.pointer ≤ lastCell

theorem Placed.of_eq {rig other : Rig ι ο η} (placed : Placed rig)
    (pointer : other.machine.pointer = rig.machine.pointer)
    (precision : other.machine.precision = rig.machine.precision) : Placed other :=
  ⟨⟨precision.trans placed.precision, pointer ▸ placed.pointer⟩, pointer ▸ placed.within⟩

namespace Rig

/-- The node forms an address beyond the last cell. -/
def Leaves (rig : Rig ι ο η) (node : Node) : Prop :=
  ∃ offset ∈ node.offsets rig.machine.byte, (lastCell : Int) < rig.machine.pointer + offset

instance (rig : Rig ι ο η) (node : Node) : Decidable (rig.Leaves node) :=
  inferInstanceAs (Decidable (∃ offset ∈ _, _))

theorem le_of_not_leaves {rig : Rig ι ο η} {node : Node} (stays : ¬ rig.Leaves node) {offset : Int}
    (among : offset ∈ node.offsets rig.machine.byte) : rig.machine.pointer + offset ≤ lastCell :=
  Int.not_lt.1 fun beyond => stays ⟨offset, among, beyond⟩

/-- The cell behind the fence that an offset leads to, or how the run ends for want of one. -/
def seek (rig : Rig ι ο η) (offset : Int) : Except Ending Nat :=
  if (lastCell : Int) < rig.machine.pointer + offset then .error (.overgrown Tape.limit)
  else match rig.machine.address offset with
    | .error cell => .error (.underflow cell)
    | .ok cell => .ok cell

theorem seek_eq_ok {rig : Rig ι ο η} {offset : Int} {cell : Nat} (found : rig.seek offset = .ok cell) :
    rig.machine.pointer + offset ≤ lastCell ∧ rig.machine.address offset = .ok cell := by
  unfold seek at found
  split at found
  · cases found
  next within =>
  split at found
  · cases found
  · next there =>
    cases found
    exact ⟨Int.not_lt.1 within, there⟩

variable [InputSource ι] [OutputSink ο] [AbortHook η]

/-- The executor, ending a run where it leaves the cells that a tape can have. -/
def fenced : Interpretation (Rig ι ο η) where
  zero rig := rig.machine.current = 0
  poll rig := rig.poll.fate
  act node rig := if rig.Leaves node then .ended (.overgrown Tape.limit) rig else (rig.act node).fate

@[simp] theorem fenced_zero (rig : Rig ι ο η) : fenced.zero rig ↔ rig.machine.current = 0 :=
  Iff.rfl

@[simp] theorem fenced_poll (rig : Rig ι ο η) : fenced.poll rig = rig.poll.fate := rfl

theorem fenced_act_of_leaves {rig : Rig ι ο η} {node : Node} (leaves : rig.Leaves node) :
    fenced.act node rig = .ended (.overgrown Tape.limit) rig :=
  if_pos leaves

theorem fenced_act_of_stays {rig : Rig ι ο η} {node : Node} (stays : ¬ rig.Leaves node) :
    fenced.act node rig = (rig.act node).fate :=
  if_neg stays

variable {rig : Rig ι ο η} {node : Node} {offset : Int}

/-- A node that changes one cell ends the run if there is no such cell. -/
theorem fenced_update_of_error {ending : Ending} (found : rig.seek offset = .error ending)
    (change : UInt8 → UInt8) (acts : rig.act node = rig.update offset change)
    (addresses : node.offsets rig.machine.byte = [offset]) :
    fenced.act node rig = .ended ending rig := by
  have leaves : rig.Leaves node ↔ (lastCell : Int) < rig.machine.pointer + offset := by
    rw [Leaves, addresses]
    simp
  unfold seek at found
  split at found
  · next beyond =>
    cases found
    exact fenced_act_of_leaves (leaves.2 beyond)
  next within =>
  split at found
  · next cell lost =>
    cases found
    rw [fenced_act_of_stays (mt leaves.1 within), acts, update_eq, access_of_error lost]
    rfl
  · cases found

/-- And otherwise changes that cell. -/
theorem fenced_update_of_ok (placed : Placed rig) {cell : Nat} (found : rig.seek offset = .ok cell)
    (change : UInt8 → UInt8) (acts : rig.act node = rig.update offset change)
    (addresses : node.offsets rig.machine.byte = [offset]) :
    fenced.act node rig = .went (rig.put cell (change (rig.machine.tape.get cell))) := by
  obtain ⟨within, there⟩ := seek_eq_ok found
  have stays : ¬ rig.Leaves node := by
    rw [Leaves, addresses]
    simpa using within
  have room : cell < Tape.limit := by
    have sum := placed.sum_eq there within
    simp only [lastCell, Tape.limit] at within ⊢
    omega
  rw [fenced_act_of_stays stays, acts, update_eq, access_of_ok there, store_of_lt room]
  rfl

end Rig

/-- The offset zero leads to the pointer. -/
theorem Placed.seek_zero {rig : Rig ι ο η} (placed : Placed rig) :
    rig.seek 0 = .ok rig.machine.pointer.toNat := by
  have nonneg := placed.pointer
  have within := placed.within
  have small : rig.machine.pointer + 0 < (2 ^ 53 : Nat) := by
    simp only [lastCell, Tape.limit] at within
    omega
  rw [Rig.seek, if_neg (by omega), Machine.address_of_lt placed.precision (by omega) small,
    Int.add_zero]

theorem Placed.current_eq {rig : Rig ι ο η} (placed : Placed rig) :
    rig.machine.current = rig.machine.tape.get rig.machine.pointer.toNat := by
  obtain ⟨cell, pointer⟩ := Int.eq_ofNat_of_zero_le placed.pointer
  rw [Machine.current, pointer]
  rfl

theorem Placed.poll [AbortHook η] {rig next : Rig ι ο η} (placed : Placed rig)
    (polled : rig.poll = .went next) : Placed next :=
  ⟨placed.toReady.poll polled, Rig.machine_of_poll polled ▸ placed.within⟩

/-- The run ended for want of a cell, or at the fence. -/
def Ending.IsOvergrown (ending : Ending) : Prop :=
  ∃ cell, ending = .overgrown cell

variable [InputSource ι] [OutputSink ο]

/-- A node that stays behind the fence leaves the pointer there. -/
theorem Placed.act {rig next : Rig ι ο η} (placed : Placed rig) {node : Node}
    (stays : ¬ rig.Leaves node) (acted : rig.act node = .went next) : Placed next := by
  refine ⟨placed.toReady.act acted, ?_⟩
  rcases Rig.act_went acted with rfl | ⟨cell, value, rfl⟩ | ⟨delta, cell, rfl, found, rfl⟩ |
    ⟨_, output, _, rfl⟩ | ⟨cell, value, input, _, rfl⟩
  · exact placed.within
  · exact placed.within
  · have there : rig.machine.pointer + delta ≤ lastCell :=
      Rig.le_of_not_leaves stays List.mem_cons_self
    have sum := placed.sum_eq found there
    show (cell : Int) ≤ lastCell
    omega
  · exact placed.within
  · exact placed.within

variable [AbortHook η]

namespace Rig

/-! ## With the fence and without -/

variable (ι ο η) in
/-- A placed rig behind the fence and the same rig without it. If the run has ended at the
fence, the other may do anything. -/
def unfenced : Matching (fenced : Interpretation (Rig ι ο η))
    (interpretation : Interpretation (Rig ι ο η)) where
  near s t := t = s ∧ Placed s
  covers ending s fate := ending.IsOvergrown ∨ fate = .ended ending s
  zero_iff := by
    rintro s t ⟨rfl, _⟩
    rfl
  poll_went := by
    rintro s t u ⟨rfl, placed⟩ polled
    exact ⟨u, polled, rfl, placed.poll (Outcome.fate_eq_went.1 polled)⟩
  poll_ended := by
    rintro s t u ending ⟨rfl, _⟩ polled
    exact .inr polled
  poll_stable := by
    rintro ending u t (overgrown | ended)
    · exact .inl overgrown
    · cases ended
  act_stable := by
    rintro ending u t node (overgrown | ended)
    · exact .inl overgrown
    · cases ended

theorem unfenced_act {rig other : Rig ι ο η} (near : (unfenced ι ο η).near rig other)
    (node : Node) :
    (unfenced ι ο η).Matched (fenced.act node rig) (interpretation.act node other) := by
  obtain ⟨rfl, placed⟩ := near
  by_cases leaves : other.Leaves node
  · rw [fenced_act_of_leaves leaves]
    exact .inl ⟨_, rfl⟩
  rw [fenced_act_of_stays leaves, interpretation_act]
  cases acted : other.act node with
  | went next => exact ⟨next, rfl, rfl, placed.act leaves acted⟩
  | ended ending after => exact .inr rfl

/-- The fence is one in the sense of `Fence`. -/
theorem fence : Fence (unfenced ι ο η) Ending.IsOvergrown lastCell where
  refines := Matching.refines_same fun node _ _ near => unfenced_act near node
  poll := by
    rintro s t ending polled ⟨cell, rfl⟩
    cases (poll_ended (Outcome.fate_eq_ended.1 polled)).1
  act := by
    rintro s t rig node ending ⟨rfl, placed⟩ acted ⟨cell, rfl⟩
    by_cases leaves : rig.Leaves node
    · exact leaves
    · rw [fenced_act_of_stays leaves, Outcome.fate_eq_ended] at acted
      exact absurd acted (act_ne_overgrown placed.toReady placed.within
        (fun _ => le_of_not_leaves leaves) cell)

/-- A run that does not end at the fence is one without the fence too. -/
theorem runs_of_fenced {block : Block} {rig : Rig ι ο η} {fate : Fate (Rig ι ο η)}
    (ran : fenced.runs block rig fate)
    (short : ∀ ending after, fate = .ended ending after → ¬ ending.IsOvergrown) :
    interpretation.runs block rig fate := by
  have agrees : Interpretation.Agrees (fenced : Interpretation (Rig ι ο η)) interpretation
      (fun _ _ => True) fun fate =>
        ∀ ending after, fate = .ended ending after → ¬ ending.IsOvergrown :=
    { zero := fun _ => Iff.rfl
      act := fun node rig short => by
        by_cases leaves : rig.Leaves node
        · exact absurd ⟨_, rfl⟩ (short _ _ (fenced_act_of_leaves leaves))
        · exact (fenced_act_of_stays leaves).symm
      poll := fun _ _ => rfl
      back := fun _ _ _ _ went => nomatch went
      refl := fun _ => trivial
      trans := fun _ _ _ _ _ => trivial
      keptPoll := fun _ => trivial
      keptAct := fun _ _ => trivial }
  exact agrees.runs ran short

variable {program : Block} {rig : Rig ι ο η}

/-- A run that forms no address beyond the last cell does not end at the fence. -/
theorem not_overgrown_of_fenced (placed : Placed rig) (unrounded : Unrounded program rig)
    {fate : Fate (Rig ι ο η)} (ran : fenced.runs program rig fate) (ending : Ending)
    (after : Rig ι ο η) (ended : fate = .ended ending after) : ¬ ending.IsOvergrown :=
  fence.not_beyond unrounded ⟨rfl, placed⟩ (ended ▸ ran)

/-- A run that forms no address beyond the last cell is the same with the fence and without. -/
theorem runs_fenced_iff (placed : Placed rig) (unrounded : Unrounded program rig)
    (fate : Fate (Rig ι ο η)) :
    fenced.runs program rig fate ↔ interpretation.runs program rig fate := by
  refine ⟨fun ran => runs_of_fenced ran (not_overgrown_of_fenced placed unrounded ran), fun ran => ?_⟩
  obtain ⟨other, ran'⟩ := (fence.refines program).back ⟨rfl, placed⟩ ran
  have both := runs_of_fenced ran' (not_overgrown_of_fenced placed unrounded ran')
  rwa [interpretation.runs_functional program rig _ _ ran both]

end Rig

end TapeMachine
