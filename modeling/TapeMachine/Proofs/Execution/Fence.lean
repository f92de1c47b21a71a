import TapeMachine.Proofs.Execution.Matching
import TapeMachine.Proofs.Execution.Unrounded

/-!
# Fences

An interpretation may end a run where it would form an address beyond some last cell, and do
what the executor does up to there. Such a run says something about the executor even if it
ends at the fence: the executor gets to a configuration that forms an address beyond it
(`Fence.strays_of_runs`). So a run that forms no such address does not end at the fence
(`Fence.not_beyond`).
-/

namespace TapeMachine

variable {σ ι ο η : Type} [InputSource ι] [OutputSink ο] [AbortHook η]

/-! ## Configurations that stray -/

/-- The executor gets to a configuration that forms an address beyond a cell. -/
def Config.Strays (last : Nat) (config : Config ι ο η) : Prop :=
  ∃ next, config.Reaches next ∧ ∃ address ∈ next.addresses, (last : Int) < address

namespace Config.Strays

variable {last : Nat}

theorem of_reaches {config next : Config ι ο η} (reached : config.Reaches next)
    (strays : next.Strays last) : config.Strays last := by
  obtain ⟨final, more, beyond⟩ := strays
  exact ⟨final, reached.trans more, beyond⟩

/-- The node in front forms an address beyond the cell. -/
theorem of_offset {node : Node} {rest : Block} {loops : List OpenLoop} {rig : Rig ι ο η}
    {offset : Int} (among : offset ∈ node.offsets rig.machine.byte)
    (beyond : (last : Int) < rig.machine.pointer + offset) :
    Strays last ⟨node :: rest, loops, rig⟩ :=
  ⟨_, .refl, _, List.mem_cons_of_mem _ (List.mem_map_of_mem among), beyond⟩

/-- A loop that is entered goes where it goes when it starts over. -/
theorem of_open {body rest : Block} {loops : List OpenLoop} {rig : Rig ι ο η}
    (nonzero : rig.machine.current ≠ 0) (strays : Strays last ⟨[], ⟨body, rest⟩ :: loops, rig⟩) :
    Strays last ⟨.loop body :: rest, loops, rig⟩ := by
  obtain ⟨final, reached, address, among, beyond⟩ := strays
  cases reached with
  | refl =>
    have pointer : address = rig.machine.pointer := by simpa [Config.addresses] using among
    exact ⟨_, .refl, address, by simp [Config.addresses, pointer], beyond⟩
  | step stepped more =>
    refine ⟨final, .step ?_ more, address, among, beyond⟩
    rw [Config.step_nil, if_neg nonzero] at stepped
    rw [Config.step_loop_eq, if_neg nonzero]
    exact stepped

end Config.Strays

/-! ## Runs up to a fence -/

/-- An interpretation by which every program answers as the executor does, up to the endings
that are beyond the last cell. None of these is at a poll, and if one is at a node, then that
node forms an address beyond the last cell. -/
structure Fence {I : Interpretation σ} (M : Matching I (Rig.interpretation (ι := ι) (ο := ο) (η := η)))
    (Beyond : Ending → Prop) (last : Nat) : Prop where
  refines : ∀ block, M.Refines block block
  poll : ∀ {s t : σ} {ending : Ending}, I.poll s = .ended ending t → ¬ Beyond ending
  act : ∀ {s t : σ} {rig : Rig ι ο η} {node : Node} {ending : Ending}, M.near s rig →
    I.act node s = .ended ending t → Beyond ending →
      ∃ offset ∈ node.offsets rig.machine.byte, (last : Int) < rig.machine.pointer + offset

namespace Fence

open Config

variable {I : Interpretation σ} {M : Matching I (Rig.interpretation (ι := ι) (ο := ο) (η := η))}
  {Beyond : Ending → Prop} {last : Nat} {ending : Ending}

/-- A poll that goes through, in a state and on a rig that corresponds to it. -/
structure Polled (M : Matching I (Rig.interpretation (ι := ι) (ο := ο) (η := η))) (rig : Rig ι ο η)
    (t : σ) (next : Rig ι ο η) : Prop where
  nonzero : rig.machine.current ≠ 0
  polled : rig.poll = .went next
  near : M.near t next

theorem exists_polled {s t : σ} {rig : Rig ι ο η} (near : M.near s rig) (nonzero : ¬ I.zero s)
    (polled : I.poll s = .went t) : ∃ next, Polled M rig t next := by
  obtain ⟨next, polled', near'⟩ := M.poll_went near polled
  exact ⟨next, mt (M.zero_iff near).2 nonzero, by simpa using polled', near'⟩

/-- If a round that ends beyond the fence makes the executor stray, and a round that goes
through takes it to the next round, then rounds that end beyond the fence make it stray. -/
private theorem strays_of_rounds (fence : Fence M Beyond last) (beyond : Beyond ending)
    {round : σ → Fate σ → Prop} (start : Rig ι ο η → Config ι ο η) {u : σ}
    (fails : ∀ {t rig next}, Polled M rig t next → round t (.ended ending u) →
      Strays last (start rig))
    (goes : ∀ {t w rig next}, Polled M rig t next → round t (.went w) →
      ∃ later, (start rig).Reaches (start later) ∧ M.near w later)
    {s : σ} {fate : Fate σ} (ran : I.Repeats round s fate) (ended : fate = .ended ending u) :
    ∀ {rig : Rig ι ο η}, M.near s rig → Strays last (start rig) := by
  induction ran with
  | done => cases ended
  | cut _ polled =>
    cases ended
    exact absurd beyond (fence.poll polled)
  | failed nonzero polled ran =>
    intro rig near
    cases ended
    obtain ⟨next, both⟩ := exists_polled near nonzero polled
    exact fails both ran
  | again nonzero polled ran _ ih =>
    intro rig near
    obtain ⟨next, both⟩ := exists_polled near nonzero polled
    obtain ⟨later, reached, near'⟩ := goes both ran
    exact .of_reaches reached (ih ended near')

/-- What goes through up to the fence is met by the executor. -/
private theorem reaches_of_went (fence : Fence M Beyond last) {block : Block} {s t : σ}
    {rig : Rig ι ο η} (near : M.near s rig) (ran : I.runs block s (.went t)) (rest : Block)
    (loops : List OpenLoop) :
    ∃ next, Config.Reaches ⟨block ++ rest, loops, rig⟩ ⟨rest, loops, next⟩ ∧ M.near t next := by
  obtain ⟨next, ran', near'⟩ := (fence.refines block).went near ran
  exact ⟨next, Config.meets_of_runs ran' rest loops, near'⟩

private theorem strays_of_scan (fence : Fence M Beyond last) (beyond : Beyond ending)
    {step : Int} {rest : Block} {loops : List OpenLoop} {s u : σ} {rig : Rig ι ο η}
    (near : M.near s rig) (ran : I.runsNode (.scanLoop step) s (.ended ending u)) :
    Strays last ⟨.scanLoop step :: rest, loops, rig⟩ := by
  rw [Interpretation.runsNode_scanLoop] at ran
  refine strays_of_rounds fence beyond (fun rig => ⟨.scanLoop step :: rest, loops, rig⟩)
    (fun {t rig next} both moved => ?_) (fun {t w rig next} both moved => ?_) ran rfl near
  · obtain ⟨offset, among, far⟩ := fence.act both.near moved.symm beyond
    rw [Rig.machine_of_poll both.polled] at among far
    refine .of_offset ?_ far
    have current : rig.machine.byte 0 ≠ 0 := by
      rw [Machine.byte, Int.add_zero]
      exact both.nonzero
    rw [Node.offsets, if_neg current]
    exact among
  · obtain ⟨later, moved', near'⟩ := (fence.refines [.move step]).went both.near
      ((Interpretation.runs_singleton ..).2 ((Interpretation.runsNode_single _ rfl ..).2 moved))
    rw [Interpretation.runs_singleton, Interpretation.runsNode_single _ rfl,
      Rig.interpretation_act, eq_comm, Outcome.fate_eq_went, Rig.act] at moved'
    refine ⟨later, .step ?_ .refl, near'⟩
    rw [Config.step_scanLoop, if_neg both.nonzero, both.polled]
    simp only [moved', Outcome.andThen]

private theorem strays_of_loop (fence : Fence M Beyond last) (beyond : Beyond ending)
    {body rest : Block} {loops : List OpenLoop}
    (inner : ∀ {s u : σ} {rig : Rig ι ο η}, M.near s rig → I.runs body s (.ended ending u) →
      Strays last ⟨body, ⟨body, rest⟩ :: loops, rig⟩)
    {s u : σ} {rig : Rig ι ο η} (near : M.near s rig)
    (ran : I.runsNode (.loop body) s (.ended ending u)) :
    Strays last ⟨.loop body :: rest, loops, rig⟩ := by
  rcases (Interpretation.runsNode_loop ..).1 ran with ⟨_, polled⟩ | ⟨nonzero, repeated⟩
  · exact absurd beyond (fence.poll polled.symm)
  refine .of_open (mt (M.zero_iff near).2 nonzero) ?_
  have enters : ∀ {t : σ} {rig next : Rig ι ο η}, Polled M rig t next →
      Config.Reaches ⟨[], ⟨body, rest⟩ :: loops, rig⟩ ⟨body, ⟨body, rest⟩ :: loops, next⟩ := by
    intro t rig next both
    refine .step ?_ .refl
    rw [Config.step_nil, if_neg both.nonzero, both.polled]
    rfl
  refine strays_of_rounds fence beyond (fun rig => ⟨[], ⟨body, rest⟩ :: loops, rig⟩)
    (fun both ran => .of_reaches (enters both) (inner both.near ran)) (fun both ran => ?_)
    repeated rfl near
  obtain ⟨later, reached, near'⟩ :=
    reaches_of_went fence both.near ran [] (⟨body, rest⟩ :: loops)
  rw [List.append_nil] at reached
  exact ⟨later, (enters both).trans reached, near'⟩

private theorem strays_of_cons (fence : Fence M Beyond last) {node : Node} {later rest : Block}
    {loops : List OpenLoop} {s u : σ} {rig : Rig ι ο η} (near : M.near s rig)
    (head : I.runsNode node s (.ended ending u) → Strays last ⟨node :: (later ++ rest), loops, rig⟩)
    (tail : ∀ {t : σ} {next : Rig ι ο η}, M.near t next → I.runs later t (.ended ending u) →
      Strays last ⟨later ++ rest, loops, next⟩)
    (ran : I.runs (node :: later) s (.ended ending u)) :
    Strays last ⟨node :: later ++ rest, loops, rig⟩ := by
  obtain ⟨first, ranNode, leads⟩ := (Interpretation.runs_cons ..).1 ran
  cases first with
  | went t =>
    obtain ⟨next, reached, near'⟩ := reaches_of_went fence near
      ((Interpretation.runs_singleton ..).2 ranNode) (later ++ rest) loops
    exact .of_reaches reached (tail near' leads)
  | ended ending t =>
    cases (Fate.leads_ended ..).1 leads
    exact head ranNode

/-- A program that ends beyond the fence makes the executor stray. -/
theorem strays_of_runs (fence : Fence M Beyond last) (beyond : Beyond ending) {block : Block}
    {s u : σ} {rig : Rig ι ο η} (near : M.near s rig) (ran : I.runs block s (.ended ending u))
    (rest : Block) (loops : List OpenLoop) : Strays last ⟨block ++ rest, loops, rig⟩ := by
  induction block using Node.block_induction generalizing s u rig rest loops with
  | nil => cases (Interpretation.runs_nil ..).1 ran
  | loop body later ihBody ihLater =>
    refine strays_of_cons fence near (strays_of_loop fence beyond ?_ near)
      (fun near ran => ihLater near ran rest loops) ran
    intro s u rig near ran
    have strays := ihBody near ran [] (⟨body, later ++ rest⟩ :: loops)
    rwa [List.append_nil] at strays
  | single node later notLoop ihLater =>
    refine strays_of_cons fence near (fun ran => ?_)
      (fun near ran => ihLater near ran rest loops) ran
    cases node with
    | loop body => exact absurd rfl (notLoop body)
    | scanLoop step => exact strays_of_scan fence beyond near ran
    | _ =>
      rw [Interpretation.runsNode_single _ rfl] at ran
      obtain ⟨offset, among, far⟩ := fence.act near ran.symm beyond
      exact .of_offset among far

/-- A run that forms no address beyond the last cell does not end beyond the fence. -/
theorem not_beyond (fence : Fence M Beyond lastCell) {program : Block} {s u : σ}
    {rig : Rig ι ο η} (unrounded : Unrounded program rig) (near : M.near s rig)
    (ran : I.runs program s (.ended ending u)) : ¬ Beyond ending := by
  intro beyond
  have strays := fence.strays_of_runs beyond near ran [] []
  rw [List.append_nil] at strays
  obtain ⟨config, reached, address, among, far⟩ := strays
  have within := unrounded config reached address among
  omega

end Fence

end TapeMachine
