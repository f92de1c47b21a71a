import TapeMachine.Proofs.Optimize.Deferral

/-!
# Normal forms of programs

A pass settles every block of a program (`settled_apply`). Each block is changed once its own
loops are done, and no pass brings a loop into a block (`loop_mem_onBlock`), so that what the
pass made of a body stays what it is. As settled blocks are not changed (`apply_of_settled`),
running a pass once more does nothing.
-/

namespace TapeMachine.Optimize

open Pass Program

variable {precision : Precision} {pass : Pass} {finished : List Node} {node : Node}
  {body block program : Block}

/-! ## No loop is brought in -/

/-- A sweep brings in no loop if no node that it takes does. -/
theorem loop_mem_foldl {σ : Type} (view : σ → List Node) (push : σ → Node → σ)
    (pushed : ∀ state node, .loop body ∈ view (push state node) →
      .loop body ∈ view state ∨ node = .loop body) (state : σ)
    (among : .loop body ∈ view (block.foldl push state)) :
    .loop body ∈ view state ∨ .loop body ∈ block := by
  induction block generalizing state with
  | nil => exact .inl among
  | cons node rest ih =>
    rcases ih (push state node) among with taken | later
    · refine (pushed state node taken).imp_right ?_
      rintro rfl
      exact List.mem_cons_self
    · exact .inr (.tail _ later)

theorem loop_mem_sweep {push : List Node → Node → List Node}
    (pushed : ∀ finished node, .loop body ∈ push finished node →
      .loop body ∈ finished ∨ node = .loop body)
    (among : .loop body ∈ (block.foldl push []).reverse) : .loop body ∈ block := by
  rcases loop_mem_foldl id push pushed [] (List.mem_reverse.1 among) with none | there
  · cases none
  · exact there

theorem loop_mem_pushMove {delta : Int} :
    .loop body ∈ pushMove precision finished delta → .loop body ∈ finished := by
  fun_cases pushMove precision finished delta <;> simp_all

theorem loop_mem_pushAdd {offset : Int} {delta : Int8} :
    .loop body ∈ pushAdd finished offset delta → .loop body ∈ finished := by
  fun_cases pushAdd finished offset delta <;> grind

theorem loop_mem_mergeRun :
    .loop body ∈ mergeRun precision finished node → .loop body ∈ finished ∨ node = .loop body := by
  intro among
  cases node with
  | addAt offset delta => exact .inl (loop_mem_pushAdd among)
  | move delta => exact .inl (loop_mem_pushMove among)
  | _ => exact (List.mem_cons.1 among).symm.imp_right Eq.symm

theorem loop_mem_sumMove :
    .loop body ∈ sumMove precision finished node → .loop body ∈ finished ∨ node = .loop body := by
  intro among
  cases node with
  | move delta => exact .inl (loop_mem_pushMove among)
  | _ => exact (List.mem_cons.1 among).symm.imp_right Eq.symm

theorem loop_mem_pushAssigned :
    .loop body ∈ pushAssigned finished node → .loop body ∈ finished ∨ node = .loop body := by
  fun_cases pushAssigned finished node <;> grind

theorem eq_loop_of_clearing {oddDeltas : Bool} :
    clearing oddDeltas node = .loop body → node = .loop body := by
  fun_cases clearing oddDeltas node <;> simp_all

theorem eq_loop_of_scanning : scanning node = .loop body → node = .loop body := by
  fun_cases scanning node <;> simp_all

theorem not_loop_of_shift? {distance : Int} {shifted : Node}
    (shifts : node.shift? precision distance = some shifted) : ∀ body, shifted ≠ .loop body := by
  rintro body rfl
  cases node <;> simp [Node.shift?] at shifts

theorem loop_mem_absorbMove :
    .loop body ∈ absorbMove precision finished node →
      .loop body ∈ finished ∨ node = .loop body := by
  fun_cases absorbMove precision finished node <;> grind [not_loop_of_shift?]

theorem loop_mem_flush {deferred : Deferred} :
    .loop body ∈ deferred.flush ↔ .loop body ∈ deferred.finished := by
  rw [Deferred.flush]
  split <;> simp

theorem loop_mem_take {deferred : Deferred} :
    .loop body ∈ (deferred.take precision node).flush →
      .loop body ∈ deferred.flush ∨ node = .loop body := by
  rw [loop_mem_flush]
  fun_cases Deferred.take precision deferred node <;>
    grind [loop_mem_flush, not_loop_of_shift?]

/-- A pass changes no body, and brings no loop into a block. -/
theorem loop_mem_onBlock (among : .loop body ∈ pass.onBlock precision block) :
    .loop body ∈ block := by
  cases pass with
  | mergeOperators => exact loop_mem_sweep (fun _ _ => loop_mem_mergeRun) among
  | collapseAssignments oddDeltas =>
    refine loop_mem_sweep (fun finished node pushed => ?_) among
    exact (loop_mem_pushAssigned pushed).imp_right eq_loop_of_clearing
  | collapseOffsets => exact loop_mem_sweep (fun _ _ => loop_mem_absorbMove) among
  | deferMovements =>
    rcases loop_mem_foldl Deferred.flush (Deferred.take precision) (fun _ _ => loop_mem_take) {}
      (List.mem_reverse.1 among) with none | there
    · cases none
    · exact there
  | collapseMultiplications =>
    obtain ⟨node, there, becomes⟩ := List.mem_flatMap.1 among
    exact (loop_mem_multiplied becomes).1 ▸ there
  | collapseMoves => exact loop_mem_sweep (fun _ _ => loop_mem_sumMove) among
  | collapseScanLoops =>
    obtain ⟨node, there, becomes⟩ := List.mem_map.1 among
    exact eq_loop_of_scanning becomes ▸ there

/-! ## Settling -/

theorem settled_onBlock (stable : precision.Stable) (pass : Pass) (block : Block) :
    pass.Settled precision (pass.onBlock precision block) := by
  cases pass with
  | mergeOperators => exact settled_mergeRuns block
  | collapseAssignments oddDeltas => exact settled_assign oddDeltas block
  | collapseOffsets => exact settled_absorbMoves block
  | deferMovements => exact settled_deferMoves stable block
  | collapseMultiplications => exact settled_multiply block
  | collapseMoves => exact settled_sumMoves block
  | collapseScanLoops => exact settled_scan block

theorem onBlock_of_settled (settled : pass.Settled precision block) :
    pass.onBlock precision block = block := by
  cases pass with
  | mergeOperators => exact mergeRuns_of_settled settled
  | collapseAssignments oddDeltas => exact assign_of_settled settled
  | collapseOffsets => exact absorbMoves_of_settled settled
  | deferMovements => exact deferMoves_of_settled settled
  | collapseMultiplications => exact multiply_of_settled settled
  | collapseMoves => exact sumMoves_of_settled settled
  | collapseScanLoops => exact scan_of_settled settled

/-- What a pass makes of a body, once it has changed the loops in it, is what stands in the
program in the end. -/
theorem everyBody_apply {P Q : Block → Prop} (every : EveryBody P program)
    (changed : ∀ inner, EveryBlock P inner → Q (pass.apply precision inner)) :
    EveryBody Q (pass.apply precision program) := by
  simp only [apply_eq_replaceNested] at changed ⊢
  exact every.replaceNested (fun inner body => loop_mem_onBlock) changed

theorem everyBlock_apply {P Q : Block → Prop} (every : EveryBlock P program)
    (changed : ∀ inner, EveryBlock P inner → Q (pass.apply precision inner)) :
    EveryBlock Q (pass.apply precision program) :=
  ⟨changed program every, everyBody_apply every.2 changed⟩

theorem settled_apply (stable : precision.Stable) (pass : Pass) (program : Block) :
    EveryBlock (pass.Settled precision) (pass.apply precision program) := by
  have every : EveryBlock (fun _ => True) program := ⟨trivial, fun _ _ => trivial⟩
  refine everyBlock_apply every fun inner _ => ?_
  rw [apply_eq_replaceNested]
  exact settled_onBlock stable pass _

theorem apply_of_settled (settled : EveryBlock (pass.Settled precision) program) :
    pass.apply precision program = program := by
  rw [apply_eq_replaceNested]
  exact (settled.imp fun inner => onBlock_of_settled).replaceNested_eq_self

/-- A pass leaves every block of a program settled, so that running it once more changes
nothing. -/
theorem passes_idempotent (pass : Pass) (program : Block) :
    EveryBlock (pass.Settled .double) (pass.apply .double program) ∧
      pass.apply .double (pass.apply .double program) = pass.apply .double program := by
  have settled := settled_apply Precision.stable_double pass program
  exact ⟨settled, apply_of_settled settled⟩

end TapeMachine.Optimize
