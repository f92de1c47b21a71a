import TapeMachine.Device.Abort
import TapeMachine.Limits
import TapeMachine.Proofs.Number.Rounding

/-!
# Hooks that stop a run together

A combination of hooks polls each of them once at every poll, also those behind one that has
fired, so after any number of polls it is the combination of the hooks after as many polls of
their own (`after_anyOf`), and fires when one of them does (`answer_anyOf`). Hence it does not
matter how hooks are ordered and grouped, step limits together are the smallest of them, and a
deadline among other hooks reads its clock as it does alone (`pointwiseOr`).
-/

namespace TapeMachine

namespace AbortHook

variable {η : Type} [AbortHook η]

/-- A hook after a number of polls. -/
def after : Nat → η → η
  | 0, hook => hook
  | count + 1, hook => (poll (after count hook)).2

/-- What a hook answers to the poll that comes after a number of others. -/
def answer (count : Nat) (hook : η) : Bool :=
  (poll (after count hook)).1

/-- A way for hooks of one type to stand among hooks of another. -/
structure Embedding (θ η : Type) [AbortHook θ] [AbortHook η] where
  toHook : θ → η
  poll_toHook : ∀ hook, poll (toHook hook) = ((poll hook).1, toHook (poll hook).2)

section Embedding

variable {θ : Type} [AbortHook θ] (embedding : Embedding θ η)

theorem after_toHook (count : Nat) (hook : θ) :
    after count (embedding.toHook hook) = embedding.toHook (after count hook) := by
  induction count with
  | zero => rfl
  | succ count ih => rw [after, ih, embedding.poll_toHook, after]

theorem answer_toHook (count : Nat) (hook : θ) :
    answer count (embedding.toHook hook) = answer count hook := by
  rw [answer, after_toHook, embedding.poll_toHook, answer]

end Embedding

end AbortHook

open AbortHook

/-! ## Combinations -/

namespace AnyOf

variable {η : Type}

theorem of?_eq_none_iff {hooks : List (Option η)} : of? hooks = none ↔ hooks.filterMap id = [] := by
  unfold of?
  split
  · next none => exact iff_of_true rfl none
  · next some => exact iff_of_false (fun none => nomatch none) (some ▸ List.cons_ne_nil _ _)

theorem of?_eq_some {hooks : List (Option η)} (some : hooks.filterMap id ≠ []) :
    of? hooks = .some ⟨hooks.filterMap id⟩ := by
  obtain ⟨first, rest, present⟩ := List.exists_cons_of_ne_nil some
  rw [of?, present]

variable [AbortHook η]

theorem pollAll_eq (hooks : List η) : pollAll hooks =
    (hooks.any fun hook => (AbortHook.poll hook).1,
      hooks.map fun hook => (AbortHook.poll hook).2) := by
  induction hooks with
  | nil => rfl
  | cons hook rest ih => rw [pollAll, ih, List.any_cons, List.map_cons]

/-- Each hook of a combination has been polled as often as the combination. -/
theorem after_anyOf (count : Nat) (hooks : List η) :
    after count (⟨hooks⟩ : AnyOf η) = ⟨hooks.map (after count)⟩ := by
  induction count with
  | zero => exact congrArg AnyOf.mk (List.map_id hooks).symm
  | succ count ih =>
    rw [after, ih]
    show (⟨(pollAll (hooks.map (after count))).2⟩ : AnyOf η) = _
    rw [pollAll_eq, List.map_map]
    rfl

/-- A combination fires at a poll if one of its hooks does. -/
theorem answer_anyOf (count : Nat) (hooks : List η) :
    answer count (⟨hooks⟩ : AnyOf η) = hooks.any (answer count) := by
  rw [answer, after_anyOf]
  show (pollAll (hooks.map (after count))).1 = _
  rw [pollAll_eq, List.any_map]
  rfl

end AnyOf

/-! ## Combinations of combinations -/

/-- A hook, or a combination of hooks that may be combinations themselves. -/
inductive Nested (η : Type) where
  | single (hook : η)
  | combined (any : AnyOf (Nested η))

namespace Nested

variable {η : Type} [AbortHook η]

mutual

/-- Polls a hook, or every hook of a combination. -/
def poll : Nested η → Bool × Nested η
  | .single hook => ((AbortHook.poll hook).1, .single (AbortHook.poll hook).2)
  | .combined any => ((pollAny any).1, .combined (pollAny any).2)

/-- Polls every hook of a combination. -/
def pollAny : AnyOf (Nested η) → Bool × AnyOf (Nested η)
  | ⟨hooks⟩ => ((pollEach hooks).1, ⟨(pollEach hooks).2⟩)

/-- Polls every hook of a list. -/
def pollEach : List (Nested η) → Bool × List (Nested η)
  | [] => (false, [])
  | hook :: rest => ((poll hook).1 || (pollEach rest).1, (poll hook).2 :: (pollEach rest).2)

end

instance : AbortHook (Nested η) where
  poll := Nested.poll

theorem pollEach_eq (hooks : List (Nested η)) : pollEach hooks = AnyOf.pollAll hooks := by
  induction hooks with
  | nil => rfl
  | cons hook rest ih =>
    rw [pollEach, ih, AnyOf.pollAll]
    rfl

/-- A hook by itself. -/
def ofHook : Embedding η (Nested η) where
  toHook := .single
  poll_toHook _ := by
    show Nested.poll _ = _
    rw [Nested.poll]

/-- A combination inside others is polled as one by itself. -/
def ofAny : Embedding (AnyOf (Nested η)) (Nested η) where
  toHook := .combined
  poll_toHook any := by
    obtain ⟨hooks⟩ := any
    show Nested.poll _ = _
    rw [Nested.poll, pollAny, pollEach_eq]
    rfl

end Nested

/-- What is handed over to be combined: nothing, a hook, or a combination of such things. -/
inductive Part (η : Type) where
  | absent
  | present (hook : η)
  | anyOf (parts : List (Part η))

namespace Part

variable {η : Type}

mutual

/-- The hooks in a part, in order. -/
def hooks : Part η → List η
  | .absent => []
  | .present hook => [hook]
  | .anyOf parts => hooksOf parts

/-- The hooks in some parts, in order. -/
def hooksOf : List (Part η) → List η
  | [] => []
  | part :: rest => hooks part ++ hooksOf rest

end

mutual

/-- The hook that a part makes, if there is any hook in it. -/
def result : Part η → Option (Nested η)
  | .absent => none
  | .present hook => some (.single hook)
  | .anyOf parts => (AnyOf.of? (results parts)).map .combined

/-- What each of some parts makes. -/
def results : List (Part η) → List (Option (Nested η))
  | [] => []
  | part :: rest => result part :: results rest

end

theorem hooksOf_eq (parts : List (Part η)) : hooksOf parts = parts.flatMap hooks := by
  induction parts with
  | nil => rfl
  | cons part rest ih => rw [hooksOf, ih, List.flatMap_cons]

theorem results_eq (parts : List (Part η)) : results parts = parts.map result := by
  induction parts with
  | nil => rfl
  | cons part rest ih => rw [results, ih, List.map_cons]

/-- Reasoning about a part by the parts it is combined of. -/
theorem parts_induction {P : Part η → Prop} (absent : P .absent)
    (present : ∀ hook, P (.present hook))
    (anyOf : ∀ parts, (∀ part ∈ parts, P part) → P (.anyOf parts)) (part : Part η) : P part :=
  Part.rec (motive_1 := P) (motive_2 := fun parts => ∀ part ∈ parts, P part) absent present anyOf
    (fun _ none => nomatch none) (fun _ _ first rest => List.forall_mem_cons.2 ⟨first, rest⟩) part

variable [AbortHook η]

/-- A part makes a hook if it has one, and that hook fires when one of them does. -/
theorem map_answer_result (count : Nat) (part : Part η) : part.result.map (answer count) =
    if part.hooks.isEmpty then none else some (part.hooks.any (answer count)) := by
  induction part using parts_induction with
  | absent => rfl
  | present hook =>
    show some (answer count (Nested.ofHook.toHook hook)) = some (answer count hook || false)
    rw [answer_toHook, Bool.or_false]
  | anyOf parts ih =>
    have empty : ∀ part ∈ parts, part.result = none ↔ part.hooks = [] := by
      intro part among
      have one := ih part among
      rw [← List.isEmpty_iff]
      split at one
      · next empty => exact iff_of_true (Option.map_eq_none_iff.1 one) empty
      · next some => exact iff_of_false (fun none => by rw [none] at one; cases one) some
    have fires : ∀ part ∈ parts,
        part.result.any (answer count) = part.hooks.any (answer count) := by
      intro part among
      have one := ih part among
      cases made : part.result with
      | none => rw [(empty part among).1 made]; rfl
      | some hook =>
        rw [made] at one
        split at one
        · cases one
        · exact Option.some.inj one
    have listed : (parts.map result).filterMap id = parts.filterMap result := by
      rw [List.filterMap_map]
      rfl
    rw [result, results_eq, hooks, hooksOf_eq]
    by_cases none : parts.filterMap result = []
    · have hookless : parts.flatMap hooks = [] := by
        refine List.flatMap_eq_nil_iff.2 fun part among => (empty part among).1 ?_
        exact List.filterMap_eq_nil_iff.1 none part among
      rw [AnyOf.of?_eq_none_iff.2 (listed.trans none), hookless]
      rfl
    · have hooked : (parts.flatMap hooks).isEmpty = false := by
        refine Bool.eq_false_iff.2 fun hookless => none ?_
        rw [List.isEmpty_iff, List.flatMap_eq_nil_iff] at hookless
        exact List.filterMap_eq_nil_iff.2 fun part among =>
          (empty part among).2 (hookless part among)
      rw [AnyOf.of?_eq_some (listed ▸ none), hooked, listed]
      show some (answer count (Nested.ofAny.toHook _)) = some _
      rw [answer_toHook, AnyOf.answer_anyOf, List.any_filterMap, List.any_flatMap]
      refine congrArg some (Bool.eq_iff_iff.2 ?_)
      rw [List.any_eq_true, List.any_eq_true]
      exact exists_congr fun part => and_congr_right fun among =>
        iff_of_eq (congrArg (· = true) (fires part among))

end Part

/-! ## Step limits -/

namespace StepLimit

theorem after_stepLimit (count : Nat) (limit : StepLimit) :
    after count limit = { limit with taken := limit.taken + count } := by
  induction count with
  | zero => rfl
  | succ count ih => rw [after, ih]; rfl

/-- A whole number of polls is let through. -/
theorem answer_ofInt (count : Nat) (bound : Int) :
    answer count (StepLimit.ofQuantity (.ofInt bound)) =
      decide (Precision.double.round bound ≤ count) := by
  have floor : (Binary.ofInt bound).floor = Precision.double.round bound := Int.ediv_one _
  rw [answer, after_stepLimit]
  show decide ((Binary.ofInt bound).floor.toNat < 0 + count + 1) = _
  rw [floor, Nat.zero_add, decide_eq_decide]
  omega

/-- Step limits together are the smallest of them. -/
theorem any_answer_ofInt {bounds : List Int} {least : Int} (among : least ∈ bounds)
    (smallest : ∀ bound ∈ bounds, least ≤ bound) (count : Nat) :
    bounds.any (fun bound => answer count (StepLimit.ofQuantity (.ofInt bound))) =
      answer count (StepLimit.ofQuantity (.ofInt least)) := by
  rw [Bool.eq_iff_iff, List.any_eq_true]
  simp only [answer_ofInt, decide_eq_true_eq]
  constructor
  · rintro ⟨bound, listed, exceeded⟩
    exact Int.le_trans (Precision.round_mono (by decide) (smallest bound listed)) exceeded
  · intro exceeded
    exact ⟨least, among, exceeded⟩

end StepLimit

/-! ## Deadlines -/

namespace Deadline

variable (milliseconds : Quantity) (clock : Clock) (every : Nat)

/-- A deadline counts the polls and changes nothing else but its clock. -/
theorem after_start (count : Nat) :
    (after count (Deadline.start milliseconds clock every)).polls = count ∧
      (after count (Deadline.start milliseconds clock every)).every = every := by
  induction count with
  | zero => exact ⟨rfl, rfl⟩
  | succ count ih =>
    obtain ⟨polls, period⟩ := ih
    rw [after]
    show (Deadline.poll _).2.polls = _ ∧ (Deadline.poll _).2.every = _
    rw [Deadline.poll, polls]
    split <;> exact ⟨rfl, period⟩

/-- The clock is read at a poll if it is the clock's turn, and at no other. -/
theorem clock_after_succ (count : Nat) :
    (after (count + 1) (Deadline.start milliseconds clock every)).clock =
      if every ∣ count + 1
      then (after count (Deadline.start milliseconds clock every)).clock.read.2
      else (after count (Deadline.start milliseconds clock every)).clock := by
  obtain ⟨polls, period⟩ := after_start milliseconds clock every count
  rw [after]
  show (Deadline.poll _).2.clock = _
  rw [Deadline.poll, polls, period]
  simp only [Nat.dvd_iff_mod_eq_zero]
  split <;> rfl

theorem reads_read (clock : Clock) : clock.read.2.reads = clock.reads + 1 := by
  unfold Clock.read
  split <;> rfl

/-- A reading is taken at the start, and one for every multiple of the period. -/
theorem reads_after (count : Nat) :
    (after count (Deadline.start milliseconds clock every)).clock.reads =
      clock.reads + 1 + count / every := by
  induction count with
  | zero =>
    rw [Nat.zero_div, Nat.add_zero]
    exact reads_read clock
  | succ count ih =>
    rw [clock_after_succ, Nat.succ_div]
    split
    · rw [reads_read, ih]
      rfl
    · exact ih

end Deadline

/-! ## Pointwise combination -/

/-- What becomes of hooks that stop a run together. -/
structure PointwiseOr (η : Type) [AbortHook η] : Prop where
  /-- The hooks that are present are polled once at every poll, and the combination fires if one of
  them does. -/
  polls : ∀ (hooks : List (Option η)) (hook : η), some hook ∈ hooks →
    ∃ any, AnyOf.of? hooks = some any ∧ ∀ count,
      (after count any).hooks = (hooks.filterMap id).map (after count) ∧
      (answer count any = true ↔ ∃ hook, some hook ∈ hooks ∧ answer count hook = true)
  /-- The order of the hooks and their grouping make no difference. -/
  grouping : ∀ part part' : Part η, part.hooks.Perm part'.hooks →
    ∀ count, part.result.map (answer count) = part'.result.map (answer count)
  /-- Step limits together are the smallest of them. -/
  limits : ∀ (bounds : List (Option Int)) (least : Int), some least ∈ bounds →
    (∀ bound, some bound ∈ bounds → least ≤ bound) →
      ∃ any, AnyOf.of? (bounds.map fun bound =>
          bound.map fun bound => StepLimit.ofQuantity (.ofInt bound)) = some any ∧
        ∀ count, answer count any = answer count (StepLimit.ofQuantity (.ofInt least))
  /-- A deadline among other hooks reads its clock once when it is made, and again at the polls
  whose number is a multiple of its period. -/
  deadline : ∀ (embedding : Embedding Deadline η) (front back : List (Option η))
    (milliseconds : Quantity) (clock : Clock) (every : Nat),
    let start := Deadline.start milliseconds clock every
    ∃ any, AnyOf.of? (front ++ some (embedding.toHook start) :: back) = some any ∧
      start.clock = clock.read.2 ∧ ∀ count,
        (after count any).hooks = (front.filterMap id).map (after count) ++
          embedding.toHook (after count start) :: (back.filterMap id).map (after count) ∧
        (after (count + 1) start).clock = (if every ∣ count + 1
          then (after count start).clock.read.2 else (after count start).clock) ∧
        (after count start).clock.reads = clock.reads + 1 + count / every

theorem filterMap_id_ne_nil {η : Type} {hooks : List (Option η)} {hook : η}
    (among : some hook ∈ hooks) : hooks.filterMap id ≠ [] :=
  List.ne_nil_of_mem (List.mem_filterMap.2 ⟨some hook, among, rfl⟩)

/-- Hooks that stop a run together are polled side by side. -/
theorem pointwiseOr (η : Type) [AbortHook η] : PointwiseOr η where
  polls hooks hook among := by
    refine ⟨⟨hooks.filterMap id⟩, AnyOf.of?_eq_some (filterMap_id_ne_nil among), fun count => ?_⟩
    refine ⟨congrArg AnyOf.hooks (AnyOf.after_anyOf count _), ?_⟩
    rw [AnyOf.answer_anyOf, List.any_eq_true]
    simp only [List.mem_filterMap, id_eq, exists_eq_right]
  grouping part part' same count := by
    rw [Part.map_answer_result, Part.map_answer_result, same.isEmpty_eq, same.any_eq]
  limits bounds least among smallest := by
    have hooks : (bounds.map fun bound => bound.map fun bound =>
        StepLimit.ofQuantity (.ofInt bound)).filterMap id =
        (bounds.filterMap id).map fun bound => StepLimit.ofQuantity (.ofInt bound) := by
      rw [List.filterMap_map, List.map_filterMap]
      rfl
    have listed (bound : Int) : bound ∈ bounds.filterMap id ↔ some bound ∈ bounds := by
      simp only [List.mem_filterMap, id_eq, exists_eq_right]
    have present :
        (bounds.filterMap id).map (fun bound => StepLimit.ofQuantity (.ofInt bound)) ≠ [] :=
      mt List.map_eq_nil_iff.1 (filterMap_id_ne_nil among)
    refine ⟨_, AnyOf.of?_eq_some (hooks ▸ present), fun count => ?_⟩
    rw [AnyOf.answer_anyOf, hooks, List.any_map]
    exact StepLimit.any_answer_ofInt ((listed least).2 among)
      (fun bound among => smallest bound ((listed bound).1 among)) count
  deadline embedding front back milliseconds clock every := by
    have hooks : (front ++ some (embedding.toHook (.start milliseconds clock every)) ::
        back).filterMap id = front.filterMap id ++
          embedding.toHook (.start milliseconds clock every) :: back.filterMap id := by
      rw [List.filterMap_append]
      rfl
    have among : some (embedding.toHook (.start milliseconds clock every)) ∈
        front ++ some (embedding.toHook (.start milliseconds clock every)) :: back :=
      List.mem_append_right _ List.mem_cons_self
    refine ⟨_, AnyOf.of?_eq_some (filterMap_id_ne_nil among), rfl, fun count => ⟨?_, ?_, ?_⟩⟩
    · rw [AnyOf.after_anyOf, hooks, List.map_append, List.map_cons, after_toHook]
    · exact Deadline.clock_after_succ milliseconds clock every count
    · exact Deadline.reads_after milliseconds clock every count

end TapeMachine
