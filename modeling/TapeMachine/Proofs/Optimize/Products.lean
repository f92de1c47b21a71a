import TapeMachine.Proofs.Optimize.Counting

/-!
# Loops that multiply

The net additions of a loop's body have the same sums as the body itself. So a loop
that counts by one, up or down, is improved by the products that the optimizer puts
in its place.
-/

namespace TapeMachine.Optimize

open Strip

variable {last : Nat} {allowed : Option Nat}

/-! ## Net additions -/

/-- Counting one more addition adds it to its cell's sum. -/
theorem total_add (deltas : NetDeltas) (offset : Int) (delta : Int8) (other : Int) :
    total (deltas.add offset delta) other =
      total deltas other + if offset = other then delta.toUInt8 else 0 := by
  induction deltas with
  | nil => simp [NetDeltas.add, total]
  | cons entry rest ih =>
    rw [NetDeltas.add]
    split
    · rename_i same
      subst same
      simp only [total]
      split
      · rw [Int8.toUInt8_add]
        grind
      · grind
    · simp only [total, ih]
      grind

/-- Counting one more addition brings in its cell at most. -/
theorem mem_add {deltas : NetDeltas} {offset : Int} {delta : Int8} {entry : Int × Int8}
    (among : entry ∈ deltas.add offset delta) :
    entry.1 = offset ∨ ∃ old ∈ deltas, old.1 = entry.1 := by
  induction deltas with
  | nil =>
    simp only [NetDeltas.add, List.mem_singleton] at among
    exact .inl (by rw [among])
  | cons first rest ih =>
    rw [NetDeltas.add] at among
    split at among
    · rcases List.mem_cons.1 among with rfl | later
      · exact .inl rfl
      · exact .inr ⟨entry, List.mem_cons_of_mem _ later, rfl⟩
    · rcases List.mem_cons.1 among with rfl | later
      · exact .inr ⟨entry, List.mem_cons_self, rfl⟩
      · refine (ih later).imp_right ?_
        rintro ⟨old, mem, same⟩
        exact ⟨old, List.mem_cons_of_mem _ mem, same⟩

/-- Every cell is listed once. -/
def Distinct (deltas : NetDeltas) : Prop :=
  deltas.Pairwise fun a b => a.1 ≠ b.1

theorem distinct_add {deltas : NetDeltas} (distinct : Distinct deltas) (offset : Int)
    (delta : Int8) : Distinct (deltas.add offset delta) := by
  induction deltas with
  | nil => exact List.pairwise_singleton _ _
  | cons first rest ih =>
    obtain ⟨fresh, later⟩ := List.pairwise_cons.1 distinct
    rw [NetDeltas.add]
    split
    · rename_i same
      exact List.pairwise_cons.2 ⟨fun other among => same ▸ fresh other among, later⟩
    · rename_i differs
      refine List.pairwise_cons.2 ⟨fun other among => ?_, ih later⟩
      rcases mem_add among with same | ⟨old, mem, same⟩
      · rw [same]
        exact differs
      · rw [← same]
        exact fresh old mem

/-- The sum for a cell that is not listed. -/
theorem total_eq_zero {deltas : NetDeltas} {offset : Int}
    (absent : ∀ entry ∈ deltas, entry.1 ≠ offset) : total deltas offset = 0 := by
  induction deltas with
  | nil => rfl
  | cons first rest ih =>
    obtain ⟨here, later⟩ := List.forall_mem_cons.1 absent
    rw [total, if_neg here, ih later, UInt8.add_zero]

/-- Where every cell is listed once, its entry is its sum. -/
theorem toUInt8_get {deltas : NetDeltas} (distinct : Distinct deltas) (offset : Int) :
    (deltas.get offset).toUInt8 = total deltas offset := by
  induction deltas with
  | nil => rfl
  | cons first rest ih =>
    obtain ⟨fresh, later⟩ := List.pairwise_cons.1 distinct
    obtain ⟨key, delta⟩ := first
    by_cases same : offset = key
    · subst same
      have absent : total rest offset = 0 :=
        total_eq_zero fun entry among => (fresh entry among).symm
      simp [NetDeltas.get, total, absent]
    · have skipped : NetDeltas.get ((key, delta) :: rest) offset = NetDeltas.get rest offset := by
        have differs : (offset == key) = false := beq_false_of_ne same
        simp only [NetDeltas.get, List.lookup_cons, differs]
      rw [skipped, ih later, total, if_neg (Ne.symm same), UInt8.zero_add]

/-- A body has net additions if it consists of additions. They have the sums of the
body, cell by cell, and name no other cells. -/
theorem additions_of_netDeltasFrom {start deltas : NetDeltas} {body : Block}
    (distinct : Distinct start) (net : netDeltasFrom start body = some deltas) :
    ∃ entries : NetDeltas, body = additions entries ∧ Distinct deltas ∧
      (∀ offset, total deltas offset = total start offset + total entries offset) ∧
      ∀ entry ∈ deltas, ∃ old ∈ start ++ entries, old.1 = entry.1 := by
  induction body generalizing start with
  | nil =>
    cases net
    exact ⟨[], rfl, distinct, fun _ => (UInt8.add_zero _).symm,
      fun entry among => ⟨entry, by simpa using among, rfl⟩⟩
  | cons node rest ih =>
    cases node with
    | addAt offset delta =>
      obtain ⟨entries, rfl, kept, sums, named⟩ := ih (distinct_add distinct offset delta) net
      refine ⟨(offset, delta) :: entries, rfl, kept, fun other => ?_, fun entry among => ?_⟩
      · rw [sums, total_add, UInt8.add_assoc]
        rfl
      · obtain ⟨old, mem, same⟩ := named entry among
        rcases List.mem_append.1 mem with counted | later
        · rcases mem_add counted with here | ⟨older, mem, same'⟩
          · exact ⟨(offset, delta), by simp, here.symm.trans same⟩
          · exact ⟨older, List.mem_append_left _ mem, same'.trans same⟩
        · exact ⟨old, List.mem_append_right _ (List.mem_cons_of_mem _ later), same⟩
    | _ => cases net

/-! ## Products -/

/-- A share of a cell, counted the other way where asked for. -/
def signed (negate : Bool) (share : UInt8) : UInt8 :=
  if negate then -share else share

theorem signed_add (negate : Bool) (a b : UInt8) :
    signed negate (a + b) = signed negate a + signed negate b := by
  cases negate
  · rfl
  · show -(a + b) = -a + -b
    grind

theorem signed_zero (negate : Bool) : signed negate 0 = 0 := by
  cases negate <;> rfl

theorem products_cons (negate : Bool) (entry : Int × Int8) (rest : NetDeltas) :
    products negate (entry :: rest) =
      if entry.1 = 0 ∨ entry.2 = 0 then products negate rest
      else .mulAt 0 entry.1 (if negate then -entry.2 else entry.2) :: products negate rest := by
  have negated : (if negate then -entry.2 else entry.2) = 0 ↔ entry.2 = 0 := by
    cases negate
    · exact Iff.rfl
    · show -entry.2 = 0 ↔ entry.2 = 0
      grind
  simp only [products, List.filterMap_cons, negated]
  by_cases skipped : entry.1 = 0 ∨ entry.2 = 0
  · simp only [if_pos skipped]
  · simp only [if_neg skipped]

theorem straight_products (negate : Bool) (deltas : NetDeltas) :
    (products negate deltas).all Node.isSingle = true := by
  induction deltas with
  | nil => rfl
  | cons entry rest ih =>
    rw [products_cons]
    split
    · exact ih
    · exact ih

theorem toUInt8_signed (negate : Bool) (delta : Int8) :
    (if negate then -delta else delta).toUInt8 = signed negate delta.toUInt8 := by
  cases negate
  · rfl
  · exact Int8.toUInt8_neg delta

/-- The cell under the pointer, if nothing is added to it. -/
theorem cells_gained_pointer {s : Strip last} {gain : Int → UInt8} (none : gain 0 = 0) :
    (gained s gain).cells s.pointer = s.cells s.pointer := by
  simp [gained, none]

/-- A product adds to another cell. If the cell under the pointer is zero, it adds
nothing, wherever that other cell is. -/
theorem act_product {s : Strip last} {place : Int} (factor : Int8)
    (holds : s.cells s.pointer ≠ 0 → s.Holds place) :
    act (.mulAt 0 place factor) s =
      .went (gained s fun other =>
        if place = other then s.cells s.pointer * factor.toUInt8 else 0) := by
  rw [act, access_of_holds (holds_zero s), cell_zero, Int.zero_add]
  by_cases zero : s.cells s.pointer = 0
  · rw [if_pos zero]
    simp only [zero, UInt8.zero_mul, ite_self]
    rw [gained_zero]
  · rw [if_neg zero, access_of_holds (holds zero), put_eq_gained (holds zero)]

/-- What products add, for a byte under the pointer: to every other cell its share times
that byte. -/
def shares (negate : Bool) (byte : UInt8) (deltas : NetDeltas) (offset : Int) : UInt8 :=
  if offset = 0 then 0 else byte * signed negate (total deltas offset)

theorem shares_nil (negate : Bool) (byte : UInt8) : shares negate byte [] = fun _ => 0 := by
  funext offset
  cases negate <;> simp [shares, total, signed]

/-- An entry for the cell under the pointer, or of nothing, has no share. -/
theorem shares_skip (negate : Bool) (byte : UInt8) {entry : Int × Int8} (rest : NetDeltas)
    (skipped : entry.1 = 0 ∨ entry.2 = 0) :
    shares negate byte (entry :: rest) = shares negate byte rest := by
  obtain ⟨place, delta⟩ := entry
  funext offset
  unfold shares
  by_cases origin : offset = 0
  · rw [if_pos origin, if_pos origin]
  · have share : (if place = offset then delta.toUInt8 else 0) = 0 := by
      rcases skipped with (rfl : place = 0) | (rfl : delta = 0)
      · exact if_neg (Ne.symm origin)
      · exact ite_self _
    rw [if_neg origin, if_neg origin, total, share, UInt8.zero_add]

theorem shares_cons (negate : Bool) (byte : UInt8) {place : Int} (away : place ≠ 0)
    (delta : Int8) (rest : NetDeltas) :
    (fun offset => (if place = offset then byte * signed negate delta.toUInt8 else 0) +
      shares negate byte rest offset) = shares negate byte ((place, delta) :: rest) := by
  funext offset
  unfold shares
  by_cases origin : offset = 0
  · rw [if_pos origin, if_pos origin, if_neg (origin ▸ away), UInt8.add_zero]
  · rw [if_neg origin, if_neg origin, total, signed_add]
    split
    · rw [UInt8.mul_add]
    · simp [signed_zero]

/-- Products add their shares at once. -/
theorem perform_products (negate : Bool) {deltas : NetDeltas} {s : Strip last}
    (holds : s.cells s.pointer ≠ 0 → ∀ entry ∈ deltas, s.Holds entry.1) :
    (interpretation last allowed).perform (products negate deltas) s =
      .went (gained s (shares negate (s.cells s.pointer) deltas)) := by
  induction deltas generalizing s with
  | nil =>
    rw [shares_nil, gained_zero]
    rfl
  | cons entry rest ih =>
    have later : s.cells s.pointer ≠ 0 → ∀ entry ∈ rest, s.Holds entry.1 :=
      fun nonzero other among => holds nonzero other (List.mem_cons_of_mem _ among)
    rw [products_cons]
    split
    · rename_i skipped
      rw [ih later, shares_skip negate _ rest skipped]
    · rename_i counted
      have away : entry.1 ≠ 0 := fun origin => counted (.inl origin)
      have here : s.cells s.pointer ≠ 0 → s.Holds entry.1 :=
        fun nonzero => holds nonzero entry List.mem_cons_self
      rw [Interpretation.perform_cons, interpretation_act, act_product _ here, Fate.andThen_went,
        toUInt8_signed]
      -- The products leave the cell alone that they multiply.
      have source : (gained s fun other =>
          if entry.1 = other then s.cells s.pointer * signed negate entry.2.toUInt8 else 0).cells
            s.pointer = s.cells s.pointer := cells_gained_pointer (if_neg away)
      have held := later
      rw [← source] at held
      refine (ih (s := gained s _) held).trans ?_
      show Fate.went (gained (gained s _) (shares negate ((gained s _).cells s.pointer) rest)) = _
      rw [source, gained_gained, shares_cons negate _ away]

/-! ## Loops that count by one -/

/-- What replaces a counting loop adds what its rounds add. -/
theorem perform_multiplication (negate : Bool) {entries deltas : NetDeltas}
    (sums : ∀ offset, total deltas offset = total entries offset)
    (named : ∀ entry ∈ deltas, ∃ old ∈ entries, old.1 = entry.1)
    (counts : total entries 0 = signed negate (-1)) (s : Strip last) (rounds : UInt8)
    (reaches : s.cells s.pointer + rounds * total entries 0 = 0)
    (holds : s.cells s.pointer ≠ 0 → ∀ entry ∈ entries, s.Holds entry.1) :
    (interpretation last allowed).perform (products negate deltas ++ [.setAt 0 0]) s =
      .went (gained s fun offset => rounds * total entries offset) := by
  have holds' : s.cells s.pointer ≠ 0 → ∀ entry ∈ deltas, s.Holds entry.1 := by
    intro nonzero entry among
    obtain ⟨old, mem, same⟩ := named entry among
    exact same ▸ holds nonzero old mem
  rw [Interpretation.perform_append, perform_products negate holds', Fate.andThen_went,
    Interpretation.perform_cons, interpretation_act, act, access_of_holds (holds_zero _), cell_zero,
    Fate.andThen_went, Interpretation.perform_nil]
  congr 1
  ext1
  case cells =>
    funext index
    show Function.update (gained s _).cells s.pointer 0 index = s.cells index + rounds * _
    by_cases here : index = s.pointer
    · rw [here, Function.update_self, Int.sub_self, reaches]
    · have away : ¬ (index : Int) - s.pointer = 0 := by omega
      rw [Function.update_of_ne here]
      show s.cells index + shares negate _ deltas _ = _
      rw [shares, if_neg away, sums]
      -- As many rounds as the cell says, counted the other way if it counts up.
      have count : rounds = signed negate (s.cells s.pointer) := by
        rw [counts] at reaches
        cases negate
        · show rounds = s.cells s.pointer
          change s.cells s.pointer + rounds * -1 = 0 at reaches
          grind
        · show rounds = -s.cells s.pointer
          change s.cells s.pointer + rounds * - -1 = 0 at reaches
          grind
      rw [count]
      cases negate
      · rfl
      · show _ + _ * -_ = _ + -_ * _
        grind
  all_goals rfl

theorem improves_multiply {body replaced : Block}
    (found : multiplication? body = some replaced) :
    Improves last allowed [.loop body] replaced := by
  obtain ⟨deltas, net, chosen⟩ := Option.bind_eq_some_iff.1 found
  obtain ⟨entries, rfl, distinct, sums, named⟩ :=
    additions_of_netDeltasFrom List.Pairwise.nil net
  have sums : ∀ offset, total deltas offset = total entries offset := by
    intro offset
    rw [sums]
    exact UInt8.zero_add _
  have straight : ∀ negate,
      (products negate deltas ++ [Node.setAt 0 0]).all Node.isSingle = true := by
    intro negate
    rw [List.all_append, straight_products]
    rfl
  have counter : (deltas.get 0).toUInt8 = total entries 0 := (toUInt8_get distinct 0).trans (sums 0)
  split at chosen
  · rename_i down
    rw [down] at counter
    cases chosen
    exact improves_counting (straight false) (by rw [← counter]; rfl)
      (perform_multiplication false sums named counter.symm)
  · split at chosen
    · rename_i up
      rw [up] at counter
      cases chosen
      exact improves_counting (straight true) (by rw [← counter]; rfl)
        (perform_multiplication true sums named counter.symm)
    · cases chosen

end TapeMachine.Optimize
