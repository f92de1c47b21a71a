import Mathlib.Data.Int.GCD
import Mathlib.Data.Nat.Prime.Basic
import Mathlib.Tactic.Ring
import TapeMachine.Proofs.Optimize.Neighbours

/-!
# Counting loops

A loop whose body only adds counts its cell by the same amount in each round. If
that amount is odd, the loop ends from every value, because an odd number has an
inverse modulo 256; and the number of rounds, modulo 256, is the value times that
inverse. So the loop can be replaced by code that adds as many multiples of each
cell's share at once.
-/

namespace TapeMachine.Optimize

open Strip

variable {last : Nat} {allowed : Option Nat}

/-! ## Additions at once -/

/-- The sum of the additions that a list has for an offset, modulo 256. -/
def total : NetDeltas → Int → UInt8
  | [], _ => 0
  | entry :: rest, offset =>
    (if entry.1 = offset then entry.2.toUInt8 else 0) + total rest offset

/-- The additions of a list, as nodes. -/
def additions (entries : NetDeltas) : Block :=
  entries.map fun entry => .addAt entry.1 entry.2

/-- The strip with something added to each cell, by its offset from the pointer. -/
def gained (s : Strip last) (gain : Int → UInt8) : Strip last :=
  { s with cells := fun cell => s.cells cell + gain (cell - s.pointer) }

theorem gained_zero (s : Strip last) : gained s (fun _ => 0) = s := by
  simp [gained]

theorem gained_gained (s : Strip last) (first second : Int → UInt8) :
    gained (gained s first) second = gained s fun offset => first offset + second offset := by
  simp [gained, UInt8.add_assoc]

/-- A single addition. -/
theorem put_eq_gained {s : Strip last} {offset : Int} (holds : s.Holds offset) (value : UInt8) :
    s.put (s.cell offset) (s.cells (s.cell offset) + value) =
      gained s fun other => if offset = other then value else 0 := by
  have cell := coe_cell holds
  ext1
  case cells =>
    funext index
    by_cases here : index = s.cell offset
    · subst here
      have away : offset = (s.cell offset : Int) - s.pointer := by omega
      simp [put, gained, ← away]
    · have away : ¬ offset = (index : Int) - s.pointer := by omega
      simp [put, gained, here, away]
  all_goals rfl

theorem additions_cons (entry : Int × Int8) (rest : NetDeltas) :
    additions (entry :: rest) = .addAt entry.1 entry.2 :: additions rest := rfl

theorem straight_additions (entries : NetDeltas) :
    (additions entries).all Node.isSingle = true := by
  simp [additions, Node.isSingle]

/-- Additions that all lead to cells of the strip are made at once. -/
theorem perform_additions {entries : NetDeltas} {s : Strip last}
    (holds : ∀ entry ∈ entries, s.Holds entry.1) :
    (interpretation last allowed).perform (additions entries) s =
      .went (gained s (total entries)) := by
  induction entries generalizing s with
  | nil => exact congrArg Fate.went (gained_zero s).symm
  | cons entry rest ih =>
    have here := holds entry List.mem_cons_self
    have later : ∀ other ∈ rest, s.Holds other.1 :=
      fun other among => holds other (List.mem_cons_of_mem entry among)
    rw [additions_cons, Interpretation.perform_cons, interpretation_act, act,
      access_of_holds here, put_eq_gained here, Fate.andThen_went]
    have more := ih (s := gained s fun other =>
      if entry.1 = other then entry.2.toUInt8 else 0) later
    rw [more, gained_gained]
    rfl

/-- Additions that go through all lead to cells of the strip. -/
theorem holds_of_perform_additions {entries : NetDeltas} {s u : Strip last}
    (performed : (interpretation last allowed).perform (additions entries) s = .went u) :
    ∀ entry ∈ entries, s.Holds entry.1 := by
  induction entries generalizing s with
  | nil => exact fun _ among => nomatch among
  | cons entry rest ih =>
    rw [additions_cons, Interpretation.perform_cons, interpretation_act, act] at performed
    by_cases here : s.Holds entry.1
    · rw [access_of_holds here, Fate.andThen_went] at performed
      -- Storing a byte does not change where offsets lead.
      have later : ∀ other ∈ rest, (s.put _ _).Holds other.1 := ih performed
      exact List.forall_mem_cons.2 ⟨here, later⟩
    · rw [access_of_not_holds here] at performed
      cases performed

/-- Additions write nothing. -/
theorem written_of_additions (entries : NetDeltas) (s : Strip last) :
    ((interpretation last allowed).perform (additions entries) s).state.written = s.written := by
  induction entries generalizing s with
  | nil => rfl
  | cons entry rest ih =>
    have first : (act (.addAt entry.1 entry.2) s).state.written = s.written :=
      written_of_silent rfl s
    rw [additions_cons, Interpretation.perform_cons, interpretation_act]
    cases acted : act (.addAt entry.1 entry.2) s with
    | went t =>
      rw [acted] at first
      exact (ih t).trans first
    | ended ending t =>
      rw [acted] at first
      exact first

/-! ## Rounds -/

/-- What a counting loop that goes through has added: as many rounds' worth to every
cell, modulo 256. -/
theorem gained_of_repeats {entries : NetDeltas} {s u : Strip last} {fate : Fate (Strip last)}
    (ran : (interpretation last allowed).Repeats
      ((interpretation last allowed).runs (additions entries)) s fate)
    (went : fate = .went u) :
    ∃ (rounds : UInt8) (polls : Nat), s.polls ≤ polls ∧
      u = (gained s fun offset => rounds * total entries offset).polled polls ∧
      (s.cells s.pointer ≠ 0 → ∀ entry ∈ entries, s.Holds entry.1) ∧
      u.cells u.pointer = 0 := by
  induction ran with
  | @done s zero =>
    cases went
    refine ⟨0, _, Nat.le_refl _, ?_, fun nonzero => absurd zero nonzero, zero⟩
    simp only [UInt8.zero_mul]
    rw [gained_zero]
    rfl
  | cut | failed => cases went
  | @again s t w fate nonzero polled ran _ ih =>
    have state : (poll allowed s).state = _ := state_of_poll s
    rw [← interpretation_poll, polled] at state
    cases state
    rw [Interpretation.runs_straight _ (straight_additions entries)] at ran
    have holds := holds_of_perform_additions ran.symm
    rw [perform_additions holds] at ran
    cases ran
    obtain ⟨rounds, polls, le, rfl, _, zero⟩ := ih went
    refine ⟨1 + rounds, polls, Nat.le_of_succ_le le, ?_, fun _ => holds, zero⟩
    rw [gained_gained]
    simp only [UInt8.add_mul, UInt8.one_mul]
    rfl

/-- A counting loop that reaches zero in some number of rounds has a fate. -/
theorem exists_repeats_of_rounds {entries : NetDeltas} (rounds : Nat) :
    ∀ s : Strip last, s.cells s.pointer + UInt8.ofNat rounds * total entries 0 = 0 →
      ∃ fate, (interpretation last allowed).Repeats
        ((interpretation last allowed).runs (additions entries)) s fate := by
  induction rounds with
  | zero =>
    intro s zero
    have none : s.cells s.pointer + 0 * total entries 0 = 0 := zero
    rw [UInt8.zero_mul, UInt8.add_zero] at none
    exact ⟨.went s, .done none⟩
  | succ rounds ih =>
    intro s reaches
    by_cases zero : s.cells s.pointer = 0
    · exact ⟨.went s, .done zero⟩
    refine Interpretation.exists_repeats_of_nonzero _ zero fun t polled => ?_
    refine ⟨_, (Interpretation.runs_straight _ (straight_additions entries) t _).2 rfl, ?_⟩
    intro u performed
    -- A round goes on from the strip after the poll with everything added once.
    have state : (poll allowed s).state = _ := state_of_poll s
    rw [← interpretation_poll, polled] at state
    cases state
    rw [perform_additions (holds_of_perform_additions performed)] at performed
    cases performed
    apply ih
    show (s.cells s.pointer + total entries ((s.pointer : Int) - s.pointer)) +
      UInt8.ofNat rounds * total entries 0 = 0
    rw [Int.sub_self, ← reaches, UInt8.ofNat_add]
    grind

/-- A counting loop writes nothing. -/
theorem written_of_counting {entries : NetDeltas} {s : Strip last} {fate : Fate (Strip last)}
    (ran : (interpretation last allowed).runs [.loop (additions entries)] s fate) :
    fate.state.written = s.written := by
  rcases (Interpretation.runs_loop ..).1 ran with ⟨_, polled⟩ | ⟨_, repeated⟩
  · rw [polled, interpretation_poll]
    exact written_of_poll s
  · refine repeated.preserves (R := fun s t : Strip last => t.written = s.written) _
      (fun _ => rfl) (fun _ _ _ first second => second.trans first) written_of_poll
      fun s fate round => ?_
    rw [Interpretation.runs_straight _ (straight_additions entries)] at round
    rw [round]
    exact written_of_additions entries s

/-! ## Odd steps -/

/-- Counting in odd steps reaches zero from every value. -/
theorem exists_rounds {step : UInt8} (odd : step.toNat % 2 = 1) (value : UInt8) :
    ∃ rounds : Nat, value + UInt8.ofNat rounds * step = 0 := by
  have coprime : Nat.Coprime step.toNat (2 ^ 8) :=
    Nat.Coprime.pow_right 8 (Nat.coprime_two_right.2 (Nat.odd_iff.2 odd))
  obtain ⟨rounds, _, rest⟩ :=
    Nat.exists_mul_mod_eq_of_coprime (256 - value.toNat) coprime (by decide)
  refine ⟨rounds, UInt8.toNat_inj.1 ?_⟩
  have small := value.toNat_lt
  have product : (UInt8.ofNat rounds * step).toNat = (256 - value.toNat) % 256 := by
    rw [UInt8.toNat_mul, UInt8.toNat_ofNat', Nat.mod_mul_mod, Nat.mul_comm]
    exact rest
  rw [UInt8.toNat_add, product]
  show (value.toNat + (256 - value.toNat) % 256) % 256 = 0
  omega

/-- A byte is odd if the number that it stands for is. -/
theorem toNat_odd {delta : Int8} (odd : delta.toInt % 2 ≠ 0) :
    delta.toUInt8.toNat % 2 = 1 := by
  have value : delta.toInt = _ := BitVec.toInt_eq_toNat_cond delta.toBitVec
  have bits : delta.toBitVec.toNat = delta.toUInt8.toNat := rfl
  rw [bits] at value
  split at value <;> omega

/-- A loop that counts in odd steps is improved by straight code that adds, at once,
what is added by any number of rounds that brings the cell to zero. -/
theorem improves_counting {entries : NetDeltas} {replaced : Block}
    (straight : replaced.all Node.isSingle = true) (odd : (total entries 0).toNat % 2 = 1)
    (same : ∀ (s : Strip last) (rounds : UInt8),
      s.cells s.pointer + rounds * total entries 0 = 0 →
      (s.cells s.pointer ≠ 0 → ∀ entry ∈ entries, s.Holds entry.1) →
        (interpretation last allowed).perform replaced s =
          .went (gained s fun offset => rounds * total entries offset)) :
    Improves last allowed [.loop (additions entries)] replaced where
  functional := Interpretation.runs_functional _ replaced
  stable := fun covered ran => (improvement last allowed).stable_runs replaced covered ran
  went := by
    rintro s t u ⟨polls, le, rfl⟩ ran
    simp only [Interpretation.runs_straight _ straight, perform_polled]
    rcases (Interpretation.runs_loop ..).1 ran with ⟨zero, polled⟩ | ⟨_, repeated⟩
    · -- The loop is not entered: no rounds.
      have none : s.cells s.pointer + 0 * total entries 0 = 0 := by
        rw [UInt8.zero_mul, UInt8.add_zero]
        exact zero
      rw [same s 0 none fun nonzero => absurd zero nonzero]
      simp only [UInt8.zero_mul, gained_zero]
      exact ⟨_, rfl, near_of_poll ⟨polls, le, rfl⟩ polled.symm⟩
    · obtain ⟨rounds, polls', le', rfl, holds, zero⟩ := gained_of_repeats repeated rfl
      have reaches : s.cells s.pointer + rounds * total entries 0 = 0 := by
        rw [← Int.sub_self (s.pointer : Int)]
        exact zero
      rw [same s rounds reaches holds]
      exact ⟨_, rfl, polls, Nat.le_trans le le', rfl⟩
  ended := by
    rintro s t u ending b ⟨polls, le, rfl⟩ ran ran'
    have kept : u.written = s.written := written_of_counting ran
    have grows : (s.polled polls).written <+: b.state.written := written_of_runs ran'
    show u.written <+: b.state.written
    rw [kept]
    exact grows
  back := by
    rintro s t b ⟨polls, le, rfl⟩ _
    simp only [Interpretation.runs_loop]
    by_cases zero : (interpretation last allowed).zero s
    · exact ⟨_, .inl ⟨zero, rfl⟩⟩
    · -- Here it matters that the loop counts in odd steps: it ends from every value.
      obtain ⟨rounds, reaches⟩ := exists_rounds odd (s.cells s.pointer)
      obtain ⟨fate, repeated⟩ := exists_repeats_of_rounds rounds s reaches
      exact ⟨fate, .inr ⟨zero, repeated⟩⟩

/-- A loop that counts its cell in odd steps is improved by an assignment. -/
theorem improves_clear {delta : Int8} (odd : delta.toInt % 2 ≠ 0) :
    Improves last allowed [.loop [.addAt 0 delta]] [.setAt 0 0] := by
  have single : total [((0 : Int), delta)] =
      fun offset => if 0 = offset then delta.toUInt8 else 0 := by
    funext offset
    simp [total]
  show Improves last allowed [.loop (additions [(0, delta)])] _
  refine improves_counting rfl ?_ fun s rounds reaches _ => ?_
  · rw [single]
    exact toNat_odd odd
  · rw [Interpretation.perform_cons, interpretation_act, act, access_of_holds (holds_zero s),
      cell_zero, single]
    rw [single] at reaches
    refine congrArg Fate.went ?_
    ext1
    case cells =>
      funext index
      by_cases here : index = s.pointer
      · subst here
        simpa [put, gained] using reaches.symm
      · have away : ¬ 0 = (index : Int) - s.pointer := by omega
        simp [put, gained, here, away]
    all_goals rfl

end TapeMachine.Optimize
