import Mathlib.Algebra.Group.Nat.Defs
import TapeMachine.Machine.Basic

/-!
# Cells and their addresses

What a tape holds after a cell is stored, and which cell an offset leads to when
sums are rounded: the right one as long as its number has few enough digits, and
none if the sum is below zero, because rounding keeps the sign.
-/

namespace TapeMachine

/-! ## Rounding -/

namespace Precision

/-- Rounding a quotient never goes below its whole part. -/
theorem div_le_nearest (dividend divisor : Nat) :
    dividend / divisor ≤ nearest dividend divisor := by
  simp only [nearest]
  split
  · exact Nat.le_refl _
  · split <;> omega

/-- A number below the first that has too many digits is kept as it is. -/
theorem round_of_lt {count : Nat} {n : Int} (small : n.natAbs < 2 ^ count) :
    (digits count).round n = n := by
  by_cases zero : n = 0
  · subst zero
    simp [round]
  · have nonzero : n.natAbs ≠ 0 := Int.natAbs_ne_zero.2 zero
    exact round_of_small ((Nat.log2_lt nonzero).2 small)

/-- A magnitude that has too many digits is not rounded down to one that could
have been kept. -/
theorem le_roundMagnitude {count magnitude : Nat} (positive : 0 < count)
    (large : 2 ^ count ≤ magnitude) : 2 ^ count ≤ roundMagnitude count magnitude := by
  have nonzero : magnitude ≠ 0 := by
    have := Nat.two_pow_pos count
    omega
  have many : count ≤ magnitude.log2 := (Nat.le_log2 nonzero).2 large
  -- The unit times the largest power of two with `count` digits is the leading
  -- digit of the magnitude.
  have exponent : ((magnitude.log2 : Int) + 1 - count).toNat = magnitude.log2 - (count - 1) := by
    omega
  have leading : 2 ^ (count - 1) * 2 ^ (magnitude.log2 - (count - 1)) = 2 ^ magnitude.log2 := by
    rw [← Nat.pow_add]
    congr 1
    omega
  have quotient : 2 ^ (count - 1) ≤ magnitude / 2 ^ (magnitude.log2 - (count - 1)) := by
    rw [Nat.le_div_iff_mul_le (Nat.two_pow_pos _), leading]
    exact Nat.log2_self_le nonzero
  have rounded := Nat.le_trans quotient (div_le_nearest magnitude _)
  rw [roundMagnitude, if_neg (Nat.not_lt.2 many)]
  simp only [twoTo, exponent]
  show 2 ^ count ≤ nearest magnitude (2 ^ _) * 2 ^ _
  calc 2 ^ count ≤ 2 ^ magnitude.log2 := Nat.pow_le_pow_right (by decide) many
    _ = 2 ^ (count - 1) * 2 ^ (magnitude.log2 - (count - 1)) := leading.symm
    _ ≤ _ := Nat.mul_le_mul_right _ rounded

/-- What is far below zero stays there. -/
theorem round_le_of_le {count : Nat} {n : Int} (positive : 0 < count)
    (low : n ≤ -(2 ^ count : Nat)) : (digits count).round n ≤ -(2 ^ count : Nat) := by
  have power := Nat.two_pow_pos count
  have large : 2 ^ count ≤ n.natAbs := by omega
  have kept := le_roundMagnitude positive large
  have sign : n.sign = -1 := Int.sign_eq_neg_one_of_neg (by omega)
  simp only [round, sign]
  omega

/-- What is below zero stays below. -/
theorem round_neg_of_neg {count : Nat} {n : Int} (positive : 0 < count) (negative : n < 0) :
    (digits count).round n < 0 := by
  have power := Nat.two_pow_pos count
  by_cases small : n.natAbs < 2 ^ count
  · rw [round_of_lt small]
    exact negative
  · have low := round_le_of_le positive (show n ≤ -(2 ^ count : Nat) by omega)
    omega

/-- A quotient without a rest is kept. -/
theorem nearest_mul (quotient : Nat) {divisor : Nat} (positive : 0 < divisor) :
    nearest (quotient * divisor) divisor = quotient := by
  simp only [nearest, Nat.mul_mod_left, Nat.mul_zero, if_pos positive]
  exact Nat.mul_div_cancel quotient positive

/-- A magnitude is kept if it is a multiple of the last digit that can be. -/
theorem roundMagnitude_of_dvd {count magnitude : Nat}
    (divides : 2 ^ (magnitude.log2 + 1 - count) ∣ magnitude) :
    roundMagnitude count magnitude = magnitude := by
  by_cases small : magnitude.log2 < count
  · exact roundMagnitude_of_small small
  have exponent : ((magnitude.log2 : Int) + 1 - count).toNat = magnitude.log2 + 1 - count := by
    omega
  rw [roundMagnitude, if_neg small]
  simp only [twoTo, exponent]
  show nearest magnitude (2 ^ _) * 2 ^ _ = magnitude
  obtain ⟨factor, split⟩ := divides
  have unit : magnitude = factor * 2 ^ (magnitude.log2 + 1 - count) := by
    rw [Nat.mul_comm]
    exact split
  calc nearest magnitude (2 ^ (magnitude.log2 + 1 - count)) * 2 ^ (magnitude.log2 + 1 - count)
      = nearest (factor * 2 ^ (magnitude.log2 + 1 - count)) (2 ^ (magnitude.log2 + 1 - count)) *
          2 ^ (magnitude.log2 + 1 - count) := by rw [← unit]
    _ = factor * 2 ^ (magnitude.log2 + 1 - count) := by
        rw [nearest_mul factor (Nat.two_pow_pos _)]
    _ = magnitude := unit.symm

/-- Digits that can be kept, followed by zeros. -/
theorem roundMagnitude_mul_pow {count factor : Nat} (positive : 0 < count)
    (few : factor ≤ 2 ^ count) (exponent : Nat) :
    roundMagnitude count (factor * 2 ^ exponent) = factor * 2 ^ exponent := by
  apply roundMagnitude_of_dvd
  by_cases all : factor = 2 ^ count
  · -- One digit more than can be kept, but the last of them is zero.
    rw [all, ← Nat.pow_add, Nat.log2_two_pow]
    exact Nat.pow_dvd_pow 2 (by omega)
  by_cases zero : factor = 0
  · rw [zero, Nat.zero_mul]
    exact Nat.dvd_zero _
  have nonzero : factor * 2 ^ exponent ≠ 0 := by
    have := Nat.two_pow_pos exponent
    exact Nat.mul_ne_zero zero (by omega)
  have below : factor * 2 ^ exponent < 2 ^ (count + exponent) := by
    rw [Nat.pow_add]
    exact Nat.mul_lt_mul_of_pos_right (by omega) (Nat.two_pow_pos exponent)
  have digits := (Nat.log2_lt nonzero).2 below
  exact Nat.dvd_trans (Nat.pow_dvd_pow 2 (by omega)) (Nat.dvd_mul_left _ factor)

theorem nearest_le {dividend divisor bound : Nat} (positive : 0 < divisor)
    (below : dividend < bound * divisor) : nearest dividend divisor ≤ bound := by
  have quotient : dividend / divisor < bound := (Nat.div_lt_iff_lt_mul positive).2 below
  have parity := Nat.mod_two_eq_zero_or_one (dividend / divisor)
  simp only [nearest]
  split
  · omega
  · split <;> omega

/-- What is rounded has few enough digits, followed by zeros. -/
theorem exists_roundMagnitude (count magnitude : Nat) :
    ∃ factor ≤ 2 ^ count, ∃ exponent, roundMagnitude count magnitude = factor * 2 ^ exponent := by
  have below : magnitude < 2 ^ (magnitude.log2 + 1) := Nat.lt_log2_self
  by_cases small : magnitude.log2 < count
  · have few : magnitude < 2 ^ count :=
      Nat.lt_of_lt_of_le below (Nat.pow_le_pow_right (by decide) small)
    refine ⟨magnitude, Nat.le_of_lt few, 0, ?_⟩
    rw [roundMagnitude_of_small small, Nat.pow_zero, Nat.mul_one]
  have exponent : ((magnitude.log2 : Int) + 1 - count).toNat = magnitude.log2 + 1 - count := by
    omega
  refine ⟨nearest magnitude (2 ^ (magnitude.log2 + 1 - count)), ?_, magnitude.log2 + 1 - count, ?_⟩
  · apply nearest_le (Nat.two_pow_pos _)
    rw [← Nat.pow_add, Nat.add_sub_cancel' (by omega)]
    exact below
  · rw [roundMagnitude, if_neg small]
    simp only [twoTo, exponent]
    rfl

theorem roundMagnitude_roundMagnitude {count : Nat} (positive : 0 < count) (magnitude : Nat) :
    roundMagnitude count (roundMagnitude count magnitude) = roundMagnitude count magnitude := by
  obtain ⟨factor, few, exponent, rounded⟩ := exists_roundMagnitude count magnitude
  rw [rounded, roundMagnitude_mul_pow positive few]

/-- What is rounded is kept. -/
theorem round_round {count : Nat} (positive : 0 < count) (n : Int) :
    (digits count).round ((digits count).round n) = (digits count).round n := by
  by_cases zero : n = 0
  · rw [zero]
    simp [round]
  have unit : n.sign.natAbs = 1 := Int.natAbs_sign_of_ne_zero zero
  have kept := roundMagnitude_roundMagnitude positive n.natAbs
  simp only [round, Int.natAbs_mul, unit, Nat.one_mul, Int.natAbs_natCast, kept, Int.sign_mul,
    Int.sign_sign, Int.mul_assoc]
  congr 1
  exact Int.sign_mul_natAbs _

/-! ## Counting -/

/-- The first number that has too many digits is kept as well, since its last one is zero. -/
theorem round_of_le {count : Nat} {n : Int} (positive : 0 < count) (small : n.natAbs ≤ 2 ^ count) :
    (digits count).round n = n := by
  have kept := roundMagnitude_mul_pow positive small 0
  rw [Nat.pow_zero, Nat.mul_one] at kept
  rw [round, kept, Int.sign_mul_natAbs]

/-- Counting up to that number leaves none out. -/
theorem countUp_of_le {count start stop : Nat} (positive : 0 < count) (within : stop ≤ 2 ^ count) :
    (digits count).countUp start stop = some (List.range' start (stop - start)) := by
  induction gap : stop - start generalizing start with
  | zero =>
    rw [countUp, if_neg (by omega)]
    rfl
  | succ gap ih =>
    have next : ((digits count).add start 1).toNat = start + 1 := by
      rw [add, round_of_le positive (by omega)]
      rfl
    rw [countUp, if_pos (by omega)]
    simp only [next]
    rw [if_pos (Nat.lt_succ_self start), ih (by omega), Option.map_some, List.range'_succ]

theorem countUp_of_ge {start stop : Nat} (precision : Precision) (empty : stop ≤ start) :
    precision.countUp start stop = some [] := by
  rw [countUp, if_neg (by omega)]

end Precision

/-! ## Addresses -/

namespace Machine

variable {machine : Machine} {count : Nat} {offset : Int}

/-- An offset leads to the right cell if the number of that cell can be kept. -/
theorem address_of_lt (precise : machine.precision = .digits count)
    (low : 0 ≤ machine.pointer + offset) (high : machine.pointer + offset < (2 ^ count : Nat)) :
    machine.address offset = .ok (machine.pointer + offset).toNat := by
  have exactly : machine.precision.add machine.pointer offset = machine.pointer + offset := by
    rw [precise, Precision.add, Precision.round_of_lt (by omega)]
  obtain ⟨cell, same⟩ := Int.eq_ofNat_of_zero_le low
  rw [address, exactly, same]
  rfl

/-- An offset that leads below zero is found out. -/
theorem address_of_neg (precise : machine.precision = .digits count) (positive : 0 < count)
    (negative : machine.pointer + offset < 0) : ∃ cell, machine.address offset = .error cell := by
  have below : machine.precision.add machine.pointer offset < 0 := by
    rw [precise]
    exact Precision.round_neg_of_neg positive negative
  obtain ⟨k, same⟩ := Int.eq_negSucc_of_lt_zero below
  exact ⟨.negSucc k, by rw [address, same]⟩

/-- An offset that is itself a rounded sum leads to the right cell as well. -/
theorem address_round_of_lt (precise : machine.precision = .digits count)
    (pointer : 0 ≤ machine.pointer ∧ machine.pointer < (2 ^ count : Nat))
    (low : 0 ≤ machine.pointer + offset) (high : machine.pointer + offset < (2 ^ count : Nat)) :
    machine.address (machine.precision.round offset) = .ok (machine.pointer + offset).toNat := by
  rw [precise, Precision.round_of_lt (by omega)]
  exact address_of_lt precise low high

/-- An offset that is itself a rounded sum and leads below zero is found out. -/
theorem address_round_of_neg (precise : machine.precision = .digits count) (positive : 0 < count)
    (pointer : 0 ≤ machine.pointer ∧ machine.pointer < (2 ^ count : Nat))
    (negative : machine.pointer + offset < 0) :
    ∃ cell, machine.address (machine.precision.round offset) = .error cell := by
  refine address_of_neg precise positive ?_
  rw [precise]
  by_cases small : offset.natAbs < 2 ^ count
  · rw [Precision.round_of_lt small]
    exact negative
  · have low := Precision.round_le_of_le positive (show offset ≤ -(2 ^ count : Nat) by omega)
    omega

end Machine

/-! ## Cells -/

namespace Tape

/-- Growing a tape does not show. -/
@[simp] theorem get_reserve (tape : Tape) (index other : Nat) :
    (tape.reserve index).get other = tape.get other := by
  rw [reserve]
  split
  · rfl
  · simp only [get, Array.getD_eq_getD_getElem?, Array.getElem?_append, Array.getElem?_replicate]
    by_cases allocated : other < tape.cells.size
    · rw [if_pos allocated]
    · rw [if_neg allocated, Array.getElem?_eq_none (Nat.le_of_not_lt allocated)]
      split <;> rfl

theorem lt_size_reserve (tape : Tape) (index : Nat) : index < (tape.reserve index).cells.size := by
  rw [reserve]
  split
  · assumption
  · have := lt_grownSize tape.cells.size index tape.nonempty
    simp only [Array.size_append, Array.size_replicate]
    omega

/-- After clearing every cell reads zero. -/
theorem get_clear (tape : Tape) (index : Nat) : tape.clear.get index = 0 := by
  simp [clear, get, Array.getD]

theorem get_ofSize (size : Int) (index : Nat) : (ofSize size).get index = 0 := by
  simp [ofSize, get, Array.getD]

/-- A stored byte is found in its cell, and the other cells are as before. -/
theorem get_set (tape : Tape) (index : Nat) (value : UInt8) (other : Nat) :
    (tape.set index value).get other = if other = index then value else tape.get other := by
  rw [← get_reserve tape index other]
  simp only [set, get, Array.getD_eq_getD_getElem?, Array.getElem?_setIfInBounds]
  by_cases same : index = other
  · subst same
    simp [lt_size_reserve tape index]
  · simp [same, Ne.symm same]

theorem store_of_lt {index : Nat} (room : index < limit) (tape : Tape) (value : UInt8) :
    tape.store index value = .ok (tape.set index value) :=
  if_pos room

/-- The cells whose numbers can be counted have the bytes that the tape has there. -/
theorem slice_of_countable (tape : Tape) {start stop : Nat}
    (countable : stop ≤ 2 ^ 53 ∨ stop ≤ start) :
    tape.slice .double start stop = some ((List.range' start (stop - start)).map tape.get) := by
  rcases countable with within | empty
  · rw [slice, Precision.double, Precision.countUp_of_le (by decide) within, Option.map_some]
  · rw [slice, Precision.countUp_of_ge _ empty, Nat.sub_eq_zero_of_le empty]
    rfl

end Tape

/-- The cells around a pointer that is not too far out can be shown. -/
theorem Machine.exists_describe {machine : Machine} (precise : machine.precision = .double)
    (pointer : 0 ≤ machine.pointer ∧ machine.pointer + 9 ≤ (2 ^ 53 : Nat)) :
    ∃ text, machine.describe = some text := by
  have last : Precision.double.add (Precision.double.add machine.pointer 8) 1 =
      machine.pointer + 9 := by
    have eighth : Precision.double.add machine.pointer 8 = machine.pointer + 8 :=
      Precision.round_of_le (by decide) (by omega)
    rw [eighth, Precision.add, Precision.double, Precision.round_of_le (by decide) (by omega)]
    omega
  have shown (start : Nat) : machine.tape.slice .double start (machine.pointer + 9).toNat = _ :=
    machine.tape.slice_of_countable (.inl (by omega))
  rw [describe, precise]
  simp only [last, shown]
  exact ⟨_, rfl⟩

end TapeMachine
