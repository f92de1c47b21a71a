import Mathlib.Data.Int.Log
import Mathlib.Data.Rat.Floor
import Mathlib.Tactic.Ring
import TapeMachine.Number.Binary
import TapeMachine.Proofs.Machine.Addressing

/-!
# Rounding

Rounding keeps the order of whole numbers (`round_mono`). The number nearest to a ratio depends on
the ratio alone and not on how it is written (`ofRatio_congr`), and a whole number that can be kept
is nearest to itself (`same_ofRatio_one`).
-/

namespace TapeMachine

theorem twoTo_pos (exponent : Int) : 0 < twoTo exponent :=
  Nat.pow_pos Nat.two_pos

theorem twoTo_of_nonpos {exponent : Int} (nonpos : exponent ≤ 0) : twoTo exponent = 1 := by
  rw [twoTo, Int.toNat_of_nonpos nonpos, Nat.pow_eq, Nat.pow_zero]

/-! ## Quotients -/

namespace Precision

theorem nearest_mono {a b divisor : Nat} (positive : 0 < divisor) (le : a ≤ b) :
    nearest a divisor ≤ nearest b divisor := by
  rcases Nat.eq_or_lt_of_le le with rfl | less
  · exact Nat.le_refl _
  by_contra above
  have lower := (nearest_within_half a positive).2
  have upper := (nearest_within_half b positive).1
  have apart : (nearest b divisor + 1) * divisor ≤ nearest a divisor * divisor :=
    Nat.mul_le_mul_right divisor (Nat.lt_of_not_le above)
  rw [Nat.succ_mul] at apart
  omega

/-- The quotient does not change if both numbers are multiplied. -/
theorem nearest_mul_mul {factor : Nat} (positive : 0 < factor) (dividend divisor : Nat) :
    nearest (dividend * factor) (divisor * factor) = nearest dividend divisor := by
  have scaled (a b : Nat) : a * factor < b * factor ↔ a < b := Nat.mul_lt_mul_right positive
  have level (a b : Nat) : a * factor = b * factor ↔ a = b :=
    Nat.mul_left_inj (Nat.ne_of_gt positive)
  simp only [nearest, Nat.mul_div_mul_right _ _ positive, Nat.mul_mod_mul_right, ← Nat.mul_assoc,
    scaled, level]

theorem nearest_congr {a b c d : Nat} (divisor : 0 < b) (divisor' : 0 < d)
    (ratio : a * d = c * b) : nearest a b = nearest c d := by
  rw [← nearest_mul_mul divisor' a b, ratio, Nat.mul_comm b d, nearest_mul_mul divisor]

/-! ## Whole numbers -/

theorem roundMagnitude_of_le {count magnitude : Nat} (many : count ≤ magnitude.log2) :
    roundMagnitude count magnitude =
      nearest magnitude (2 ^ (magnitude.log2 + 1 - count)) * 2 ^ (magnitude.log2 + 1 - count) := by
  have exponent : ((magnitude.log2 : Int) + 1 - count).toNat = magnitude.log2 + 1 - count := by
    omega
  rw [roundMagnitude, if_neg (Nat.not_lt.2 many)]
  simp only [twoTo, exponent]
  rfl

theorem roundMagnitude_mono {count a b : Nat} (positive : 0 < count) (le : a ≤ b) :
    roundMagnitude count a ≤ roundMagnitude count b := by
  by_cases few : a.log2 < count
  · rw [roundMagnitude_of_small few]
    by_cases few' : b.log2 < count
    · rw [roundMagnitude_of_small few']
      exact le
    · have small : a < 2 ^ count :=
        Nat.lt_of_lt_of_le Nat.lt_log2_self (Nat.pow_le_pow_right Nat.two_pos few)
      by_cases zero : b = 0
      · rw [zero] at few'
        exact absurd positive few'
      have large : 2 ^ count ≤ b := (Nat.le_log2 zero).1 (Nat.le_of_not_lt few')
      exact Nat.le_trans (Nat.le_of_lt small) (le_roundMagnitude positive large)
  have many : count ≤ a.log2 := Nat.le_of_not_lt few
  have nonzero : a ≠ 0 := by
    rintro rfl
    exact few positive
  have nonzero' : b ≠ 0 := by omega
  have logs : a.log2 ≤ b.log2 :=
    (Nat.le_log2 nonzero').2 (Nat.le_trans (Nat.log2_self_le nonzero) le)
  rw [roundMagnitude_of_le many, roundMagnitude_of_le (Nat.le_trans many logs)]
  rcases Nat.eq_or_lt_of_le logs with same | longer
  · rw [same]
    exact Nat.mul_le_mul_right _ (nearest_mono (Nat.two_pow_pos _) le)
  -- The power of two between the two magnitudes is kept.
  · have below : nearest a (2 ^ (a.log2 + 1 - count)) ≤ 2 ^ count := by
      apply nearest_le (Nat.two_pow_pos _)
      rw [← Nat.pow_add, Nat.add_sub_cancel' (by omega)]
      exact Nat.lt_log2_self
    have above : 2 ^ (count - 1) ≤ nearest b (2 ^ (b.log2 + 1 - count)) := by
      refine Nat.le_trans ?_ (div_le_nearest b _)
      rw [Nat.le_div_iff_mul_le (Nat.two_pow_pos _), ← Nat.pow_add]
      refine Nat.le_trans (Nat.pow_le_pow_right Nat.two_pos ?_) (Nat.log2_self_le nonzero')
      omega
    calc nearest a (2 ^ (a.log2 + 1 - count)) * 2 ^ (a.log2 + 1 - count)
        ≤ 2 ^ count * 2 ^ (a.log2 + 1 - count) := Nat.mul_le_mul_right _ below
      _ = 2 ^ (count + (a.log2 + 1 - count)) := (Nat.pow_add ..).symm
      _ ≤ 2 ^ (count - 1 + (b.log2 + 1 - count)) := Nat.pow_le_pow_right Nat.two_pos (by omega)
      _ = 2 ^ (count - 1) * 2 ^ (b.log2 + 1 - count) := Nat.pow_add ..
      _ ≤ _ := Nat.mul_le_mul_right _ above

theorem round_natCast (count n : Nat) : (digits count).round n = roundMagnitude count n := by
  obtain _ | n := n
  · simp [round, roundMagnitude, nearest, twoTo_pos]
  · rw [round, Int.sign_natCast_of_ne_zero (Nat.succ_ne_zero n), Int.natAbs_natCast, Int.one_mul]

theorem natAbs_round {count : Nat} {n : Int} (nonzero : n ≠ 0) :
    ((digits count).round n).natAbs = roundMagnitude count n.natAbs := by
  rw [round, Int.natAbs_mul, Int.natAbs_sign_of_ne_zero nonzero, Nat.one_mul, Int.natAbs_natCast]

/-- Rounding keeps the order. -/
theorem round_mono {count : Nat} (positive : 0 < count) {a b : Int} (le : a ≤ b) :
    (digits count).round a ≤ (digits count).round b := by
  have keeps {m n : Nat} (le : m ≤ n) :
      (digits count).round m ≤ (digits count).round n := by
    rw [round_natCast, round_natCast]
    exact Int.ofNat_le.2 (roundMagnitude_mono positive le)
  have sign (n : Nat) : 0 ≤ (digits count).round n := by
    rw [round_natCast]
    exact Int.natCast_nonneg _
  obtain ⟨m, rfl | rfl⟩ := a.eq_nat_or_neg
  · obtain ⟨n, rfl⟩ := Int.eq_ofNat_of_zero_le (Int.le_trans (Int.natCast_nonneg m) le)
    exact keeps (Int.ofNat_le.1 le)
  obtain ⟨n, rfl | rfl⟩ := b.eq_nat_or_neg
  · rw [round_neg]
    exact Int.le_trans (Int.neg_nonpos_of_nonneg (sign m)) (sign n)
  · rw [round_neg, round_neg]
    exact Int.neg_le_neg (keeps (Int.ofNat_le.1 (Int.neg_le_neg_iff.1 le)))

end Precision

/-! ## Ratios -/

/-- The two powers of two of which one is written on each side of a ratio. -/
theorem cast_twoTo (exponent : Int) :
    (twoTo exponent : ℚ) = 2 ^ exponent * twoTo (-exponent) := by
  have power (e : Int) : (twoTo e : ℚ) = 2 ^ (e.toNat : Int) := by
    rw [zpow_natCast]
    exact Nat.cast_pow 2 _
  rw [power, power, ← zpow_add₀ (by norm_num)]
  congr 1
  omega

namespace Binary

theorem le_ratio_iff {numerator denominator : Nat} (positive : 0 < denominator)
    (exponent : Int) : denominator * twoTo exponent ≤ numerator * twoTo (-exponent) ↔
      (2 : ℚ) ^ exponent ≤ numerator / denominator := by
  have scale : (0 : ℚ) < twoTo (-exponent) := Nat.cast_pos.2 (twoTo_pos _)
  rw [le_div_iff₀ (Nat.cast_pos.2 positive), ← mul_le_mul_iff_left₀ scale, ← Nat.cast_le (α := ℚ)]
  push_cast
  rw [cast_twoTo exponent, mul_right_comm, mul_comm (denominator : ℚ)]

/-- The exponent of the leading digit is a logarithm. -/
theorem leading_eq_log {numerator denominator : Nat} (positive : 0 < numerator)
    (positive' : 0 < denominator) :
    leading numerator denominator = Int.log 2 ((numerator : ℚ) / denominator) := by
  have ratio : (0 : ℚ) < numerator / denominator :=
    div_pos (Nat.cast_pos.2 positive) (Nat.cast_pos.2 positive')
  have power (n : Nat) : (0 : ℚ) < 2 ^ n := pow_pos (by norm_num) n
  have bounds (n : Nat) (nonzero : 0 < n) :
      (2 : ℚ) ^ n.log2 ≤ n ∧ (n : ℚ) < 2 ^ (n.log2 + 1) := by
    exact_mod_cast And.intro (Nat.log2_self_le nonzero.ne') Nat.lt_log2_self
  obtain ⟨low, high⟩ := bounds numerator positive
  obtain ⟨low', high'⟩ := bounds denominator positive'
  -- The guess from the lengths of the two numbers is at most one too high.
  have atLeast : (numerator.log2 : Int) - denominator.log2 - 1 ≤
      Int.log 2 ((numerator : ℚ) / denominator) := by
    rw [← Int.zpow_le_iff_le_log (by norm_num) ratio, sub_sub, zpow_sub₀ (by norm_num)]
    exact_mod_cast div_le_div₀ (Nat.cast_nonneg _) low (Nat.cast_pos.2 positive') high'.le
  have atMost : Int.log 2 ((numerator : ℚ) / denominator) <
      (numerator.log2 : Int) - denominator.log2 + 1 := by
    rw [← Int.lt_zpow_iff_log_lt (by norm_num) ratio, sub_add_eq_add_sub,
      zpow_sub₀ (by norm_num)]
    exact_mod_cast div_lt_div₀ high low' (power _).le (power _)
  have guess := Int.zpow_le_iff_le_log (b := 2) (by norm_num) ratio
    (x := (numerator.log2 : Int) - denominator.log2)
  rw [leading]
  simp only [le_ratio_iff positive', Nat.cast_ofNat] at guess ⊢
  split
  · next below => have := guess.1 below; omega
  · next above => have := mt guess.2 above; omega

/-- The number nearest to a ratio does not depend on how the ratio is written. -/
theorem ofRatio_congr {a b c d : Nat} (divisor : 0 < b) (divisor' : 0 < d)
    (ratio : a * d = c * b) : ofRatio a b = ofRatio c d := by
  have zero : a = 0 ↔ c = 0 := by
    constructor
    · rintro rfl
      rw [Nat.zero_mul] at ratio
      exact (Nat.mul_eq_zero.1 ratio.symm).resolve_right divisor.ne'
    · rintro rfl
      rw [Nat.zero_mul] at ratio
      exact (Nat.mul_eq_zero.1 ratio).resolve_right divisor'.ne'
  by_cases none : a = 0
  · rw [ofRatio, ofRatio, if_pos none, if_pos (zero.1 none)]
  have same : (a : ℚ) / b = c / d := by
    rw [div_eq_div_iff (Nat.cast_ne_zero.2 divisor.ne') (Nat.cast_ne_zero.2 divisor'.ne')]
    exact_mod_cast ratio
  have leads : leading a b = leading c d := by
    rw [leading_eq_log (Nat.pos_of_ne_zero none) divisor,
      leading_eq_log (Nat.pos_of_ne_zero (mt zero.2 none)) divisor', same]
  rw [ofRatio, ofRatio, if_neg none, if_neg (mt zero.2 none), leads]
  have digits (scale : Int) : nearest (a * twoTo scale) (b * twoTo (-scale)) =
      nearest (c * twoTo scale) (d * twoTo (-scale)) := by
    refine Precision.nearest_congr (Nat.mul_pos divisor (twoTo_pos _))
      (Nat.mul_pos divisor' (twoTo_pos _)) ?_
    rw [Nat.mul_mul_mul_comm, ratio, Nat.mul_mul_mul_comm]
  simp only [digits]

theorem leading_one {n : Nat} (positive : 0 < n) : leading n 1 = n.log2 := by
  rw [leading_eq_log positive Nat.one_pos, Nat.cast_one, div_one, Int.log_natCast,
    Nat.log2_eq_log_two]

/-- A whole number that can be kept is the one nearest to it. -/
theorem same_ofRatio_one {n : Nat} (kept : Precision.roundMagnitude 53 n = n) :
    (ofRatio n 1).same ⟨n, 0⟩ = true := by
  by_cases zero : n = 0
  · subst zero
    decide
  have scale : min finest (52 - (n.log2 : Int)) = 52 - n.log2 := by
    rw [finest]
    omega
  rw [ofRatio, if_neg zero, leading_one (Nat.pos_of_ne_zero zero)]
  simp only [same, beq_iff_eq]
  by_cases few : n.log2 < 53
  · -- The number is written with a scale, all of which is zeros.
    have whole : twoTo (-(52 - (n.log2 : Int))) = 1 := twoTo_of_nonpos (by omega)
    rw [scale, whole, Nat.mul_one, ← Nat.mul_one (n * twoTo _),
      Precision.nearest_mul _ Nat.one_pos, Int.toNat_of_nonneg (by omega), Nat.cast_zero,
      twoTo_of_nonpos (Int.le_refl 0)]
    push_cast
    ring
  · have many : 53 ≤ n.log2 := Nat.le_of_not_lt few
    have large : twoTo (52 - (n.log2 : Int)) = 1 := twoTo_of_nonpos (by omega)
    have exponent : (-(52 - (n.log2 : Int))).toNat = n.log2 + 1 - 53 := by omega
    have rounded := Precision.roundMagnitude_of_le many
    rw [kept] at rounded
    have written : nearest (n * twoTo (52 - (n.log2 : Int))) (1 * twoTo (-(52 - (n.log2 : Int)))) *
        twoTo (-(52 - (n.log2 : Int))) = n := by
      rw [large, Nat.mul_one, Nat.one_mul, twoTo, exponent]
      exact rounded.symm
    rw [scale, Int.toNat_of_nonpos (by omega)]
    simp only [Nat.cast_zero, twoTo_of_nonpos (Int.le_refl 0), Nat.cast_one, mul_one]
    exact_mod_cast written

end Binary

end TapeMachine
