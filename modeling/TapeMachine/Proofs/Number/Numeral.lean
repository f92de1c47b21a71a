import Mathlib.Data.List.DropRight
import Mathlib.Tactic.IntervalCases
import TapeMachine.Number.Decimal
import TapeMachine.Proofs.Number.Rounding

/-!
# Written numbers

A number that is written out can be read back. Of the layout of a decimal all is known from its
characters: the significant digits and the place of the point (`unlayout_layout`). So two decimals
that are written alike are the same number, and the positions that can be kept are all written
differently (`Position.render_inj`).
-/

namespace TapeMachine

namespace Decimal

/-! ## Significant digits -/

/-- Digits of which neither the first nor the last is zero. -/
structure Significant (digits : List Char) : Prop where
  digit : ∀ c ∈ digits, c.isDigit = true
  first : ∃ c rest, digits = c :: rest ∧ c ≠ '0'
  last : ∃ front c, digits = front ++ [c] ∧ c ≠ '0'

theorem significant_append_zeros {digits : List Char} (proper : Significant digits) (count : Nat) :
    significant (digits ++ zeros count) = digits := by
  obtain ⟨front, c, rfl, nonzero⟩ := proper.last
  have all : ∀ c ∈ zeros count, (c == '0') = true := by
    intro c among
    rw [List.eq_of_mem_replicate among, beq_self_eq_true]
  have stays : (c == '0') ≠ true := fun zero => nonzero (eq_of_beq zero)
  have leading : ∀ d ∈ (zeros count).reverse, (d == '0') = true := by
    intro d among
    exact all d (List.mem_reverse.1 among)
  have kept : (front ++ [c]).reverse.dropWhile (· == '0') = (front ++ [c]).reverse := by
    rw [List.reverse_append, List.reverse_singleton, List.singleton_append]
    exact List.dropWhile_cons_of_neg stays
  rw [significant, List.reverse_append, List.dropWhile_append_of_pos leading, kept,
    List.reverse_reverse]

/-- Only zeros are left out. -/
theorem exists_eq_significant_append (digits : List Char) :
    ∃ count, digits = significant digits ++ zeros count := by
  refine ⟨(digits.rtakeWhile (· == '0')).length, ?_⟩
  have zero : digits.rtakeWhile (· == '0') =
      zeros (digits.rtakeWhile (· == '0')).length := by
    refine List.eq_replicate_iff.2 ⟨rfl, ?_⟩
    intro c among
    have same : (c == '0') = true := List.mem_rtakeWhile_imp (p := (· == '0')) among
    exact eq_of_beq same
  rw [← zero]
  exact (List.rdropWhile_append_rtakeWhile ..).symm

/-- The digits of a number start with one that is not zero. -/
theorem exists_toDigits_eq_cons {n : Nat} (nonzero : n ≠ 0) :
    ∃ c rest, Nat.toDigits 10 n = c :: rest ∧ c ≠ '0' := by
  induction n using Nat.strong_induction_on with
  | _ n ih =>
    by_cases small : n < 10
    · refine ⟨n.digitChar, [], Nat.toDigits_of_lt_base small, ?_⟩
      interval_cases n <;> first | exact absurd rfl nonzero | decide
    · obtain ⟨c, rest, digits, first⟩ := ih (n / 10) (by omega) (by omega)
      refine ⟨c, rest ++ [(n % 10).digitChar], ?_, first⟩
      rw [Nat.toDigits_of_base_le (by decide) (Nat.le_of_not_lt small), digits, List.cons_append]

theorem significant_toDigits {n : Nat} (nonzero : n ≠ 0) :
    Significant (significant (Nat.toDigits 10 n)) := by
  obtain ⟨count, split⟩ := exists_eq_significant_append (Nat.toDigits 10 n)
  obtain ⟨c, rest, digits, first⟩ := exists_toDigits_eq_cons nonzero
  have some : significant (Nat.toDigits 10 n) ≠ [] := by
    intro none
    rw [none, digits, List.nil_append] at split
    exact first (List.eq_of_mem_replicate (split ▸ List.mem_cons_self))
  refine ⟨?_, ?_, ?_⟩
  · intro c among
    refine Nat.isDigit_of_mem_toDigits (by decide) (Nat.le_refl 10) (n := n) ?_
    rw [split]
    exact List.mem_append_left _ among
  · obtain ⟨head, tail, shape⟩ := List.exists_cons_of_ne_nil some
    refine ⟨head, tail, shape, ?_⟩
    rw [shape, digits, List.cons_append] at split
    exact (List.cons.inj split).1 ▸ first
  · refine ⟨_, _, (List.dropLast_append_getLast some).symm, ?_⟩
    intro zero
    exact List.rdropWhile_last_not (· == '0') _ some (beq_iff_eq.2 zero)

/-! ## Layouts -/

/-- Reads a layout: the significant digits, and how many of them stand before the point. -/
def unlayout (text : List Char) : List Char × Int :=
  let mantissa := text.takeWhile (· ≠ 'e')
  match text.dropWhile (· ≠ 'e') with
  | _ :: sign :: power =>
    let power : Int := Nat.ofDigitChars 10 power 0
    (mantissa.filter (· ≠ '.'), (if sign = '-' then -power else power) + 1)
  | _ =>
    let whole := text.takeWhile (· ≠ '.')
    match text.dropWhile (· ≠ '.') with
    | [] => (significant text, text.length)
    | _ :: fraction =>
      if whole = ['0'] then
        (fraction.dropWhile (· = '0'), -((fraction.takeWhile (· = '0')).length : Int))
      else (whole ++ fraction, whole.length)

theorem takeWhile_dropWhile_of_not_mem {text : List Char} {c : Char} (absent : c ∉ text) :
    text.takeWhile (· ≠ c) = text ∧ text.dropWhile (· ≠ c) = [] := by
  have all : ∀ d ∈ text, decide (d ≠ c) = true := by
    intro d among
    exact decide_eq_true fun same => absent (same ▸ among)
  exact ⟨List.takeWhile_eq_self_iff.2 all, List.dropWhile_eq_nil_iff.2 all⟩

theorem takeWhile_dropWhile_append_cons {front : List Char} {c : Char} (absent : c ∉ front)
    (back : List Char) : (front ++ c :: back).takeWhile (· ≠ c) = front ∧
      (front ++ c :: back).dropWhile (· ≠ c) = c :: back := by
  have all : ∀ d ∈ front, decide (d ≠ c) = true := by
    intro d among
    exact decide_eq_true fun same => absent (same ▸ among)
  rw [List.takeWhile_append_of_pos all, List.dropWhile_append_of_pos all]
  simp

variable {digits : List Char} {point : Int}

theorem Significant.not_mem (proper : Significant digits) {c : Char} (other : c.isDigit = false) :
    c ∉ digits := by
  intro among
  rw [proper.digit c among] at other
  cases other

theorem not_mem_zeros {count : Nat} {c : Char} (other : c ≠ '0') : c ∉ zeros count :=
  fun among => other (List.eq_of_mem_replicate among)

theorem unlayout_whole (proper : Significant digits) (count : Nat) :
    unlayout (digits ++ zeros count) = (digits, (digits.length + count : Int)) := by
  have absent {c : Char} (other : c.isDigit = false) : c ∉ digits ++ zeros count := by
    rw [List.mem_append, not_or]
    refine ⟨proper.not_mem other, not_mem_zeros ?_⟩
    rintro rfl
    cases other
  simp only [unlayout, takeWhile_dropWhile_of_not_mem (absent (c := 'e') rfl),
    takeWhile_dropWhile_of_not_mem (absent (c := '.') rfl), significant_append_zeros proper]
  rw [List.length_append, zeros, List.length_replicate, Nat.cast_add]

theorem unlayout_pointed (proper : Significant digits) {place : Nat} (some : 0 < place)
    (less : place ≤ digits.length) :
    unlayout (digits.take place ++ '.' :: digits.drop place) = (digits, (place : Int)) := by
  have absent {c : Char} (other : c.isDigit = false) (dot : c ≠ '.') :
      c ∉ digits.take place ++ '.' :: digits.drop place := by
    rw [List.mem_append, List.mem_cons, not_or, not_or]
    exact ⟨fun among => proper.not_mem other (List.mem_of_mem_take among), dot,
      fun among => proper.not_mem other (List.mem_of_mem_drop among)⟩
  have front : '.' ∉ digits.take place :=
    fun among => proper.not_mem rfl (List.mem_of_mem_take among)
  have notZero : digits.take place ≠ ['0'] := by
    obtain ⟨c, rest, rfl, first⟩ := proper.first
    obtain ⟨place, rfl⟩ := Nat.exists_eq_succ_of_ne_zero (Nat.ne_of_gt some)
    rw [List.take_succ_cons]
    intro same
    exact first (List.cons.inj same).1
  simp only [unlayout, takeWhile_dropWhile_of_not_mem (absent (c := 'e') rfl (by decide)),
    takeWhile_dropWhile_append_cons front, if_neg notZero, List.take_append_drop,
    List.length_take, Nat.min_eq_left less]

theorem unlayout_fraction (proper : Significant digits) (count : Nat) :
    unlayout ('0' :: '.' :: zeros count ++ digits) = (digits, -(count : Int)) := by
  have absent : 'e' ∉ '0' :: '.' :: zeros count ++ digits := by
    simp only [List.cons_append, List.mem_cons, List.mem_append, not_or]
    exact ⟨by decide, by decide, not_mem_zeros (by decide), proper.not_mem rfl⟩
  have whole := takeWhile_dropWhile_append_cons (by decide : '.' ∉ ['0']) (zeros count ++ digits)
  have zero : ∀ c ∈ zeros count, decide (c = '0') = true := by
    intro c among
    exact decide_eq_true (List.eq_of_mem_replicate among)
  obtain ⟨c, rest, shape, first⟩ := proper.first
  have stop : digits.takeWhile (· = '0') = [] ∧ digits.dropWhile (· = '0') = digits := by
    rw [shape]
    simp [first]
  have split : '0' :: '.' :: zeros count ++ digits = ['0'] ++ '.' :: (zeros count ++ digits) := rfl
  rw [split] at absent ⊢
  simp only [unlayout, takeWhile_dropWhile_of_not_mem absent, whole, if_true,
    List.takeWhile_append_of_pos zero, List.dropWhile_append_of_pos zero, stop,
    List.append_nil]
  rw [zeros, List.length_replicate]

theorem unlayout_power {mantissa : List Char}
    (written : mantissa.filter (· ≠ '.') = digits) (plain : 'e' ∉ mantissa) (power : Int) :
    unlayout (mantissa ++ 'e' :: (if power < 0 then '-' else '+') ::
      (toString power.natAbs).toList) = (digits, power + 1) := by
  have value : Nat.ofDigitChars 10 (toString power.natAbs).toList 0 = power.natAbs := by
    rw [Nat.toString_eq_repr, Nat.toList_repr, Nat.ofDigitChars_ten_toDigits]
  simp only [unlayout, takeWhile_dropWhile_append_cons plain, written, value]
  by_cases negative : power < 0
  · simp only [negative, if_true]
    congr 2
    omega
  · have other : '+' ≠ '-' := by decide
    simp only [negative, if_false, other]
    congr 2
    omega

theorem filter_mantissa (proper : Significant digits) :
    (mantissa digits).filter (· ≠ '.') = digits := by
  have dotless : digits.filter (· ≠ '.') = digits := by
    refine List.filter_eq_self.2 fun c among => ?_
    exact decide_eq_true fun same => proper.not_mem (c := '.') rfl (same ▸ among)
  match digits, dotless with
  | [], _ | [_], _ => assumption
  | first :: second :: rest, dotless => simpa [mantissa, List.filter_cons] using dotless

theorem not_mem_mantissa (proper : Significant digits) : 'e' ∉ mantissa digits := by
  have plain : 'e' ∉ digits := proper.not_mem rfl
  match digits, plain with
  | [], plain | [_], plain => exact plain
  | first :: second :: rest, plain => simpa [mantissa] using plain

/-- The four ways to lay out a number. -/
theorem layout_cases (digits : List Char) (point : Int) :
    (∃ count : Nat, point = digits.length + count ∧ layout digits point = digits ++ zeros count) ∨
    (∃ place : Nat, point = place ∧ 0 < place ∧ place ≤ digits.length ∧
      layout digits point = digits.take place ++ '.' :: digits.drop place) ∨
    (∃ count : Nat, point = -count ∧ layout digits point = '0' :: '.' :: zeros count ++ digits) ∨
    layout digits point = mantissa digits ++ 'e' :: (if point - 1 < 0 then '-' else '+') ::
      (toString (point - 1).natAbs).toList := by
  by_cases whole : (digits.length : Int) ≤ point ∧ point ≤ 21
  · exact .inl ⟨(point - digits.length).toNat, by omega, if_pos whole⟩
  by_cases pointed : 0 < point ∧ point ≤ 21
  · refine .inr (.inl ⟨point.toNat, by omega, by omega, by omega, ?_⟩)
    exact (if_neg whole).trans (if_pos pointed)
  by_cases fraction : -6 < point ∧ point ≤ 0
  · refine .inr (.inr (.inl ⟨(-point).toNat, by omega, ?_⟩))
    exact (if_neg whole).trans ((if_neg pointed).trans (if_pos fraction))
  · refine .inr (.inr (.inr ?_))
    exact (if_neg whole).trans ((if_neg pointed).trans (if_neg fraction))

/-- A layout can be read back. -/
theorem unlayout_layout (proper : Significant digits) (point : Int) :
    unlayout (layout digits point) = (digits, point) := by
  obtain ⟨count, rfl, written⟩ | ⟨place, rfl, some, less, written⟩ | ⟨count, rfl, written⟩ |
    written := layout_cases digits point
  · rw [written, unlayout_whole proper]
  · rw [written, unlayout_pointed proper some less]
  · rw [written, unlayout_fraction proper]
  · rw [written, unlayout_power (filter_mantissa proper) (not_mem_mantissa proper),
      Int.sub_add_cancel]

/-- Whether a character may stand in the text of a number. -/
def isNumeral (c : Char) : Bool :=
  c.isDigit || ".e+-".toList.contains c

theorem isNumeral_of_isDigit {c : Char} (digit : c.isDigit = true) : isNumeral c = true := by
  rw [isNumeral, digit, Bool.true_or]

theorem isNumeral_zeros {count : Nat} {c : Char} (among : c ∈ zeros count) :
    isNumeral c = true := by
  rw [List.eq_of_mem_replicate among]
  decide

theorem isNumeral_mantissa (proper : Significant digits) {c : Char} (among : c ∈ mantissa digits) :
    isNumeral c = true := by
  by_cases dot : c = '.'
  · rw [dot]
    decide
  · have kept : c ∈ (mantissa digits).filter (· ≠ '.') :=
      List.mem_filter.2 ⟨among, decide_eq_true dot⟩
    rw [filter_mantissa proper] at kept
    exact isNumeral_of_isDigit (proper.digit c kept)

/-- In a layout there are digits, a point, and a signed power of ten. -/
theorem isNumeral_layout (proper : Significant digits) (point : Int) {c : Char}
    (among : c ∈ layout digits point) : isNumeral c = true := by
  have digit {d : Char} (within : d ∈ digits) : isNumeral d = true :=
    isNumeral_of_isDigit (proper.digit d within)
  have power {d : Char} (within : d ∈ (toString (point - 1).natAbs).toList) :
      isNumeral d = true := by
    rw [Nat.toString_eq_repr, Nat.toList_repr] at within
    exact isNumeral_of_isDigit (Nat.isDigit_of_mem_toDigits (by decide) (Nat.le_refl 10) within)
  obtain ⟨count, -, written⟩ | ⟨place, -, -, -, written⟩ | ⟨count, -, written⟩ | written :=
    layout_cases digits point
  · rw [written, List.mem_append] at among
    exact among.elim digit isNumeral_zeros
  · rw [written, List.mem_append, List.mem_cons] at among
    rcases among with within | rfl | within
    · exact digit (List.mem_of_mem_take within)
    · decide
    · exact digit (List.mem_of_mem_drop within)
  · rw [written, List.mem_append, List.mem_cons, List.mem_cons] at among
    rcases among with (rfl | rfl | within) | within
    · decide
    · decide
    · exact isNumeral_zeros within
    · exact digit within
  · rw [written, List.mem_append, List.mem_cons, List.mem_cons] at among
    rcases among with within | rfl | rfl | within
    · exact isNumeral_mantissa proper within
    · decide
    · split <;> decide
    · exact power within

/-- A layout begins with a digit. -/
theorem exists_layout_eq_cons (proper : Significant digits) (point : Int) :
    ∃ c rest, layout digits point = c :: rest ∧ c.isDigit = true := by
  obtain ⟨c, rest, rfl, -⟩ := proper.first
  have digit : c.isDigit = true := proper.digit c List.mem_cons_self
  obtain ⟨count, -, written⟩ | ⟨place, -, some, -, written⟩ | ⟨count, -, written⟩ | written :=
    layout_cases (c :: rest) point
  · exact ⟨c, _, written, digit⟩
  · obtain ⟨place, rfl⟩ := Nat.exists_eq_succ_of_ne_zero some.ne'
    exact ⟨c, _, written, digit⟩
  · exact ⟨'0', _, written, by decide⟩
  · cases rest with
    | nil => exact ⟨c, _, written, digit⟩
    | cons second rest => exact ⟨c, _, written, digit⟩

/-! ## Decimals -/

theorem toList_render (d : Decimal) : d.render.toList =
    layout (significant (Nat.toDigits 10 d.digits))
      ((Nat.toDigits 10 d.digits).length + d.exponent) := by
  rw [render, String.toList_ofList, Nat.toString_eq_repr, Nat.toList_repr]

theorem tenTo_pos (exponent : Int) : 0 < tenTo exponent :=
  Nat.pow_pos (by decide)

/-- Zeros behind the digits are a power of ten. -/
theorem read_zeros (value count : Nat) (exponent : Int) :
    (⟨10 ^ count * value, exponent⟩ : Decimal).read =
      (⟨value, count + exponent⟩ : Decimal).read := by
  refine Binary.ofRatio_congr (tenTo_pos _) (tenTo_pos _) ?_
  have powers : 10 ^ count * tenTo exponent * tenTo (-(count + exponent)) =
      tenTo (count + exponent) * tenTo (-exponent) := by
    simp only [tenTo, Nat.pow_eq, ← Nat.pow_add]
    congr 1
    omega
  calc 10 ^ count * value * tenTo exponent * tenTo (-(count + exponent))
      = value * (10 ^ count * tenTo exponent * tenTo (-(count + exponent))) := by ring
    _ = value * tenTo (count + exponent) * tenTo (-exponent) := by rw [powers, Nat.mul_assoc]

/-- The value of a decimal is known from its significant digits and its point. -/
theorem read_eq_significant (d : Decimal) :
    d.read = (⟨Nat.ofDigitChars 10 (significant (Nat.toDigits 10 d.digits)) 0,
      (Nat.toDigits 10 d.digits).length + d.exponent -
        (significant (Nat.toDigits 10 d.digits)).length⟩ : Decimal).read := by
  obtain ⟨count, split⟩ := exists_eq_significant_append (Nat.toDigits 10 d.digits)
  have value : d.digits =
      10 ^ count * Nat.ofDigitChars 10 (significant (Nat.toDigits 10 d.digits)) 0 := by
    rw [← Nat.ofDigitChars_replicate_zero, ← Nat.ofDigitChars_append]
    exact (split ▸ Nat.ofDigitChars_ten_toDigits).symm
  have length := congrArg List.length split
  rw [List.length_append, zeros, List.length_replicate] at length
  have point : ((Nat.toDigits 10 d.digits).length : Int) + d.exponent -
      (significant (Nat.toDigits 10 d.digits)).length = count + d.exponent := by
    omega
  rw [point, ← read_zeros, ← value]

/-- Decimals that are written alike are the same number. -/
theorem read_eq_of_render_eq {d e : Decimal} (nonzero : d.digits ≠ 0) (nonzero' : e.digits ≠ 0)
    (same : d.render = e.render) : d.read = e.read := by
  have texts := congrArg String.toList same
  rw [toList_render, toList_render] at texts
  have parts := congrArg unlayout texts
  rw [unlayout_layout (significant_toDigits nonzero),
    unlayout_layout (significant_toDigits nonzero')] at parts
  obtain ⟨digits, point⟩ := Prod.mk.inj parts
  rw [read_eq_significant d, read_eq_significant e, digits, point]

/-- A number that can be kept reads back from the shortest decimal. -/
theorem same_read_shortest {n : Nat} (kept : Precision.roundMagnitude 53 n = n) :
    (shortest n 0).read.same ⟨n, 0⟩ = true := by
  simp only [shortest]
  generalize searched : List.findSome? _ _ = found
  cases found with
  | some d =>
    obtain ⟨places, -, found⟩ := List.exists_of_findSome?_eq_some searched
    exact List.find?_some (p := fun e : Decimal => e.read.same ⟨n, 0⟩) found
  | none =>
    have whole : (⟨n * Nat.pow 5 0, -(0 : Nat)⟩ : Decimal).read = Binary.ofRatio n 1 := by
      simp [read, tenTo]
    rw [Option.getD_none, whole]
    exact Binary.same_ofRatio_one kept

theorem toList_render_whole (n : Nat) : (⟨n, 0⟩ : Decimal).render.toList =
    layout (significant (Nat.toDigits 10 n)) (Nat.toDigits 10 n).length := by
  rw [toList_render, Int.add_zero]

/-- A whole number of at most 21 digits is written as it is. -/
theorem render_whole {n : Nat} (few : n < 10 ^ 21) :
    (⟨n, 0⟩ : Decimal).render = toString n := by
  have short : (Nat.toDigits 10 n).length ≤ 21 :=
    (Nat.length_toDigits_le_iff (by decide) (by decide)).2 few
  obtain ⟨count, split⟩ := exists_eq_significant_append (Nat.toDigits 10 n)
  have length := congrArg List.length split
  rw [List.length_append, zeros, List.length_replicate] at length
  apply String.toList_injective
  rw [toList_render_whole, layout, if_pos (by omega), Nat.toString_eq_repr, Nat.toList_repr]
  conv_rhs => rw [split]
  rw [List.append_cancel_left_eq]
  congr 1
  omega

end Decimal

/-! ## Positions -/

namespace Position

/-- What stands in front of the digits of a position. -/
def sign (p : Int) : String :=
  if p < 0 then "-" else ""

theorem toString_eq (p : Int) : toString p = sign p ++ toString p.natAbs := by
  match p with
  | .ofNat n => exact (String.empty_append ..).symm
  | .negSucc n => rw [sign, if_pos (Int.negSucc_lt_zero n), Int.natAbs_negSucc]; rfl

theorem round_round (p : Int) :
    Precision.double.round (Precision.double.round p) = Precision.double.round p :=
  Precision.round_round (by decide) p

/-- The text of a position other than zero is a decimal that reads back as it, behind a sign. -/
theorem exists_render_eq {p : Int} (kept : Precision.double.round p = p) (nonzero : p ≠ 0) :
    ∃ d : Decimal, d.digits ≠ 0 ∧ d.read.same ⟨p.natAbs, 0⟩ = true ∧
      render p = sign p ++ d.render := by
  have magnitude : Precision.roundMagnitude 53 p.natAbs = p.natAbs := by
    rw [← Precision.natAbs_round nonzero, ← Precision.double, kept]
  have positive : p.natAbs ≠ 0 := Int.natAbs_ne_zero.2 nonzero
  by_cases few : p.natAbs.log2 < 53
  · refine ⟨⟨p.natAbs, 0⟩, positive, ?_, ?_⟩
    · have whole : (⟨p.natAbs, 0⟩ : Decimal).read = Binary.ofRatio p.natAbs 1 := by
        simp [Decimal.read, Decimal.tenTo]
      rw [whole]
      exact Binary.same_ofRatio_one magnitude
    · have small : p.natAbs < 10 ^ 21 :=
        Nat.lt_trans ((Nat.log2_lt positive).1 few) (by decide)
      rw [render, if_pos few, Decimal.render_whole small, toString_eq]
  · have back := Decimal.same_read_shortest magnitude
    refine ⟨Decimal.shortest p.natAbs 0, ?_, back, ?_⟩
    · intro zero
      have none : (Decimal.shortest p.natAbs 0).read = ⟨0, 0⟩ := by
        rw [Decimal.read, zero, Nat.zero_mul, Binary.ofRatio, if_pos rfl]
      rw [none, Binary.same, beq_iff_eq, Int.zero_mul] at back
      exact positive (by simpa [twoTo] using back.symm)
    · have written : (Binary.ofInt p).render = sign p ++
          (Decimal.shortest p.natAbs 0).render := by
        rw [Binary.render, Binary.ofInt, kept, if_neg nonzero, sign]
        split
        · rfl
        · exact (String.empty_append ..).symm
      rw [render, if_neg few, written]

theorem render_zero : render 0 = "0" := by decide

/-- A position is written as it is kept. -/
theorem render_round (p : Int) : render (Precision.double.round p) = render p := by
  by_cases few : p.natAbs.log2 < 53
  · rw [Precision.double, Precision.round_of_small few]
  have large : 2 ^ 53 ≤ p.natAbs := by
    refine (Nat.le_log2 ?_).1 (Nat.le_of_not_lt few)
    intro zero
    rw [zero] at few
    exact few (by decide)
  have stays : 2 ^ 53 ≤ (Precision.double.round p).natAbs := by
    rw [Precision.double, Precision.natAbs_round (by omega)]
    exact Precision.le_roundMagnitude (by decide) large
  have many : ¬(Precision.double.round p).natAbs.log2 < 53 :=
    Nat.not_lt.2 ((Nat.le_log2 (by omega)).2 stays)
  rw [render, render, if_neg few, if_neg many, Binary.ofInt, Binary.ofInt, round_round]

/-- The text of a position has no characters but those of a number. -/
theorem isNumeral_render {p : Int} {c : Char} (among : c ∈ (render p).toList) :
    Decimal.isNumeral c = true := by
  rw [← render_round] at among
  by_cases zero : Precision.double.round p = 0
  · rw [zero, render_zero] at among
    rw [List.mem_singleton.1 among]
    decide
  · obtain ⟨d, nonzero, -, written⟩ := exists_render_eq (round_round p) zero
    rw [written, String.toList_append, List.mem_append, sign] at among
    rcases among with minus | within
    · split at minus
      · rw [List.mem_singleton.1 minus]
        decide
      · cases minus
    · rw [Decimal.toList_render] at within
      exact Decimal.isNumeral_layout (Decimal.significant_toDigits nonzero) _ within

/-- The text of a decimal begins with a digit. -/
theorem exists_toList_render_eq_cons {d : Decimal} (nonzero : d.digits ≠ 0) :
    ∃ c rest, d.render.toList = c :: rest ∧ c.isDigit = true := by
  rw [Decimal.toList_render]
  exact Decimal.exists_layout_eq_cons (Decimal.significant_toDigits nonzero) _

/-- A sign can be told from the text behind it. -/
theorem sign_inj {p q : Int} {d e : Decimal} (nonzero : d.digits ≠ 0) (nonzero' : e.digits ≠ 0)
    (same : sign p ++ d.render = sign q ++ e.render) :
    (p < 0 ↔ q < 0) ∧ d.render = e.render := by
  obtain ⟨c, rest, shape, digit⟩ := exists_toList_render_eq_cons nonzero
  obtain ⟨c', rest', shape', digit'⟩ := exists_toList_render_eq_cons nonzero'
  have texts := congrArg String.toList same
  rw [String.toList_append, String.toList_append, shape, shape'] at texts
  have minus {c : Char} (digit : c.isDigit = true) : c ≠ '-' := by
    rintro rfl
    exact absurd digit (by decide)
  by_cases negative : p < 0 <;> by_cases negative' : q < 0
  all_goals
    simp only [sign, negative, negative', if_true, if_false] at texts
  · refine ⟨by simp only [negative, negative'], String.toList_injective ?_⟩
    rw [shape, shape']
    exact (List.cons.inj texts).2
  · exact absurd (List.cons.inj texts).1.symm (minus digit')
  · exact absurd (List.cons.inj texts).1 (minus digit)
  · refine ⟨by simp only [negative, negative'], String.toList_injective ?_⟩
    rw [shape, shape']
    exact texts

theorem render_ne_zero {p : Int} (kept : Precision.double.round p = p) (nonzero : p ≠ 0) :
    render p ≠ "0" := by
  obtain ⟨d, some, -, written⟩ := exists_render_eq kept nonzero
  rw [written]
  intro same
  have texts := congrArg String.toList same
  have proper := Decimal.significant_toDigits some
  rw [String.toList_append, sign] at texts
  split at texts
  · cases (List.cons.inj texts).1
  · have layout : Decimal.layout _ _ = ['0'] := (Decimal.toList_render d).symm.trans texts
    have parts := Decimal.unlayout_layout proper _ ▸ congrArg Decimal.unlayout layout
    obtain ⟨c, rest, shape, -⟩ := proper.first
    rw [shape] at parts
    exact absurd (Prod.mk.inj parts).1 (List.cons_ne_nil c rest)

/-- Positions that can be kept are written differently. -/
theorem render_inj {p q : Int} (kept : Precision.double.round p = p)
    (kept' : Precision.double.round q = q) (same : render p = render q) : p = q := by
  by_cases zero : p = 0 <;> by_cases zero' : q = 0
  · rw [zero, zero']
  · subst zero
    exact absurd (render_zero ▸ same).symm (render_ne_zero kept' zero')
  · subst zero'
    exact absurd (render_zero ▸ same) (render_ne_zero kept zero)
  obtain ⟨d, nonzero, back, written⟩ := exists_render_eq kept zero
  obtain ⟨e, nonzero', back', written'⟩ := exists_render_eq kept' zero'
  rw [written, written'] at same
  obtain ⟨negative, text⟩ := sign_inj nonzero nonzero' same
  have value := Decimal.read_eq_of_render_eq nonzero nonzero' text
  have magnitude : (p.natAbs : Int) = q.natAbs := by
    rw [Binary.same, beq_iff_eq] at back back'
    rw [value, back'] at back
    exact (mul_right_cancel₀ (Nat.cast_ne_zero.2 (twoTo_pos _).ne') back).symm
  omega

end Position

end TapeMachine
