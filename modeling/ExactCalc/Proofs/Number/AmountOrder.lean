import Mathlib
import ExactCalc.Proofs.Number.Amount

/-!
# The order of amounts

An amount goes by a number that has been rounded to more places already. Both roundings together are one: a part of a
unit of the last place counts as one unit from a bound on that is a little below a tenth, the lower the fewer digits the
first rounding leaves (`Amount.cap_atPlaces`). So amounts of numbers in the same form are in the order of the numbers,
and a decimal, of which one digit is left, may count as one unit more than a rational, of which fourteen are left, but
never as one less (`Exact.amount_le_amount_iff`).
-/

namespace ExactCalc

namespace Amount

variable {x : Rat}

/-- The part of a unit that is missing where a part counts as one, when `digits` digits of it are looked at. -/
def margin (digits : Nat) : Rat := 9 / 10 + 1 / (2 * 10 ^ digits)

def units (places digits : Nat) (x : Rat) : Int :=
  if 0 ≤ x then ⌊x * 10 ^ places + margin digits⌋ else ⌊x * 10 ^ places - margin digits⌋ + 1

theorem floor_rounded (u : Rat) (j : Nat) :
    ⌊(⌊u * 10 ^ (j + 1) + 1 / 2⌋ : Rat) / 10 ^ (j + 1) + 9 / 10⌋ = ⌊u + margin (j + 1)⌋ := by
  have hpow : (0 : Rat) < 10 ^ (j + 1) := by positivity
  refine eq_of_forall_le_iff fun z => ?_
  have hscale : ((z : Rat) - 9 / 10) * 10 ^ (j + 1) = (z * 10 ^ (j + 1) - 9 * 10 ^ j : Int) := by
    push_cast
    ring
  have hmargin : (z : Rat) ≤ u + margin (j + 1) ↔ ((z : Rat) - 9 / 10) * 10 ^ (j + 1) ≤ u * 10 ^ (j + 1) + 1 / 2 := by
    have hhalf : (1 : Rat) / (2 * 10 ^ (j + 1)) * 10 ^ (j + 1) = 1 / 2 := by field_simp
    rw [margin, ← mul_le_mul_iff_left₀ hpow, add_mul, add_mul, hhalf]
    constructor <;> intro h <;> linarith
  rw [Int.le_floor, Int.le_floor, ← sub_le_iff_le_add, le_div_iff₀ hpow, hmargin, hscale, Int.cast_le, Int.le_floor]

theorem ceil_rounded (u : Rat) (j : Nat) :
    ⌈(⌊u * 10 ^ (j + 1) + 1 / 2⌋ : Rat) / 10 ^ (j + 1) - 9 / 10⌉ = ⌊u - margin (j + 1)⌋ + 1 := by
  have hpow : (0 : Rat) < 10 ^ (j + 1) := by positivity
  refine eq_of_forall_lt_iff fun z => ?_
  have hscale : ((z : Rat) + 9 / 10) * 10 ^ (j + 1) = (z * 10 ^ (j + 1) + 9 * 10 ^ j : Int) := by
    push_cast
    ring
  have hmargin : (z : Rat) ≤ u - margin (j + 1) ↔
      ((z : Rat) + 9 / 10) * 10 ^ (j + 1) + 1 ≤ u * 10 ^ (j + 1) + 1 / 2 := by
    have hhalf : (1 : Rat) / (2 * 10 ^ (j + 1)) * 10 ^ (j + 1) = 1 / 2 := by field_simp
    rw [margin, ← mul_le_mul_iff_left₀ hpow, sub_mul, add_mul, add_mul, hhalf]
    constructor <;> intro h <;> linarith
  rw [Int.lt_ceil, Int.lt_add_one_iff, Int.le_floor, lt_sub_iff_add_lt, lt_div_iff₀ hpow, hmargin, hscale, Int.cast_lt,
    ← Int.add_one_le_iff, Int.le_floor]
  push_cast
  rfl

theorem cap_atPlaces (places j : Nat) (x : Rat) :
    cap places (RoundingMode.halfCeil.atPlaces (places + (j + 1)) x) = units places (j + 1) x / 10 ^ places := by
  set n := ⌊x * 10 ^ places * 10 ^ (j + 1) + 1 / 2⌋ with hn
  have hround : RoundingMode.halfCeil.atPlaces (places + (j + 1)) x = n / 10 ^ (j + 1) / 10 ^ places := by
    rw [RoundingMode.atPlaces, pow_add, ← mul_assoc, div_div, mul_comm (10 ^ (j + 1) : Rat)]
    rfl
  have hscaled : ∀ y : Rat, y / 10 ^ places * 10 ^ places = y := by
    intro y
    field_simp
  rw [hround, units]
  split_ifs with hx
  · have hnonneg : 0 ≤ n := Int.floor_nonneg.mpr (by positivity)
    have hcast : (0 : Rat) ≤ n := by exact_mod_cast hnonneg
    rw [cap_of_nonneg (by positivity), hscaled, floor_rounded]
  · have hnonpos : n ≤ 0 := by
      rw [hn, ← Int.lt_add_one_iff, Int.floor_lt]
      push_cast
      have hneg : x * 10 ^ places * 10 ^ (j + 1) < 0 := by
        have h : x < 0 := not_le.mp hx
        exact mul_neg_of_neg_of_pos (mul_neg_of_neg_of_pos h (by positivity)) (by positivity)
      linarith
    have hcast : (0 : Rat) ≤ -n := by
      rw [Left.nonneg_neg_iff]
      exact_mod_cast hnonpos
    have hneg : (n : Rat) / 10 ^ (j + 1) / 10 ^ places = -(-n / 10 ^ (j + 1) / 10 ^ places) := by ring
    have hflip : -(⌊-(n : Rat) / 10 ^ (j + 1) + 9 / 10⌋) = ⌈(n : Rat) / 10 ^ (j + 1) - 9 / 10⌉ := by
      rw [← Int.ceil_neg]
      congr 1
      ring
    rw [hneg, cap_neg, cap_of_nonneg (by positivity), hscaled, ← neg_div, ← Int.cast_neg, hflip, ceil_rounded]

/-! ## Decimals and rationals -/

section
variable {z q : Rat}

theorem margin_one : margin 1 = 19 / 20 := by norm_num [margin]

/-- The decimal counts a part of a unit that the rational, though it is not smaller, does not count. -/
def Exceeds (z q : Rat) : Prop := ∃ k : Nat, k + 1 / 20 ≤ z * 10 ^ 6 ∧ q * 10 ^ 6 < k + 1 / 10 - 1 / (2 * 10 ^ 14)

/-- The decimal below zero counts a part of a unit that the rational, though it is not larger, does not count. -/
def FallsShort (z q : Rat) : Prop :=
  ∃ k : Nat, k + 1 / 20 < -(z * 10 ^ 6) ∧ -(q * 10 ^ 6) ≤ k + 1 / 10 - 1 / (2 * 10 ^ 14)

theorem units_of_exceeds (hle : z ≤ q) (h : Exceeds z q) : units 6 1 z = units 6 14 q + 1 := by
  obtain ⟨k, hz, hq⟩ := h
  have hk : (0 : Rat) ≤ k := Nat.cast_nonneg k
  have hznonneg : 0 ≤ z := by linarith
  have hzunits : ⌊z * 10 ^ 6 + margin 1⌋ = (k : Int) + 1 := by
    rw [margin_one, Int.floor_eq_iff]
    push_cast
    constructor <;> linarith
  have hqunits : ⌊q * 10 ^ 6 + margin 14⌋ = (k : Int) := by
    rw [margin, Int.floor_eq_iff]
    push_cast
    constructor <;> linarith
  rw [units, units, if_pos hznonneg, if_pos (hznonneg.trans hle), hzunits, hqunits]

theorem exceeds_of_units (hle : z ≤ q) (h : units 6 14 q < units 6 1 z) : Exceeds z q := by
  rw [units, units] at h
  split_ifs at h with hq hz hz
  · -- the least integer that only the decimal reaches
    set n := ⌊z * 10 ^ 6 + margin 1⌋ with hn
    have hreach : (n : Rat) ≤ z * 10 ^ 6 + margin 1 := Int.floor_le _
    have hmiss : q * 10 ^ 6 + margin 14 < n := Int.floor_lt.mp h
    rw [margin_one] at hreach
    rw [margin] at hmiss
    have hpos : 0 < n := by
      have hcast : (0 : Rat) < n := by linarith
      exact_mod_cast hcast
    obtain ⟨k, hk⟩ := Int.eq_succ_of_zero_lt hpos
    have hcast : (n : Rat) = k + 1 := by
      rw [hk]
      push_cast
      rfl
    exact ⟨k, by linarith, by linarith⟩
  · have hneg : ⌊z * 10 ^ 6 - margin 1⌋ < 0 := by
      rw [Int.floor_lt, margin_one]
      push_cast
      linarith
    have hnonneg : 0 ≤ ⌊q * 10 ^ 6 + margin 14⌋ := by
      rw [Int.floor_nonneg, margin]
      positivity
    omega
  · exact absurd (hz.trans hle) hq
  · have hfloor : ⌊z * 10 ^ 6 - margin 1⌋ ≤ ⌊q * 10 ^ 6 - margin 14⌋ := by
      refine Int.floor_le_floor ?_
      rw [margin_one, margin]
      linarith
    omega

theorem units_of_fallsShort (hle : q ≤ z) (h : FallsShort z q) : units 6 14 q = units 6 1 z + 1 := by
  obtain ⟨k, hz, hq⟩ := h
  have hk : (0 : Rat) ≤ k := Nat.cast_nonneg k
  have hzneg : z < 0 := by linarith
  have hzunits : ⌊z * 10 ^ 6 - margin 1⌋ = -(k : Int) - 2 := by
    rw [margin_one, Int.floor_eq_iff]
    push_cast
    constructor <;> linarith
  have hqunits : ⌊q * 10 ^ 6 - margin 14⌋ = -(k : Int) - 1 := by
    rw [margin, Int.floor_eq_iff]
    push_cast
    constructor <;> linarith
  rw [units, units, if_neg hzneg.not_ge, if_neg (hle.trans_lt hzneg).not_ge, hzunits, hqunits]
  ring

theorem fallsShort_of_units (hle : q ≤ z) (h : units 6 1 z < units 6 14 q) : FallsShort z q := by
  rw [units, units] at h
  split_ifs at h with hz hq hq
  · have hfloor : ⌊q * 10 ^ 6 + margin 14⌋ ≤ ⌊z * 10 ^ 6 + margin 1⌋ := by
      refine Int.floor_le_floor ?_
      rw [margin_one, margin]
      linarith
    omega
  · have hneg : ⌊q * 10 ^ 6 - margin 14⌋ < 0 := by
      rw [Int.floor_lt, margin]
      push_cast
      linarith
    have hnonneg : 0 ≤ ⌊z * 10 ^ 6 + margin 1⌋ := by
      rw [Int.floor_nonneg, margin_one]
      positivity
    omega
  · exact absurd (hq.trans hle) hz
  · -- the largest integer that only the rational reaches
    set n := ⌊q * 10 ^ 6 - margin 14⌋ with hn
    have hreach : (n : Rat) ≤ q * 10 ^ 6 - margin 14 := Int.floor_le _
    have hmiss : z * 10 ^ 6 - margin 1 < n := Int.floor_lt.mp (by omega)
    rw [margin_one] at hmiss
    rw [margin] at hreach
    have hneg : n < 0 := by
      have hcast : (n : Rat) < 0 := by linarith
      exact_mod_cast hcast
    obtain ⟨k, hk⟩ := Int.eq_negSucc_of_lt_zero hneg
    have hcast : (n : Rat) = -k - 1 := by
      rw [hk, Int.cast_negSucc]
      push_cast
      ring
    exact ⟨k, by linarith, by linarith⟩

end

end Amount

namespace Exact

open Amount

variable {x y : Exact}

/-- The amounts are not in the order of the values. -/
def Inverts : Exact → Exact → Prop
  | decimal z, rational q => Exceeds z.toRat q
  | rational q, decimal z => FallsShort z.toRat q
  | _, _ => False

theorem amount_decimal (d : Decimal) : (decimal d).amount .default = units 6 1 d.toRat / 10 ^ 6 := by
  rw [amount, toRat_working]
  exact cap_atPlaces 6 0 d.toRat

theorem amount_rational (r : Rat) : (rational r).amount .default = units 6 14 r / 10 ^ 6 := by
  rw [amount, toRat_working]
  exact cap_atPlaces 6 13 r

/-- The amounts of values in one form are in the order of the values. -/
theorem amount_mono_of_form (policy : AmountPolicy) (hform : x.roundingPlaces policy = y.roundingPlaces policy)
    (h : x.toRat ≤ y.toRat) : x.amount policy ≤ y.amount policy := by
  rw [amount, amount, toRat_working, toRat_working, hform]
  exact cap_mono _ (policy.mode.atPlaces_mono _ h)

theorem div_le_div_of_units {m n : Int} (h : m ≤ n) : (m : Rat) / 10 ^ 6 ≤ n / 10 ^ 6 := by
  have hcast : (m : Rat) ≤ n := by exact_mod_cast h
  exact div_le_div_of_nonneg_right hcast (by positivity)

/-- The amounts of two values are in the order of the values, or inverted by one unit of the last place. -/
theorem amount_cases (h : x.toRat ≤ y.toRat) :
    (¬ x.Inverts y ∧ x.amount .default ≤ y.amount .default) ∨
      (x.Inverts y ∧ x.amount .default = y.amount .default + 1 / 10 ^ 6) := by
  cases x with
  | decimal z =>
    cases y with
    | decimal d => exact .inl ⟨id, amount_mono_of_form _ rfl h⟩
    | rational q =>
      rw [amount_decimal, amount_rational]
      by_cases hexceeds : Exceeds z.toRat q
      · refine .inr ⟨hexceeds, ?_⟩
        have hunits : units 6 1 z.toRat = units 6 14 q + 1 := units_of_exceeds h hexceeds
        rw [hunits, Int.cast_add, Int.cast_one, add_div]
      · exact .inl ⟨hexceeds, div_le_div_of_units (not_lt.mp (mt (exceeds_of_units h) hexceeds))⟩
  | rational q =>
    cases y with
    | decimal z =>
      rw [amount_decimal, amount_rational]
      by_cases hshort : FallsShort z.toRat q
      · refine .inr ⟨hshort, ?_⟩
        have hunits : units 6 14 q = units 6 1 z.toRat + 1 := units_of_fallsShort h hshort
        rw [hunits, Int.cast_add, Int.cast_one, add_div]
      · exact .inl ⟨hshort, div_le_div_of_units (not_lt.mp (mt (fallsShort_of_units h) hshort))⟩
    | rational r => exact .inl ⟨id, amount_mono_of_form _ rfl h⟩

theorem amount_le_amount_iff (h : x.toRat ≤ y.toRat) : x.amount .default ≤ y.amount .default ↔ ¬ x.Inverts y := by
  rcases amount_cases h with ⟨hnot, hle⟩ | ⟨hinverts, heq⟩
  · exact iff_of_true hle hnot
  · refine iff_of_false ?_ (not_not.mpr hinverts)
    rw [heq, not_le]
    norm_num

theorem amount_eq_of_inverts (h : x.toRat ≤ y.toRat) (hinverts : x.Inverts y) :
    x.amount .default = y.amount .default + 1 / 10 ^ 6 := by
  rcases amount_cases h with ⟨hnot, -⟩ | ⟨-, heq⟩
  · exact absurd hinverts hnot
  · exact heq

end Exact

end ExactCalc
