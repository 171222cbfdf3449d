import Mathlib
import ExactCalc.Proofs.Decimal.Value

/-!
# Exact arithmetic on decimals

The operations that align scales keep the value: `Decimal.aligned_exact`. A remainder has the sign of the dividend
and is smaller than the divisor, which comes from the two facts on truncation in the first section; a shift moves
digits across the point, in one direction only as far as there are scales.
-/

namespace ExactCalc

/-! ## What truncation leaves -/

theorem abs_sub_towardZero_lt (x : Rat) : |x - towardZero x| < 1 := by
  have hfloor := Int.floor_le x
  have hfloor' := Int.lt_floor_add_one x
  have hceil := Int.le_ceil x
  have hceil' := Int.ceil_lt_add_one x
  rw [towardZero, abs_lt]
  split_ifs
  · constructor <;> linarith
  · constructor <;> linarith

theorem sub_towardZero_mul_nonneg (x : Rat) : 0 ≤ (x - towardZero x) * x := by
  rw [towardZero]
  split_ifs with h
  · exact mul_nonneg (sub_nonneg.mpr (Int.floor_le x)) h
  · exact mul_nonneg_of_nonpos_of_nonpos (sub_nonpos.mpr (Int.le_ceil x)) (not_le.mp h).le

namespace Decimal

variable {a b d r : Decimal}

theorem toRat_neg (a : Decimal) : (-a).toRat = -a.toRat := by
  change (neg a).toRat = _
  rw [neg, toRat_ofScaled, toRat_eq]
  push_cast
  rw [neg_div]

/-! ## Remainders -/

/-- The remainder is the divisor times what truncation leaves of the quotient. -/
theorem toRat_rem_eq_mul (h : a.rem? b = some r) :
    b.toRat ≠ 0 ∧ r.toRat = b.toRat * (a.toRat / b.toRat - towardZero (a.toRat / b.toRat)) := by
  have hne : b.toRat ≠ 0 := by
    intro hzero
    rw [(rem?_eq_none_iff a b).mpr hzero] at h
    simp at h
  refine ⟨hne, ?_⟩
  rw [toRat_of_rem?_eq_some h]
  field_simp

theorem abs_toRat_rem_lt (h : a.rem? b = some r) : |r.toRat| < |b.toRat| := by
  obtain ⟨hne, hr⟩ := toRat_rem_eq_mul h
  calc |r.toRat| = |b.toRat| * |a.toRat / b.toRat - towardZero (a.toRat / b.toRat)| := by rw [hr, abs_mul]
    _ < |b.toRat| * 1 := mul_lt_mul_of_pos_left (abs_sub_towardZero_lt _) (abs_pos.mpr hne)
    _ = |b.toRat| := mul_one _

theorem toRat_rem_mul_nonneg (h : a.rem? b = some r) : 0 ≤ r.toRat * a.toRat := by
  obtain ⟨hne, hr⟩ := toRat_rem_eq_mul h
  set x := a.toRat / b.toRat with hx
  have ha : a.toRat = b.toRat * x := by
    rw [hx]
    field_simp
  calc (0 : Rat) ≤ b.toRat ^ 2 * ((x - towardZero x) * x) := mul_nonneg (sq_nonneg _) (sub_towardZero_mul_nonneg x)
    _ = r.toRat * a.toRat := by rw [hr, ha]; ring

theorem sign_toRat_rem (h : a.rem? b = some r) :
    r.toRat = 0 ∨ SignType.sign r.toRat = SignType.sign a.toRat := by
  have hprod := toRat_rem_mul_nonneg h
  have hzero : a.toRat = 0 → r.toRat = 0 := by
    intro ha
    rw [toRat_of_rem?_eq_some h, ha]
    simp [towardZero]
  rcases lt_trichotomy r.toRat 0 with hneg | hr | hpos
  · right
    have ha : a.toRat < 0 := lt_of_le_of_ne (by nlinarith) fun ha => hneg.ne (hzero ha)
    rw [sign_neg hneg, sign_neg ha]
  · exact .inl hr
  · right
    have ha : 0 < a.toRat := lt_of_le_of_ne (by nlinarith) fun ha => hpos.ne' (hzero ha.symm)
    rw [sign_pos hpos, sign_pos ha]

/-! ## Shifts -/

theorem isSome_shift?_iff (a : Decimal) (e : Int) :
    (a.shift? e).isSome = true ↔ e.natAbs < scaleLimit ∧ (0 ≤ e ∨ a.scale + e.natAbs < scaleLimit) := by
  unfold shift?
  split_ifs with hexp hsign hscale
  · simp [hexp]
  · simp [hsign, Nat.lt_of_not_le hexp]
  · simp [hscale, Nat.lt_of_not_le hexp]
  · simp [hsign, hscale]

theorem toRat_of_shift?_eq_some {e : Int} (h : a.shift? e = some d) : d.toRat = a.toRat * 10 ^ e := by
  have hpow : ∀ n : Nat, ((Nat.pow 10 n : Nat) : Rat) = 10 ^ n := by
    intro n
    rw [Nat.pow_eq]
    push_cast
    rfl
  unfold shift? at h
  split_ifs at h with hexp hsign hscale
  · obtain ⟨n, rfl⟩ := Int.eq_ofNat_of_zero_le hsign
    obtain rfl := Option.some.inj h
    rw [toRat_ofScaled, toRat_eq, Int.natAbs_natCast, zpow_natCast, Int.cast_mul, Int.cast_natCast, hpow]
    -- digits move from the fraction to the mantissa, and zeros after them once there is no fraction left
    rcases Nat.le_total a.scale n with hle | hle
    · obtain ⟨k, rfl⟩ := Nat.exists_eq_add_of_le hle
      rw [Nat.add_sub_cancel_left, Nat.sub_eq_zero_of_le hle, pow_add]
      field_simp
    · obtain ⟨k, hk⟩ := Nat.exists_eq_add_of_le hle
      rw [hk, Nat.sub_eq_zero_of_le (Nat.le_add_right n k), Nat.add_sub_cancel_left, pow_add]
      field_simp
  · obtain ⟨n, rfl⟩ := Int.eq_negSucc_of_lt_zero (not_le.mp hsign)
    obtain rfl := Option.some.inj h
    rw [toRat_ofScaled, toRat_eq, Int.natAbs_negSucc, zpow_negSucc, pow_add]
    field_simp

/-! ## The operations together -/

/-- Sums, differences and opposites are those of the values; there is a remainder unless the divisor is zero, and it
is that of the division that truncates; a shift is the product with a power of ten. -/
theorem aligned_exact (a b : Decimal) :
    (a + b).toRat = a.toRat + b.toRat ∧ (a - b).toRat = a.toRat - b.toRat ∧ (-a).toRat = -a.toRat ∧
      (a.rem? b = none ↔ b.toRat = 0) ∧
      (∀ r, a.rem? b = some r → r.toRat = a.toRat - b.toRat * towardZero (a.toRat / b.toRat) ∧
        |r.toRat| < |b.toRat| ∧ (r.toRat = 0 ∨ SignType.sign r.toRat = SignType.sign a.toRat)) ∧
      ∀ e : Int, ((a.shift? e).isSome = true ↔
          e.natAbs < scaleLimit ∧ (0 ≤ e ∨ a.scale + e.natAbs < scaleLimit)) ∧
        ∀ d, a.shift? e = some d → d.toRat = a.toRat * 10 ^ e := by
  refine ⟨toRat_add a b, toRat_sub a b, toRat_neg a, rem?_eq_none_iff a b, ?_, ?_⟩
  · intro r h
    exact ⟨toRat_of_rem?_eq_some h, abs_toRat_rem_lt h, sign_toRat_rem h⟩
  · intro e
    exact ⟨isSome_shift?_iff a e, fun d h => toRat_of_shift?_eq_some h⟩

theorem aligned_exact_remainder :
    (ofScaled (-75) 1 (by decide)).rem? (ofInt 2) = some (ofScaled (-15) 1 (by decide)) ∧
      (ofScaled (-15) 1 (by decide)).toRat = -3 / 2 ∧
      |(ofScaled (-15) 1 (by decide)).toRat| < |(ofInt 2).toRat| ∧
      (ofInt 2).shift? (-1) = some (ofScaled 2 1 (by decide)) ∧
      (ofScaled 2 1 (by decide)).toRat = (ofInt 2).toRat * 10 ^ (-1 : Int) := by
  have hrem : (ofScaled (-75) 1 (by decide)).rem? (ofInt 2) = some (ofScaled (-15) 1 (by decide)) := by decide
  have hshift : (ofInt 2).shift? (-1) = some (ofScaled 2 1 (by decide)) := by decide
  have hvalue : (ofScaled (-15) 1 (by decide)).toRat = -3 / 2 := by
    rw [toRat_ofScaled]
    norm_num
  exact ⟨hrem, hvalue, ((aligned_exact _ _).2.2.2.2.1 _ hrem).2.1, hshift,
    ((aligned_exact (ofInt 2) zero).2.2.2.2.2 (-1)).2 _ hshift⟩

end Decimal

end ExactCalc
