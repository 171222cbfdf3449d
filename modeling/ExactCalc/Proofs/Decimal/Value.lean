import Mathlib
import ExactCalc.Decimal.Basic

/-!
# Values of decimals

The value of a decimal is its mantissa over a power of ten. Normalising keeps the value
(`Decimal.toRat_ofScaled`), so sums, differences, remainders and opposites are exact. So are products, which
there are as long as the sum of the scales is a scale.
-/

namespace ExactCalc

/-! ## Truncation -/

def towardZero (x : Rat) : Int := if 0 ≤ x then ⌊x⌋ else ⌈x⌉

theorem towardZero_neg (x : Rat) : towardZero (-x) = -towardZero x := by
  unfold towardZero
  rcases lt_trichotomy x 0 with h | rfl | h
  · rw [if_pos (by linarith), if_neg (by linarith), Int.floor_neg]
  · simp
  · rw [if_neg (by linarith), if_pos h.le, Int.ceil_neg]

theorem towardZero_natCast_div (a b : Nat) : towardZero ((a : Rat) / b) = ((a / b : Nat) : Int) := by
  have hnonneg : (0 : Rat) ≤ (a : Rat) / b := by positivity
  rw [towardZero, if_pos hnonneg]
  have h := Rat.floor_intCast_div_natCast a b
  push_cast at h ⊢
  exact h

theorem towardZero_div (a b : Int) : towardZero ((a : Rat) / b) = a.tdiv b := by
  have hcast : ∀ n m : Nat, towardZero ((n : Rat) / m) = (n : Int).tdiv m := by
    intro n m
    rw [towardZero_natCast_div]
    rfl
  obtain ⟨n, rfl | rfl⟩ := a.eq_nat_or_neg <;> obtain ⟨m, rfl | rfl⟩ := b.eq_nat_or_neg
  · rw [Int.cast_natCast, Int.cast_natCast, hcast]
  · push_cast
    rw [div_neg, towardZero_neg, hcast, Int.tdiv_neg]
  · push_cast
    rw [neg_div, towardZero_neg, hcast, Int.neg_tdiv]
  · push_cast
    rw [neg_div_neg_eq, hcast, Int.neg_tdiv, Int.tdiv_neg, neg_neg]

namespace Decimal

/-! ## Normalising -/

theorem toRat_eq (d : Decimal) : d.toRat = (d.mantissa : Rat) / 10 ^ d.scale := by
  change mkRat d.mantissa (10 ^ d.scale) = _
  rw [Rat.mkRat_eq_div]
  push_cast
  rfl

theorem strip_value (m : Int) (s : Nat) : ((strip m s).1 : Rat) / 10 ^ (strip m s).2 = (m : Rat) / 10 ^ s := by
  induction s generalizing m with
  | zero => rfl
  | succ s ih =>
    rw [strip]
    split_ifs with hzero hten
    · simp [hzero]
    · obtain ⟨n, rfl⟩ : (10 : Int) ∣ m := Int.dvd_of_emod_eq_zero hten
      rw [Int.mul_ediv_cancel_left n (by decide), ih]
      push_cast
      rw [pow_succ]
      field_simp
    · rfl

theorem toRat_ofScaled (m : Int) (s : Nat) (h : s < scaleLimit) : (ofScaled m s h).toRat = (m : Rat) / 10 ^ s := by
  rw [toRat_eq]
  exact strip_value m s

theorem scale_ofScaled_le (m : Int) (s : Nat) (h : s < scaleLimit) : (ofScaled m s h).scale ≤ s :=
  strip_snd_le m s

theorem toRat_ofInt (n : Int) : (ofInt n).toRat = n := by
  rw [ofInt, toRat_ofScaled]
  simp

theorem normal_unique_of_le {m n : Int} {s t : Nat} (hn : t = 0 ∨ ¬ (10 : Int) ∣ n) (hle : s ≤ t)
    (h : (m : Rat) / 10 ^ s = n / 10 ^ t) : m = n ∧ s = t := by
  obtain ⟨k, rfl⟩ := Nat.exists_eq_add_of_le hle
  have hmantissa : n = m * 10 ^ k := by
    rw [pow_add, div_eq_div_iff (by positivity) (by positivity)] at h
    have hcancel : (10 : Rat) ^ s ≠ 0 := by positivity
    have hrat : (n : Rat) = m * 10 ^ k := by
      apply mul_right_cancel₀ hcancel
      linarith
    exact_mod_cast hrat
  have hzero : k = 0 := by
    -- otherwise the larger mantissa ends with a zero after the point
    by_contra hne
    rcases hn with hscale | hten
    · omega
    · refine hten ?_
      rw [hmantissa]
      exact Dvd.dvd.mul_left (dvd_pow_self 10 hne) _
  subst hzero
  rw [pow_zero, mul_one] at hmantissa
  exact ⟨hmantissa.symm, rfl⟩

theorem normal_unique {m n : Int} {s t : Nat} (hm : s = 0 ∨ ¬ (10 : Int) ∣ m) (hn : t = 0 ∨ ¬ (10 : Int) ∣ n)
    (h : (m : Rat) / 10 ^ s = n / 10 ^ t) : m = n ∧ s = t := by
  rcases Nat.le_total s t with hle | hle
  · exact normal_unique_of_le hn hle h
  · obtain ⟨hmantissa, hscale⟩ := normal_unique_of_le hm hle h.symm
    exact ⟨hmantissa.symm, hscale.symm⟩

theorem toRat_injective : Function.Injective toRat := by
  intro a b h
  rw [toRat_eq, toRat_eq] at h
  obtain ⟨hmantissa, hscale⟩ := normal_unique a.normal b.normal h
  cases a
  cases b
  subst hmantissa
  subst hscale
  rfl

/-! ## Arithmetic -/

theorem mantissaAt_eq (d : Decimal) {s : Nat} (h : d.scale ≤ s) : (d.mantissaAt s : Rat) = d.toRat * 10 ^ s := by
  obtain ⟨k, rfl⟩ := Nat.exists_eq_add_of_le h
  have hpow : Nat.pow 10 (d.scale + k - d.scale) = 10 ^ k := by
    rw [Nat.add_sub_cancel_left]
    rfl
  rw [mantissaAt, hpow, toRat_eq, pow_add]
  push_cast
  field_simp

theorem scale_le_commonScale_left (a b : Decimal) : a.scale ≤ a.commonScale b := Nat.le_max_left _ _

theorem scale_le_commonScale_right (a b : Decimal) : b.scale ≤ a.commonScale b := Nat.le_max_right _ _

theorem compare_eq (a b : Decimal) : a.compare b = cmp a.toRat b.toRat := by
  have hpow : (0 : Rat) < 10 ^ a.commonScale b := by positivity
  have ha := a.mantissaAt_eq (scale_le_commonScale_left a b)
  have hb := b.mantissaAt_eq (scale_le_commonScale_right a b)
  calc a.compare b = cmp (a.mantissaAt (a.commonScale b)) (b.mantissaAt (a.commonScale b)) :=
        (cmp_eq_compare _ _).symm
    _ = cmp (a.mantissaAt (a.commonScale b) : Rat) (b.mantissaAt (a.commonScale b)) :=
        (Int.cast_strictMono.cmp_map_eq _ _).symm
    _ = cmp a.toRat b.toRat := by rw [ha, hb, cmp_mul_pos_right hpow]

theorem toRat_add (a b : Decimal) : (a + b).toRat = a.toRat + b.toRat := by
  change (add a b).toRat = _
  rw [add, toRat_ofScaled]
  push_cast
  rw [a.mantissaAt_eq (scale_le_commonScale_left a b), b.mantissaAt_eq (scale_le_commonScale_right a b)]
  field_simp

theorem toRat_sub (a b : Decimal) : (a - b).toRat = a.toRat - b.toRat := by
  change (sub a b).toRat = _
  rw [sub, toRat_ofScaled]
  push_cast
  rw [a.mantissaAt_eq (scale_le_commonScale_left a b), b.mantissaAt_eq (scale_le_commonScale_right a b)]
  field_simp

theorem isSome_mul?_iff (a b : Decimal) : (a.mul? b).isSome = true ↔ a.scale + b.scale < scaleLimit := by
  unfold mul?
  split_ifs with h <;> simp [h]

theorem toRat_of_mul?_eq_some {a b c : Decimal} (h : a.mul? b = some c) : c.toRat = a.toRat * b.toRat := by
  unfold mul? at h
  split_ifs at h
  obtain rfl := Option.some.inj h
  rw [toRat_ofScaled, toRat_eq, toRat_eq, pow_add]
  push_cast
  field_simp

theorem isZero_iff (d : Decimal) : d.isZero = true ↔ d.toRat = 0 := by
  rw [isZero, beq_iff_eq, toRat_eq, div_eq_zero_iff]
  simp

theorem rem?_eq_none_iff (a b : Decimal) : a.rem? b = none ↔ b.toRat = 0 := by
  rw [← isZero_iff]
  unfold rem?
  split_ifs with h <;> simp [h]

theorem toRat_of_rem?_eq_some {a b r : Decimal} (h : a.rem? b = some r) :
    r.toRat = a.toRat - b.toRat * towardZero (a.toRat / b.toRat) := by
  unfold rem? at h
  split_ifs at h with hzero
  obtain rfl := Option.some.inj h
  have ha := a.mantissaAt_eq (scale_le_commonScale_left a b)
  have hb := b.mantissaAt_eq (scale_le_commonScale_right a b)
  have hquot : a.toRat / b.toRat = (a.mantissaAt (a.commonScale b) : Rat) / b.mantissaAt (a.commonScale b) := by
    rw [ha, hb, mul_div_mul_right]
    positivity
  rw [toRat_ofScaled, hquot, towardZero_div, Int.tmod_def]
  push_cast
  rw [ha, hb]
  field_simp

/-! ## Scales -/

theorem commonScale_le (a b : Decimal) : a.commonScale b ≤ a.scale + b.scale :=
  Nat.max_le.mpr ⟨Nat.le_add_right _ _, Nat.le_add_left _ _⟩

theorem scale_add_le (a b : Decimal) : (a + b).scale ≤ a.scale + b.scale := by
  change (add a b).scale ≤ _
  exact (scale_ofScaled_le _ _ _).trans (commonScale_le a b)

theorem scale_sub_le (a b : Decimal) : (a - b).scale ≤ a.scale + b.scale := by
  change (sub a b).scale ≤ _
  exact (scale_ofScaled_le _ _ _).trans (commonScale_le a b)

theorem scale_le_of_mul?_eq_some {a b c : Decimal} (h : a.mul? b = some c) : c.scale ≤ a.scale + b.scale := by
  unfold mul? at h
  split_ifs at h
  obtain rfl := Option.some.inj h
  exact scale_ofScaled_le _ _ _

theorem scale_le_of_rem?_eq_some {a b r : Decimal} (h : a.rem? b = some r) : r.scale ≤ a.scale + b.scale := by
  unfold rem? at h
  split_ifs at h
  obtain rfl := Option.some.inj h
  exact (scale_ofScaled_le _ _ _).trans (commonScale_le a b)

end Decimal

end ExactCalc
