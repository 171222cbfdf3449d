import Mathlib
import ExactCalc.Decimal.Rounding
import ExactCalc.Proofs.Decimal.Arithmetic

/-!
# Rounding

`RoundingMode.toInt` says to which integer a mode rounds a rational, in the words of floors and ceilings, and
`RoundingMode.atPlaces` does so for multiples of a power of ten. The quotient that is computed from a truncated
quotient and its remainder is that integer (`RoundingMode.quotient_eq`), so a decimal and a rational of one value are
rounded to one decimal. Everything else about rounding is about `toInt`: it is monotone, it keeps the integers, and for
`halfUp` no integer is nearer (`Decimal.rounding_correct`).
-/

namespace ExactCalc

namespace RoundingMode

variable {x y : Rat}

def toInt (mode : RoundingMode) (x : Rat) : Int :=
  match mode with
  | .halfCeil => ⌊x + 1 / 2⌋
  | .halfUp => if 0 ≤ x then ⌊x + 1 / 2⌋ else ⌈x - 1 / 2⌉
  | .down => towardZero x

/-- The multiple of `10 ^ -places` to which a rational is rounded. -/
def atPlaces (mode : RoundingMode) (places : Nat) (r : Rat) : Rat := mode.toInt (r * 10 ^ places) / 10 ^ places

theorem toInt_intCast (mode : RoundingMode) (n : Int) : mode.toInt n = n := by
  have hfloor : ⌊(n : Rat) + 1 / 2⌋ = n := Int.floor_eq_iff.mpr ⟨by linarith, by linarith⟩
  have hceil : ⌈(n : Rat) - 1 / 2⌉ = n := Int.ceil_eq_iff.mpr ⟨by linarith, by linarith⟩
  cases mode with
  | halfCeil => exact hfloor
  | halfUp => rw [toInt, hfloor, hceil, ite_self]
  | down => simp [toInt, towardZero]

theorem toInt_mono (mode : RoundingMode) (h : x ≤ y) : mode.toInt x ≤ mode.toInt y := by
  cases mode with
  | halfCeil => exact Int.floor_le_floor (by linarith)
  | halfUp =>
    simp only [toInt]
    split_ifs with hx hy hy
    · exact Int.floor_le_floor (by linarith)
    · exact absurd (hx.trans h) hy
    · -- zero lies between the two
      have hle : ⌈x - 1 / 2⌉ ≤ 0 := Int.ceil_le.mpr (by push_cast; linarith)
      have hge : 0 ≤ ⌊y + 1 / 2⌋ := Int.floor_nonneg.mpr (by linarith)
      exact hle.trans hge
    · exact Int.ceil_le_ceil (by linarith)
  | down =>
    simp only [toInt, towardZero]
    split_ifs with hx hy hy
    · exact Int.floor_le_floor h
    · exact absurd (hx.trans h) hy
    · have hle : ⌈x⌉ ≤ 0 := Int.ceil_le.mpr (by push_cast; linarith)
      exact hle.trans (Int.floor_nonneg.mpr hy)
    · exact Int.ceil_le_ceil h

/-! ## The quotient that is computed -/

section
variable {q : Int} {f : Rat}

/-- A fraction between zero and one is rounded by its distance from the half; a half goes up, except downwards. -/
theorem toInt_add_of_nonneg (mode : RoundingMode) (h : 0 ≤ (q : Rat) + f) (hf : 0 ≤ f) (hlt : f < 1) :
    mode.toInt (q + f) = if mode = .down ∨ f < 1 / 2 then q else q + 1 := by
  have hfloor : ⌊(q : Rat) + f + 1 / 2⌋ = if f < 1 / 2 then q else q + 1 := by
    split_ifs <;> rw [Int.floor_eq_iff] <;> push_cast <;> constructor <;> linarith
  cases mode with
  | halfCeil => simpa [toInt] using hfloor
  | halfUp => simpa [toInt, h] using hfloor
  | down =>
    simp only [toInt, towardZero, if_pos h, true_or, if_true]
    exact Int.floor_eq_iff.mpr ⟨by linarith, by linarith⟩

theorem toInt_sub_of_neg (mode : RoundingMode) (h : (q : Rat) - f < 0) (hf : 0 ≤ f) (hlt : f < 1) :
    mode.toInt (q - f) = if mode = .down ∨ f < 1 / 2 ∨ mode = .halfCeil ∧ f = 1 / 2 then q else q - 1 := by
  cases mode with
  | halfCeil =>
    simp only [toInt, reduceCtorEq, true_and, false_or]
    split_ifs with hhalf
    · have hle : f ≤ 1 / 2 := hhalf.elim le_of_lt le_of_eq
      exact Int.floor_eq_iff.mpr ⟨by linarith, by linarith⟩
    · have hgt : 1 / 2 < f := by
        rw [not_or, not_lt] at hhalf
        exact lt_of_le_of_ne hhalf.1 (Ne.symm hhalf.2)
      rw [Int.floor_eq_iff]
      push_cast
      constructor <;> linarith
  | halfUp =>
    simp only [toInt, if_neg h.not_ge, reduceCtorEq, false_or, false_and, or_false]
    split_ifs <;> rw [Int.ceil_eq_iff] <;> push_cast <;> constructor <;> linarith
  | down =>
    simp only [toInt, towardZero, if_neg h.not_ge, true_or, if_true]
    exact Int.ceil_eq_iff.mpr ⟨by linarith, by linarith⟩

end

/-- The computed quotient, by the distance of what was cut off from the half. -/
theorem quotient_cases (mode : RoundingMode) (n : Int) {d : Nat} (hd : 0 < d) :
    mode.quotient n d =
      if mode = .down ∨ 2 * (n.tmod d).natAbs < d ∨ (mode = .halfCeil ∧ n < 0 ∧ 2 * (n.tmod d).natAbs = d) then n.tdiv d
      else if n < 0 then n.tdiv d - 1 else n.tdiv d + 1 := by
  unfold quotient
  generalize n.tmod d = r
  generalize n.tdiv d = q
  by_cases hr : r = 0
  · simp [hr, hd]
  · rcases lt_trichotomy (2 * r.natAbs) d with hlt | heq | hgt
    · have hcompare := Nat.compare_eq_lt.mpr hlt
      cases mode <;> simp [hr, hlt, hcompare]
    · cases mode <;> simp [hr, heq]
    · have hcompare := Nat.compare_eq_gt.mpr hgt
      cases mode <;> simp [hr, hgt.not_gt, hgt.ne', hcompare]

/-- The quotient computed with a truncated quotient and a remainder is the exact one, rounded. -/
theorem quotient_eq (mode : RoundingMode) (n : Int) {d : Nat} (hd : 0 < d) :
    mode.quotient n d = mode.toInt ((n : Rat) / d) := by
  have hpos : (0 : Rat) < d := by exact_mod_cast hd
  have hsplit : (n : Rat) = d * n.tdiv d + n.tmod d := by exact_mod_cast (Int.mul_tdiv_add_tmod n d).symm
  have hlt : (n.tmod d).natAbs < d := by
    have h := Int.natAbs_tmod n d
    rw [h, Int.natAbs_natCast]
    exact Nat.mod_lt _ hd
  set q := n.tdiv d with hq
  set r := n.tmod d with hr
  set f : Rat := (r.natAbs : Rat) / d with hf
  have hfnonneg : 0 ≤ f := by positivity
  have hflt : f < 1 := (div_lt_one hpos).mpr (by exact_mod_cast hlt)
  have hhalf : 2 * r.natAbs < d ↔ f < 1 / 2 := by
    rw [hf, div_lt_iff₀ hpos, ← Nat.cast_lt (α := Rat)]
    push_cast
    constructor <;> intro h <;> linarith
  have htie : 2 * r.natAbs = d ↔ f = 1 / 2 := by
    rw [hf, div_eq_iff hpos.ne', ← Nat.cast_inj (R := Rat)]
    push_cast
    constructor <;> intro h <;> linarith
  rw [quotient_cases mode n hd, ← hq, ← hr]
  simp only [hhalf, htie]
  rcases lt_or_ge n 0 with hneg | hnonneg
  · have habs : (r.natAbs : Rat) = -r := by
      have hsign : 0 ≤ (-n).tmod d := Int.tmod_nonneg _ (by omega)
      rw [Int.neg_tmod, ← hr, Left.nonneg_neg_iff] at hsign
      rw [Nat.cast_natAbs, abs_of_nonpos hsign]
      push_cast
      rfl
    have hvalue : (n : Rat) / d = q - f := by
      rw [hf, habs, hsplit]
      field_simp
      ring
    have hsum : (q : Rat) - f < 0 := by
      rw [← hvalue]
      exact div_neg_of_neg_of_pos (by exact_mod_cast hneg) hpos
    rw [hvalue, toInt_sub_of_neg mode hsum hfnonneg hflt]
    simp only [hneg, if_true, true_and]
  · have habs : (r.natAbs : Rat) = r := by
      have hsign : 0 ≤ r := Int.tmod_nonneg _ hnonneg
      rw [Nat.cast_natAbs, abs_of_nonneg hsign]
    have hvalue : (n : Rat) / d = q + f := by
      rw [hf, habs, hsplit]
      field_simp
    have hsum : (0 : Rat) ≤ q + f := by
      rw [← hvalue]
      exact div_nonneg (by exact_mod_cast hnonneg) hpos.le
    rw [hvalue, toInt_add_of_nonneg mode hsum hfnonneg hflt]
    simp only [hnonneg.not_gt, if_false, false_and, and_false, or_false]

/-! ## Nearest integers -/

theorem abs_toInt_halfUp_sub_le (x : Rat) : |(toInt .halfUp x : Rat) - x| ≤ 1 / 2 := by
  have hfloor := Int.floor_le (x + 1 / 2)
  have hfloor' := Int.lt_floor_add_one (x + 1 / 2)
  have hceil := Int.le_ceil (x - 1 / 2)
  have hceil' := Int.ceil_lt_add_one (x - 1 / 2)
  rw [toInt, abs_le]
  split_ifs <;> constructor <;> linarith

theorem abs_sub_le_of_abs_sub_le_half {k : Int} (h : |(k : Rat) - x| ≤ 1 / 2) (n : Int) :
    |(k : Rat) - x| ≤ |(n : Rat) - x| := by
  by_cases hn : n = k
  · rw [hn]
  · have hone : (1 : Rat) ≤ |(k : Rat) - n| := by
      have hsub : k - n ≠ 0 := sub_ne_zero.mpr (Ne.symm hn)
      exact_mod_cast Int.one_le_abs hsub
    have htriangle := abs_sub_le (k : Rat) x n
    rw [abs_sub_comm x] at htriangle
    linarith

theorem abs_le_abs_toInt_halfUp {n : Int} (h : |(n : Rat) - x| = |(toInt .halfUp x : Rat) - x|) :
    |(n : Rat)| ≤ |(toInt .halfUp x : Rat)| := by
  set k := toInt .halfUp x with hk
  rcases abs_eq_abs.mp h with heq | hflip
  · rw [sub_left_inj.mp heq]
  · -- the two lie on different sides of `x`, and `k` is not the one nearer to zero
    have hsum : (n : Rat) = 2 * x - k := by linarith
    rw [toInt] at hk
    split_ifs at hk with hx
    · have hlt : x + 1 / 2 < k + 1 := hk ▸ Int.lt_floor_add_one _
      have hle : x ≤ k := by
        by_contra hgt
        have hstep : k + 1 ≤ n := by
          have hcast : (k : Rat) < n := by linarith
          exact_mod_cast hcast
        have hcast : (k : Rat) + 1 ≤ n := by exact_mod_cast hstep
        linarith
      rw [abs_of_nonneg (hx.trans hle), abs_le]
      constructor <;> linarith
    · have hlt : (k : Rat) < x - 1 / 2 + 1 := hk ▸ Int.ceil_lt_add_one _
      have hle : (k : Rat) ≤ x := by
        by_contra hgt
        have hstep : n + 1 ≤ k := by
          have hcast : (n : Rat) < k := by linarith
          exact_mod_cast hcast
        have hcast : (n : Rat) + 1 ≤ k := by exact_mod_cast hstep
        linarith
      rw [abs_of_nonpos (hle.trans (not_le.mp hx).le), abs_le]
      constructor <;> linarith

end RoundingMode

/-! ## Multiples of a power of ten -/

namespace RoundingMode

variable {x y : Rat}

theorem atPlaces_mono (mode : RoundingMode) (places : Nat) : Monotone (mode.atPlaces places) := by
  intro x y h
  have hscaled : x * 10 ^ places ≤ y * 10 ^ places := mul_le_mul_of_nonneg_right h (by positivity)
  have hint : (mode.toInt (x * 10 ^ places) : Rat) ≤ mode.toInt (y * 10 ^ places) := by
    exact_mod_cast mode.toInt_mono hscaled
  exact div_le_div_of_nonneg_right hint (by positivity)

theorem atPlaces_of_mul_pow (mode : RoundingMode) {places : Nat} {n : Int} (h : x * 10 ^ places = n) :
    mode.atPlaces places x = x := by
  rw [atPlaces, h, toInt_intCast, ← h]
  field_simp

theorem atPlaces_atPlaces (mode : RoundingMode) (places : Nat) (r : Rat) :
    mode.atPlaces places (mode.atPlaces places r) = mode.atPlaces places r := by
  refine mode.atPlaces_of_mul_pow (n := mode.toInt (r * 10 ^ places)) ?_
  rw [atPlaces]
  field_simp

end RoundingMode

/-- The multiple of `10 ^ -places` nearest to a rational; of two that are as near, the one farther from zero. -/
structure IsNearestAway (places : Nat) (r x : Rat) : Prop where
  multiple : ∃ n : Int, x = n / 10 ^ places
  nearest : ∀ n : Int, |x - r| ≤ |n / 10 ^ places - r|
  away : ∀ n : Int, |n / 10 ^ places - r| = |x - r| → |(n : Rat) / 10 ^ places| ≤ |x|

theorem isNearestAway_atPlaces (places : Nat) (r : Rat) :
    IsNearestAway places r (RoundingMode.halfUp.atPlaces places r) := by
  have hpos : (0 : Rat) < 10 ^ places := by positivity
  have hdist : ∀ n : Int, |(n : Rat) / 10 ^ places - r| = |n - r * 10 ^ places| / 10 ^ places := by
    intro n
    rw [← abs_of_pos hpos, ← abs_div, abs_of_pos hpos]
    congr 1
    field_simp
  refine ⟨⟨_, rfl⟩, ?_, ?_⟩
  · intro n
    rw [RoundingMode.atPlaces, hdist, hdist]
    refine div_le_div_of_nonneg_right ?_ hpos.le
    exact RoundingMode.abs_sub_le_of_abs_sub_le_half (RoundingMode.abs_toInt_halfUp_sub_le _) n
  · intro n h
    rw [RoundingMode.atPlaces, hdist, hdist, div_left_inj' hpos.ne'] at h
    rw [RoundingMode.atPlaces, abs_div, abs_div]
    exact div_le_div_of_nonneg_right (RoundingMode.abs_le_abs_toInt_halfUp h) (abs_nonneg _)

namespace Decimal

variable {places : Nat}

theorem toRat_ofRat (r : Rat) (mode : RoundingMode) (h : places < scaleLimit) :
    (ofRat r places mode h).toRat = mode.atPlaces places r := by
  have hvalue : ((r.num * (Nat.pow 10 places : Nat) : Int) : Rat) / r.den = r * 10 ^ places := by
    rw [Nat.pow_eq]
    push_cast
    rw [mul_div_right_comm, Rat.num_div_den]
  rw [ofRat, toRat_ofScaled, RoundingMode.quotient_eq mode _ r.den_pos, hvalue, RoundingMode.atPlaces]

theorem toRat_mul_pow (d : Decimal) (h : d.scale ≤ places) : d.toRat * 10 ^ places = d.mantissaAt places :=
  (d.mantissaAt_eq h).symm

theorem toRat_round (d : Decimal) (places : Nat) (mode : RoundingMode) :
    (d.round places mode).toRat = mode.atPlaces places d.toRat := by
  rw [round]
  split_ifs with h
  · exact (mode.atPlaces_of_mul_pow (d.toRat_mul_pow h)).symm
  · have hvalue : (d.mantissa : Rat) / (Nat.pow 10 (d.scale - places) : Nat) = d.toRat * 10 ^ places := by
      obtain ⟨k, hk⟩ := Nat.exists_eq_add_of_le (Nat.le_of_not_le h)
      rw [Nat.pow_eq, toRat_eq, hk, Nat.add_sub_cancel_left, pow_add]
      push_cast
      field_simp
    have hpos : 0 < Nat.pow 10 (d.scale - places) := by
      rw [Nat.pow_eq]
      positivity
    rw [toRat_ofScaled, RoundingMode.quotient_eq mode _ hpos, hvalue, RoundingMode.atPlaces]

theorem round_eq_ofRat (d : Decimal) (mode : RoundingMode) (h : places < scaleLimit) :
    d.round places mode = ofRat d.toRat places mode h := by
  apply toRat_injective
  rw [toRat_round, toRat_ofRat]

/-- A rational is rounded as each mode says, a decimal as the rational of its value, and rounding is monotone and
changes nothing that has been rounded. -/
theorem rounding_correct (places : Nat) (h : places < scaleLimit) :
    (∀ r : Rat, (ofRat r places .halfCeil h).toRat = ⌊r * 10 ^ places + 1 / 2⌋ / 10 ^ places ∧
        IsNearestAway places r (ofRat r places .halfUp h).toRat ∧
        (ofRat r places .down h).toRat = towardZero (r * 10 ^ places) / 10 ^ places) ∧
      ∀ mode : RoundingMode, (∀ d : Decimal, d.round places mode = ofRat d.toRat places mode h) ∧
        (Monotone fun r => (ofRat r places mode h).toRat) ∧
        (∀ d e : Decimal, d.toRat ≤ e.toRat → (d.round places mode).toRat ≤ (e.round places mode).toRat) ∧
        (∀ r, ofRat (ofRat r places mode h).toRat places mode h = ofRat r places mode h) ∧
        ∀ d : Decimal, (d.round places mode).round places mode = d.round places mode := by
  refine ⟨fun r => ⟨toRat_ofRat r .halfCeil h, ?_, toRat_ofRat r .down h⟩, fun mode => ⟨?_, ?_, ?_, ?_, ?_⟩⟩
  · rw [toRat_ofRat]
    exact isNearestAway_atPlaces places r
  · intro d
    exact d.round_eq_ofRat mode h
  · intro r s hle
    simp only [toRat_ofRat]
    exact mode.atPlaces_mono places hle
  · intro d e hle
    rw [toRat_round, toRat_round]
    exact mode.atPlaces_mono places hle
  · intro r
    apply toRat_injective
    rw [toRat_ofRat, toRat_ofRat, mode.atPlaces_atPlaces]
  · intro d
    apply toRat_injective
    rw [toRat_round, toRat_round, mode.atPlaces_atPlaces]

theorem rounding_correct_quarter :
    1 < scaleLimit ∧
      (ofRat (mkRat (-1) 4) 1 .halfCeil (by decide)).toRat = ⌊mkRat (-1) 4 * 10 ^ 1 + 1 / 2⌋ / 10 ^ 1 ∧
      ofRat (mkRat (-1) 4) 1 .halfCeil (by decide) = ofScaled (-2) 1 (by decide) ∧
      IsNearestAway 1 (mkRat (-1) 4) (ofScaled (-3) 1 (by decide)).toRat ∧
      (ofScaled (-25) 2 (by decide)).round 1 .down = ofRat (mkRat (-1) 4) 1 .down (by decide) := by
  have hplaces : 1 < scaleLimit := by decide
  have hup : ofRat (mkRat (-1) 4) 1 .halfUp (by decide) = ofScaled (-3) 1 (by decide) := by decide
  have hvalue : (ofScaled (-25) 2 (by decide)).toRat = mkRat (-1) 4 := by
    rw [toRat_ofScaled, Rat.mkRat_eq_div]
    norm_num
  obtain ⟨hmodes, hall⟩ := rounding_correct 1 hplaces
  obtain ⟨hceil, hnearest, -⟩ := hmodes (mkRat (-1) 4)
  refine ⟨hplaces, hceil, by decide, hup ▸ hnearest, ?_⟩
  rw [(hall .down).1, hvalue]

end Decimal

end ExactCalc
