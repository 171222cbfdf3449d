import Mathlib
import ExactCalc.Proofs.Decimal.Rounding
import ExactCalc.Proofs.Rational.Digits
import ExactCalc.Proofs.Rational.Terminating

/-!
# Finite expansions

That the expansion of a rational ends can be seen from the denominator, from a power of ten that makes an integer of it,
from long division and from a decimal that has its value; `isFiniteDecimal_agrees` says that all four agree.

* `DividesOut` is the loop that divides by a number as often as it goes. It comes to an end on every number but zero,
  with what `stripFactor` answers (`dividesOut_iff`).
* `FitsPlaces r n` says that `n` places after the point are enough for `r`.
* Long division finds the fewest such places if it is given as many digits (`Expansion.within_eq_finite_iff`), and it
  needs no more digits than the denominator to end or to repeat (`Expansion.isExact_within`).
-/

namespace ExactCalc

/-! ## Dividing out a factor -/

/-- The loop that divides `n` by `p` as long as it goes without remainder comes to an end with `m`. -/
inductive DividesOut (p : Nat) : (n m : Nat) → Prop
  | done {n : Nat} : n % p ≠ 0 → DividesOut p n n
  | step {n m : Nat} : n % p = 0 → DividesOut p (n / p) m → DividesOut p n m

/-- Zero can be divided for ever; from any other number the loop comes to what `stripFactor` answers. -/
theorem dividesOut_iff {p n m : Nat} (hp : 1 < p) : DividesOut p n m ↔ 0 < n ∧ stripFactor p n = m := by
  constructor
  · intro h
    induction h with
    | @done n hrem =>
      have hn : 0 < n := by
        rcases Nat.eq_zero_or_pos n with rfl | hn
        · exact absurd (Nat.zero_mod p) hrem
        · exact hn
      exact ⟨hn, by rw [stripFactor, if_neg fun hdvd => hrem hdvd.2.2]⟩
    | @step n m hrem _ ih =>
      obtain ⟨hquotient, heq⟩ := ih
      have hn : 0 < n := hquotient.trans_le (Nat.div_le_self n p)
      exact ⟨hn, by rw [stripFactor, if_pos ⟨hp, hn, hrem⟩, heq]⟩
  · rintro ⟨hn, rfl⟩
    fun_induction stripFactor p n with
    | case1 n hdvd ih =>
      have hle : p ≤ n := Nat.le_of_dvd hn (Nat.dvd_of_mod_eq_zero hdvd.2.2)
      exact .step hdvd.2.2 (ih (Nat.div_pos hle (by omega)))
    | case2 n hdvd => exact .done fun hrem => hdvd ⟨hp, hn, hrem⟩

/-! ## Places that are enough -/

/-- A rational is a multiple of `10 ^ -n`. -/
def FitsPlaces (r : Rat) (n : Nat) : Prop := ∃ m : Int, 10 ^ n * r = m

section
variable {r : Rat} {n : Nat}

theorem fitsPlaces_iff_dvd : FitsPlaces r n ↔ r.den ∣ r.num.natAbs * 10 ^ n := by
  have hden : (r.den : Rat) ≠ 0 := by exact_mod_cast r.den_nz
  have hint : (r.den : Int) ∣ r.num * 10 ^ n ↔ r.den ∣ r.num.natAbs * 10 ^ n := by
    rw [Int.natCast_dvd, Int.natAbs_mul, Int.natAbs_pow]
    rfl
  rw [← hint]
  constructor
  · rintro ⟨m, hm⟩
    refine ⟨m, ?_⟩
    have hscaled : (r.num : Rat) * 10 ^ n = r.den * m := by
      rw [← Rat.mul_den_eq_num r, ← hm]
      ring
    exact_mod_cast hscaled
  · rintro ⟨m, hm⟩
    refine ⟨m, mul_right_cancel₀ hden ?_⟩
    have hscaled : (r.num : Rat) * 10 ^ n = r.den * m := by exact_mod_cast hm
    rw [mul_assoc, Rat.mul_den_eq_num, mul_comm, hscaled, mul_comm]

theorem fitsPlaces_iff_remainderAt :
    FitsPlaces r n ↔ Expansion.remainderAt r.den (r.num.natAbs % r.den) n = 0 := by
  rw [fitsPlaces_iff_dvd, Expansion.remainderAt, Nat.mod_mul_mod, Nat.dvd_iff_mod_eq_zero]

theorem terminates_iff_fitsPlaces : Terminates r ↔ ∃ n, FitsPlaces r n := by
  constructor
  · rintro ⟨i, j, hden⟩
    refine ⟨i + j, fitsPlaces_iff_dvd.mpr (Dvd.dvd.mul_left ?_ _)⟩
    have hpow : 10 ^ (i + j) = 2 ^ i * 5 ^ j * (2 ^ j * 5 ^ i) := by
      rw [show (10 : Nat) = 2 * 5 from rfl, mul_pow, pow_add, pow_add]
      ring
    rw [hpow, ← hden]
    exact Dvd.intro _ rfl
  · rintro ⟨n, m, hm⟩
    have hvalue : r = m / 10 ^ n := by
      rw [← hm]
      field_simp
    exact hvalue ▸ terminates_div_pow m n

theorem Decimal.toRat_ofRat_eq_self_iff (mode : RoundingMode) (h : n < Decimal.scaleLimit) :
    (Decimal.ofRat r n mode h).toRat = r ↔ FitsPlaces r n := by
  rw [Decimal.toRat_ofRat]
  constructor
  · intro heq
    refine ⟨mode.toInt (r * 10 ^ n), ?_⟩
    conv_lhs => rw [← heq, RoundingMode.atPlaces]
    field_simp
  · rintro ⟨m, hm⟩
    exact mode.atPlaces_of_mul_pow (by rw [mul_comm, hm])

end

/-! ## Long division without a limit -/

namespace Expansion

/-- The digits after the point of a rational, of which at most `limit` are computed. -/
def within (limit : Nat) (r : Rat) : Expansion := divide r.den limit (r.num.natAbs % r.den) []

section
variable {den a rem left r : Nat} {trail : List (Nat × Nat)} {ds : List Nat}

theorem remainderAt_eq_zero_of_le {m n : Nat} (hle : m ≤ n) (hzero : remainderAt den a m = 0) :
    remainderAt den a n = 0 := by
  obtain ⟨k, rfl⟩ := Nat.exists_eq_add_of_le hle
  rw [remainderAt_add, hzero, Nat.zero_mul, Nat.zero_mod]

/-- A remainder that comes back does so again and again, so the division never gets rid of it. -/
theorem remainderAt_ne_zero_of_returns {j n : Nat} (hj : j < n) (heq : remainderAt den a j = remainderAt den a n)
    (hne : remainderAt den a n ≠ 0) (m : Nat) : remainderAt den a m ≠ 0 := by
  obtain ⟨p, rfl⟩ := Nat.exists_eq_add_of_lt hj
  have hagain : ∀ k, remainderAt den a (j + k * (p + 1)) = remainderAt den a j := by
    intro k
    induction k with
    | zero => rw [Nat.zero_mul, Nat.add_zero]
    | succ k ih =>
      have hindex : j + (k + 1) * (p + 1) = j + p + 1 + k * (p + 1) := by ring
      rw [hindex, remainderAt_add, ← heq, ← remainderAt_add, ih]
  intro hzero
  have hle : m ≤ j + m * (p + 1) := by nlinarith
  exact hne (heq ▸ hagain m ▸ remainderAt_eq_zero_of_le hle hzero)

/-- There are no more remainders than the denominator, so one of the first is met twice. -/
theorem exists_returns (hden : 0 < den) (a : Nat) :
    ∃ j n, j < n ∧ n ≤ den ∧ remainderAt den a j = remainderAt den a n := by
  have hcard : (Finset.range den).card < (Finset.range (den + 1)).card := by simp
  obtain ⟨i, hi, j, hj, hne, heq⟩ := Finset.exists_ne_map_eq_of_card_lt_of_maps_to hcard
    (f := remainderAt den a) fun k _ => Finset.mem_coe.mpr (Finset.mem_range.mpr (Nat.mod_lt _ hden))
  rw [Finset.mem_range] at hi hj
  rcases Nat.lt_or_gt_of_ne hne with hlt | hgt
  · exact ⟨i, j, hlt, by omega, heq⟩
  · exact ⟨j, i, hgt, by omega, heq.symm⟩

/-- The division comes to an end where the remainder is zero for the first time, if the limit lets it, and nowhere else.
Then it has the digits up to there. -/
theorem divide_eq_finite_iff (hrem : rem < den) (h : Trail den rem trail r)
    (hfirst : ∀ j < trail.length, remainderAt den rem j ≠ 0) :
    divide den left r trail = finite ds ↔
      ∃ n ≤ trail.length + left, IsLeast {n | remainderAt den rem n = 0} n ∧
        ds = (List.range n).map (digitAt den rem) := by
  fun_induction divide den left r trail with
  | case1 left trail =>
    have hleast : IsLeast {n | remainderAt den rem n = 0} trail.length :=
      ⟨(h.eq_remainderAt hrem).symm, fun n hzero => Nat.le_of_not_lt fun hlt => hfirst n hlt hzero⟩
    have hdigits := h.digitsOf_eq hrem
    constructor
    · intro heq
      exact ⟨_, Nat.le_add_right _ _, hleast, (Expansion.finite.inj heq).symm.trans hdigits⟩
    · rintro ⟨n, -, hn, rfl⟩
      rw [hn.unique hleast, ← hdigits]
      rfl
  | case2 left r trail hr hmem =>
    have hreached := h.eq_remainderAt hrem
    obtain ⟨j, hj, heq⟩ := (h.any_iff hrem).mp hmem
    refine iff_of_false (by simp) ?_
    rintro ⟨n, -, hn, -⟩
    exact remainderAt_ne_zero_of_returns hj (heq.trans hreached) (hreached ▸ hr) n hn.1
  | case3 r trail hr hmem =>
    refine iff_of_false (by simp) ?_
    rintro ⟨n, hle, hn, -⟩
    exact hr ((h.eq_remainderAt hrem).trans (remainderAt_eq_zero_of_le hle hn.1))
  | case4 r trail hr hmem left ih =>
    have hreached := h.eq_remainderAt hrem
    have hnext : ∀ j < trail.length + 1, remainderAt den rem j ≠ 0 := by
      intro j hj
      rcases Nat.lt_succ_iff_lt_or_eq.mp hj with hlt | rfl
      · exact hfirst j hlt
      · exact hreached ▸ hr
    refine (ih h.cons hnext).trans ?_
    rw [List.length_cons, Nat.add_right_comm, Nat.add_assoc]

end

/-- Long division ends with the fewest places that are enough, if it may compute as many digits. -/
theorem within_eq_finite_iff (limit : Nat) (r : Rat) {ds : List Nat} :
    within limit r = finite ds ↔
      ∃ n ≤ limit, IsLeast {n | FitsPlaces r n} n ∧ ds = (List.range n).map (fractionDigit r) := by
  have hplaces : {n | FitsPlaces r n} = {n | remainderAt r.den (r.num.natAbs % r.den) n = 0} :=
    Set.ext fun n => fitsPlaces_iff_remainderAt
  have hdigits : fractionDigit r = digitAt r.den (r.num.natAbs % r.den) := funext (fractionDigit_eq r)
  rw [within, divide_eq_finite_iff (Nat.mod_lt _ r.den_pos) .nil (by simp), hplaces, hdigits, List.length_nil,
    Nat.zero_add]

section
variable {limit : Nat} {r : Rat}

theorem isExact_within (h : r.den ≤ limit) : (within limit r).isExact = true := by
  obtain ⟨j, n, hj, hn, heq⟩ := exists_returns r.den_pos (r.num.natAbs % r.den)
  rw [within, isExact_divide_iff (Nat.mod_lt _ r.den_pos) .nil]
  exact ⟨n, Nat.zero_le n, by rw [List.length_nil]; omega, .inr ⟨j, hj, heq⟩⟩

theorem exists_fitsPlaces_le (h : ∃ n, FitsPlaces r n) : ∃ n ≤ r.den, FitsPlaces r n := by
  obtain ⟨m, hm⟩ := h
  obtain ⟨j, n, hj, hn, heq⟩ := exists_returns r.den_pos (r.num.natAbs % r.den)
  refine ⟨n, hn, fitsPlaces_iff_remainderAt.mpr ?_⟩
  by_contra hne
  exact remainderAt_ne_zero_of_returns hj heq hne m (fitsPlaces_iff_remainderAt.mp hm)

theorem exists_within_eq_finite_iff (h : r.den ≤ limit) :
    (∃ ds, within limit r = finite ds) ↔ ∃ n, FitsPlaces r n := by
  constructor
  · rintro ⟨ds, heq⟩
    obtain ⟨n, -, hleast, -⟩ := (within_eq_finite_iff limit r).mp heq
    exact ⟨n, hleast.1⟩
  · intro hfits
    obtain ⟨m, hm, hplaces⟩ := exists_fitsPlaces_le hfits
    classical
    have hleast : IsLeast {n | FitsPlaces r n} (Nat.find hfits) :=
      ⟨Nat.find_spec hfits, fun _ => Nat.find_min' hfits⟩
    have hle : Nat.find hfits ≤ limit := (hleast.2 hplaces).trans (hm.trans h)
    exact ⟨_, (within_eq_finite_iff limit r).mpr ⟨_, hle, hleast, rfl⟩⟩

end

end Expansion

/-! ## Four ways to see it -/

/-- The loops that divide out twos and fives come to an end. They leave one exactly if some number of places is enough,
and exactly then long division reaches the remainder zero; it always comes to an end if it is given as many digits as it
asks for. A decimal that has enough places has the value of the rational, whatever way it is rounded. -/
theorem isFiniteDecimal_agrees (r : Rat) :
    (∃ m k, DividesOut 2 r.den m ∧ DividesOut 5 m k ∧ isFiniteDecimal r = (k == 1)) ∧
      (isFiniteDecimal r = true ↔ ∃ n, FitsPlaces r n) ∧
      (∀ limit, r.den ≤ limit → (Expansion.within limit r).isExact = true ∧
        ((∃ n, FitsPlaces r n) ↔ ∃ ds, Expansion.within limit r = .finite ds)) ∧
      ∀ n (h : n < Decimal.scaleLimit) mode, (Decimal.ofRat r n mode h).toRat = r ↔ FitsPlaces r n := by
  have htwo : DividesOut 2 r.den (stripFactor 2 r.den) := (dividesOut_iff (by decide)).mpr ⟨r.den_pos, rfl⟩
  have hpos : 0 < stripFactor 2 r.den := stripFactor_pos (by decide) r.den_pos
  have hfive : DividesOut 5 (stripFactor 2 r.den) (stripFactor 5 (stripFactor 2 r.den)) :=
    (dividesOut_iff (by decide)).mpr ⟨hpos, rfl⟩
  refine ⟨⟨_, _, htwo, hfive, rfl⟩, ?_, ?_, ?_⟩
  · rw [isFiniteDecimal_iff, terminates_iff_fitsPlaces]
  · intro limit hle
    exact ⟨Expansion.isExact_within hle, (Expansion.exists_within_eq_finite_iff hle).symm⟩
  · intro n h mode
    exact Decimal.toRat_ofRat_eq_self_iff mode h

theorem isFiniteDecimal_agrees_fortieths :
    FitsPlaces (mkRat (-7) 40) 3 ∧ isFiniteDecimal (mkRat (-7) 40) = true ∧
      (mkRat (-7) 40).den ≤ 40 ∧ (∃ ds, Expansion.within 40 (mkRat (-7) 40) = .finite ds) ∧
      3 < Decimal.scaleLimit ∧ (Decimal.ofRat (mkRat (-7) 40) 3 .halfCeil (by decide)).toRat = mkRat (-7) 40 := by
  have hfits : FitsPlaces (mkRat (-7) 40) 3 := by
    refine ⟨-175, ?_⟩
    rw [Rat.mkRat_eq_div]
    norm_num
  have hden : (mkRat (-7) 40).den ≤ 40 := by decide
  have hplaces : 3 < Decimal.scaleLimit := by decide
  obtain ⟨-, hfinite, hdivision, hround⟩ := isFiniteDecimal_agrees (mkRat (-7) 40)
  obtain ⟨-, hends⟩ := hdivision 40 hden
  exact ⟨hfits, hfinite.mpr ⟨3, hfits⟩, hden, hends.mp ⟨3, hfits⟩, hplaces, (hround 3 hplaces .halfCeil).mpr hfits⟩

end ExactCalc
