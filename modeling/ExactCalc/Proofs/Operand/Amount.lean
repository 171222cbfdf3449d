import Mathlib
import ExactCalc.Proofs.Number.AmountOrder
import ExactCalc.Proofs.Operand.Comparison

/-!
# Amounts of operands

The amount of an operand that has an exact value is a text that can be read, as the amount of that value: an amount that
is given back as it was written has no digits that the rounding would take (`Number.exists_amountText`). So operands in
the order of their values have amounts in that order, unless one is held as a decimal, the other as a rational, and only
one of the two is counted up (`Operand.amount_le_iff`).
-/

namespace ExactCalc

open Text

/-! ## Amounts of numbers -/

theorem Decimal.scale_le_of_ofText? {s : String} {d : Decimal} (h : ofText? s = some d) :
    d.scale ≤ fractionDigits s := by
  obtain ⟨negative, whole, fraction, hw, hf, -, hs, hlen, rfl⟩ := exists_plain_of_ofChars? h
  rw [fractionDigits_of_plainChars hw.isDigit hs]
  exact scale_ofScaled_le _ _ _

namespace Number

variable {n : Number}

theorem amount_decimal_of_scale_le {d : Decimal} (h : d.scale ≤ amountDigits) :
    (Exact.decimal d).amount .default = d.toRat := by
  have hworking : d.scale ≤ AmountPolicy.default.workingPlaces := h.trans (by decide)
  have hplaces : d.scale ≤ AmountPolicy.default.amountPlaces := h
  have hround : (AmountPolicy.default.mode.atPlaces AmountPolicy.default.workingPlaces d.toRat) = d.toRat :=
    RoundingMode.atPlaces_of_mul_pow _ (d.toRat_mul_pow hworking)
  rw [Exact.amount, Exact.toRat_working]
  change Amount.cap _ (AmountPolicy.default.mode.atPlaces AmountPolicy.default.workingPlaces d.toRat) = _
  rw [hround]
  exact Amount.cap_of_mul_pow (d.toRat_mul_pow hplaces)

/-- The amount of a number with an exact value is read as the amount of that value. -/
theorem exists_amountText (hn : n.IsProper) {x : Exact} (hx : n.toExact = .ok x) :
    ∃ s, n.amountText .default = .ok s ∧ ratOfText? s = some (x.amount .default) := by
  have hcomputed : ratOfText? (x.amountText .default) = some (x.amount .default) := by
    have hlen : fractionDigits (x.amountText .default) < Decimal.scaleLimit :=
      (x.fractionDigits_amountText_le .default).trans_lt (by decide)
    obtain ⟨d, hd, hvalue⟩ := (x.isCanonicalText_amountText .default).exists_ofText? hlen
    rw [ratOfText?_of_ofText? hd, hvalue]
  cases n with
  | amount s =>
    refine ⟨s, rfl, ?_⟩
    cases hs : Decimal.ofText? s with
    | none => simp [toExact, toDecimal, readAs, hs, Except.map] at hx
    | some d =>
      have hdecimal : Exact.decimal d = x := by simpa [toExact, toDecimal, readAs, hs, Except.map] using hx
      subst hdecimal
      have hscale : d.scale ≤ amountDigits :=
        (Decimal.scale_le_of_ofText? hs).trans (fractionDigits_le_of_isAmountText hn)
      rw [ratOfText?_of_ofText? hs, amount_decimal_of_scale_le hscale]
  | decimal d | rational r | numeral s =>
    refine ⟨x.amountText .default, ?_, hcomputed⟩
    rw [amountText_eq_map (fun t => Number.noConfusion), hx]
    rfl

end Number

/-! ## Amounts of operands -/

namespace Operand

variable {a b : Operand}

theorem exists_amountText (ha : a.IsProper) {x : Exact} (hx : a.toExact = .ok x) :
    ∃ s, a.amountText .default = .ok s ∧ ratOfText? s = some (x.amount .default) := by
  obtain ⟨n, hn, hx⟩ := exists_of_bind_ok hx
  rw [amountText, hn]
  exact Number.exists_amountText (isProper_of_resolve ha hn) hx

/-- Two operands in the order of their values have amounts, which can be read, in that order, unless their forms invert
it, by one unit of the last place. -/
theorem amount_le_iff {o : Ordering} (ha : a.IsProper) (hb : b.IsProper) (h : a.compare b = .ok o) (ho : o ≠ .gt) :
    ∃ x y s t r u, a.toExact = .ok x ∧ b.toExact = .ok y ∧ a.amountText .default = .ok s ∧
      b.amountText .default = .ok t ∧ ratOfText? s = some r ∧ ratOfText? t = some u ∧ (r ≤ u ↔ ¬ x.Inverts y) ∧
      (x.Inverts y → r = u + 1 / 10 ^ 6) ∧ (o = .eq → (r = u ↔ ¬ x.Inverts y ∧ ¬ y.Inverts x)) := by
  obtain ⟨x, y, hx, hy, rfl⟩ := exists_of_compare h
  obtain ⟨s, hs, hr⟩ := exists_amountText ha hx
  obtain ⟨t, ht, hu⟩ := exists_amountText hb hy
  have hle : x.toRat ≤ y.toRat := by
    rw [ne_eq, cmp_eq_gt_iff, not_lt] at ho
    exact ho
  refine ⟨x, y, s, t, _, _, hx, hy, hs, ht, hr, hu, Exact.amount_le_amount_iff hle,
    Exact.amount_eq_of_inverts hle, fun heq => ?_⟩
  have hge : y.toRat ≤ x.toRat := by
    rw [cmp_eq_eq_iff] at heq
    exact heq.ge
  rw [le_antisymm_iff, Exact.amount_le_amount_iff hle, Exact.amount_le_amount_iff hge]

/-- Three tenths as written and a third. -/
theorem amount_le_iff_third :
    let a := number (.amount "0.3")
    let b := number (.rational (mkRat 1 3))
    a.compare b = .ok .lt ∧ ∃ s t r u, a.amountText .default = .ok s ∧ b.amountText .default = .ok t ∧
      ratOfText? s = some r ∧ ratOfText? t = some u ∧ r ≤ u := by
  intro a b
  have ha : a.IsProper := Number.isProper_of_create (i := .text "0.3") (by cbv)
  have hcompare : a.compare b = .ok .lt := by decide +kernel
  obtain ⟨x, y, s, t, r, u, hx, hy, hs, ht, hr, hu, hle, -⟩ := amount_le_iff ha (b := b) trivial hcompare (by decide)
  have hdecimal : a.toExact = .ok (.decimal (.ofScaled 3 1 (by decide))) := by cbv
  obtain rfl := Except.ok.inj (hdecimal.symm.trans hx)
  obtain rfl := Except.ok.inj hy
  refine ⟨hcompare, s, t, r, u, hs, ht, hr, hu, hle.mpr ?_⟩
  rintro ⟨k, hlow, hhigh⟩
  norm_num [Decimal.toRat_ofScaled, Rat.mkRat_eq_div] at hlow hhigh
  linarith

/-- A decimal counts a part of a unit that a rational of the same value does not count. -/
theorem amount_le_ne :
    ¬ ∀ (a b : Operand) (o : Ordering) (s t : String) (r u : Rat), a.IsProper → b.IsProper → a.compare b = .ok o →
      o ≠ .gt → a.amountText .default = .ok s → b.amountText .default = .ok t → ratOfText? s = some r →
      ratOfText? t = some u → r ≤ u := by
  intro h
  let a := number (.decimal (.ofScaled 5 8 (by decide)))
  let b := number (.rational (mkRat 5 100000000))
  have hcompare : a.compare b = .ok .eq := by decide +kernel
  have ha : a.amountText .default = .ok "0.000001" := by decide +kernel
  have hb : b.amountText .default = .ok "0" := by decide +kernel
  have hle := h a b .eq "0.000001" "0" (1 / 1000000) 0 trivial trivial hcompare (by decide) ha hb (by decide +kernel)
    (by decide +kernel)
  norm_num at hle

end Operand

end ExactCalc
