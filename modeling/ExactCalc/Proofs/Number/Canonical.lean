import Mathlib
import ExactCalc.Proofs.Number.Conversion

/-!
# Canonical texts

A canonical decimal text has no zero that could be dropped before or after the digits, no point without digits behind
it, and no sign on zero. What is written for a decimal is canonical (`Decimal.isCanonicalText_toChars`), and a canonical
text is read as its number.
-/

namespace ExactCalc

open Text

/-- The number before the point is written as numbers are, the digits after it do not end with a zero, and only a number
other than zero has a sign. -/
structure IsCanonical (negative : Bool) (whole fraction : List Char) : Prop where
  whole_eq : whole = digitsOfNat (natOfDigits whole)
  digits : Digits fraction
  last_ne : fraction.getLast? ≠ some '0'
  sign : negative = true → natOfDigits (whole ++ fraction) ≠ 0

def IsCanonicalText (cs : List Char) (q : Rat) : Prop :=
  ∃ negative whole fraction, IsCanonical negative whole fraction ∧ cs = plainChars negative whole fraction ∧
    q = signedDigits negative (whole ++ fraction) / 10 ^ fraction.length

section
variable {negative : Bool} {whole fraction : List Char}

theorem digits_of_eq_digitsOfNat (h : whole = digitsOfNat (natOfDigits whole)) : Digits whole := by
  rw [h]
  exact Decimal.digits_digitsOfNat _

theorem IsCanonical.whole_ne_nil (h : IsCanonical negative whole fraction) : whole ≠ [] := by
  rw [h.whole_eq]
  exact Nat.toDigits_ne_nil

theorem ten_dvd_of_getLast? (whole : List Char) (h : fraction.getLast? = some '0') :
    10 ∣ natOfDigits (whole ++ fraction) := by
  obtain ⟨init, rfl⟩ := List.getLast?_eq_some_iff.mp h
  rw [← List.append_assoc, natOfDigits_append, List.length_singleton, pow_one]
  exact Dvd.intro_left _ rfl

theorem natAbs_signedDigits (negative : Bool) (ds : List Char) :
    (signedDigits negative ds).natAbs = natOfDigits ds := by
  cases negative <;> simp [signedDigits]

theorem IsCanonicalText.exists_ofText? {s : String} {q : Rat} (h : IsCanonicalText s.toList q)
    (hlen : fractionDigits s < Decimal.scaleLimit) : ∃ d, Decimal.ofText? s = some d ∧ d.toRat = q := by
  obtain ⟨negative, whole, fraction, hc, hs, hq⟩ := h
  have hw := digits_of_eq_digitsOfNat hc.whole_eq
  rw [fractionDigits_of_plainChars hw.isDigit hs] at hlen
  refine ⟨Decimal.ofScaled (signedDigits negative (whole ++ fraction)) fraction.length hlen, ?_, ?_⟩
  · rw [Decimal.ofText?, hs]
    exact Decimal.ofChars?_plainChars hw hc.digits (.inl hc.whole_ne_nil) hlen
  · rw [Decimal.toRat_ofScaled, hq]

end

namespace Decimal

theorem exists_isCanonical (d : Decimal) :
    ∃ whole fraction, IsCanonical d.isNegative whole fraction ∧ fraction.length = d.scale ∧
      d.toChars = plainChars d.isNegative whole fraction ∧
      signedDigits d.isNegative (whole ++ fraction) = d.mantissa := by
  obtain ⟨fraction, hf, hlen, hsigned, hchars⟩ := d.toChars_eq
  refine ⟨_, fraction, ⟨?_, hf, ?_, ?_⟩, hlen, hchars, hsigned⟩
  · rw [natOfDigits_digitsOfNat]
  · intro hlast
    have hdvd := ten_dvd_of_getLast? (digitsOfNat (d.mantissa.natAbs / 10 ^ d.scale)) hlast
    rw [← natAbs_signedDigits d.isNegative, hsigned] at hdvd
    rcases d.normal with hscale | hten
    · rw [List.length_eq_zero_iff.mp (hlen.trans hscale)] at hlast
      simp at hlast
    · exact hten (Int.natCast_dvd.mpr hdvd)
  · intro hneg hzero
    rw [← natAbs_signedDigits d.isNegative, hsigned, Int.natAbs_eq_zero] at hzero
    simp [isNegative, hzero] at hneg

theorem isCanonicalText_toChars (d : Decimal) : IsCanonicalText d.toChars d.toRat := by
  obtain ⟨whole, fraction, hc, hlen, hchars, hsigned⟩ := d.exists_isCanonical
  exact ⟨_, whole, fraction, hc, hchars, by rw [hsigned, hlen, toRat_eq]⟩

end Decimal

end ExactCalc
