import Mathlib
import ExactCalc.Proofs.Number.Conversion
import ExactCalc.Proofs.Number.RecurringText
import ExactCalc.Proofs.Rational.Expansion

/-!
# Recurring literals

All spellings of a number with a period make the same number, the sum of the series that they stand for, as long as the
parts after the point have no more digits than a 32-bit word can count: `Recurring.create_spelling`.
-/

namespace ExactCalc

open Text

namespace Recurring

variable {t : Recurring}

/-! ## Values -/

/-- The fixed digits and the sum of the series of the periods, with the sign. -/
def sum (t : Recurring) : Rat :=
  let magnitude : Rat := natOfDigits t.whole + natOfDigits t.fixed / 10 ^ t.fixed.length +
    natOfDigits t.period / (10 ^ t.fixed.length * (10 ^ t.period.length - 1))
  if t.negative then -magnitude else magnitude

/-- The parts after the point are no longer than a 32-bit word can count. -/
def Fits (t : Recurring) : Prop :=
  t.fixed.length < Decimal.scaleLimit ∧ t.period.length < Decimal.scaleLimit

instance : Decidable t.Fits := inferInstanceAs (Decidable (_ ∧ _))

/-- The quotient of the two differences is the sum of the series. -/
theorem value_eq_sum (hp : t.period ≠ []) : t.value = t.sum := by
  have hempty : t.period.isEmpty = false := by simpa using hp
  have hone : (1 : Rat) < 10 ^ t.period.length :=
    one_lt_pow₀ (by norm_num) fun h => hp (List.eq_nil_of_length_eq_zero h)
  have hnines : (10 : Rat) ^ t.period.length - 1 ≠ 0 := by linarith
  have hcast : ((Nat.pow 10 t.fixed.length * (Nat.pow 10 t.period.length - 1) : Nat) : Rat) =
      10 ^ t.fixed.length * (10 ^ t.period.length - 1) := by
    rw [Nat.pow_eq, Nat.pow_eq, Nat.cast_mul, Nat.cast_sub (Nat.one_le_pow _ _ (by decide))]
    push_cast
    rfl
  have hmagnitude : t.magnitude = natOfDigits t.whole + natOfDigits t.fixed / 10 ^ t.fixed.length +
      natOfDigits t.period / (10 ^ t.fixed.length * (10 ^ t.period.length - 1)) := by
    simp only [magnitude, hempty, Bool.false_eq_true, if_false]
    rw [Rat.mkRat_eq_div, hcast, natOfDigits_append (t.whole ++ t.fixed), natOfDigits_append t.whole]
    push_cast
    field_simp
    ring
  rw [value, hmagnitude, sum]

theorem value?_eq (h : t.IsProper) : t.value? = if t.Fits then some t.sum else none := by
  have hempty : (t.whole ++ t.fixed ++ t.period).isEmpty = false := by simp [h.whole_ne]
  have hdigits : Digits (t.whole ++ t.fixed ++ t.period) :=
    List.forall_mem_append.mpr ⟨List.forall_mem_append.mpr ⟨h.whole, h.fixed⟩, h.period⟩
  have hfits : (t.fixed.length < 4294967296 && t.period.length < 4294967296) = decide t.Fits :=
    (Bool.decide_and _ _).symm
  simp only [value?, hempty, hdigits.areAsciiDigits, hfits, value_eq_sum h.period_ne]
  simp

/-! ## Acceptance -/

theorem isDigit_of_isNumericText {s : String} (h : isNumericText s = true) :
    ∀ c ∈ s.toList, isDigit c = true ∨ c = '.' ∨ c = '-' := by
  obtain ⟨negative, whole, fraction, hs, hw, hf, -⟩ := exists_plainChars_of_isNumericText h
  rw [hs]
  exact isDigit_of_mem_plainChars hw hf

theorem isNumericText_eq_false_of_spells {s : String} (hs : t.Spells s.toList) : isNumericText s = false := by
  obtain ⟨c, hc, hnot⟩ : ∃ c ∈ s.toList, ¬ (isDigit c = true ∨ c = '.' ∨ c = '-') := by
    generalize s.toList = cs at hs
    cases hs with
    | @enclosed l r mark hb _ =>
      refine ⟨l, by simp, ?_⟩
      rcases hb with ⟨rfl, -⟩ | ⟨rfl, -⟩ <;> decide
    | lastDigit _ => exact ⟨'r', by simp, by decide⟩
  by_contra hnumeric
  exact hnot (isDigit_of_isNumericText (by simpa using hnumeric) c hc)

/-- A spelling is a number exactly if it is read as a recurring literal. -/
theorem ofText_eq_of_spells {s : String} (hs : t.Spells s.toList) :
    Number.ofText s = (recurringValue? s).elim (.error (.unsupported s)) fun r => .ok (.rational r) := by
  have hnumeric := isNumericText_eq_false_of_spells hs
  have hamount : isAmountText s = false := by
    simp only [isNumericText, Bool.or_eq_false_iff] at hnumeric
    exact hnumeric.1
  have hempty : s.isEmpty = false := by
    by_contra hs'
    obtain rfl : s = "" := by simpa using hs'
    generalize hnil : "".toList = cs at hs
    cases hs <;> simp at hnil
  rw [Number.ofText, hempty, hamount, hnumeric]
  cases recurringValue? s <;> rfl

theorem ofText_of_spells {s : String} (h : t.IsProper) (hs : t.Spells s.toList) :
    Number.ofText s = if t.Fits then .ok (.rational t.sum) else .error (.unsupported s) := by
  rw [ofText_eq_of_spells hs, recurringValue?_of_spells h hs, value?_eq h]
  split_ifs <;> rfl

theorem ofText_of_value? {s : String} {v : Rat} (h : t.IsProper) (hs : t.Spells s.toList) (hv : t.value? = some v) :
    Number.ofText s = .ok (.rational v) := by
  rw [value?_eq h] at hv
  rw [ofText_of_spells h hs]
  split_ifs at hv ⊢
  rw [Option.some.inj hv]

/-- All spellings make the same number: the sum of the series, if the parts after the point are not too long. -/
theorem create_spelling (t : Recurring) (h : t.IsProper) (s : String) (hs : t.Spells s.toList) :
    Number.create (.text s) = if t.Fits then .ok (.rational t.sum) else .error (.unsupported s) :=
  ofText_of_spells h hs

theorem create_spelling_nines :
    (IsProper ⟨true, ['1'], ['2'], ['9']⟩ ∧ Spells ⟨true, ['1'], ['2'], ['9']⟩ "-1.2[9]r".toList ∧
      Spells ⟨true, ['1'], ['2'], ['9']⟩ "-1.29r".toList) ∧
    Number.create (.text "-1.2[9]r") = .ok (.rational (-13 / 10)) ∧
    Number.create (.text "-1.29r") = .ok (.rational (-13 / 10)) := by
  have hproper : IsProper ⟨true, ['1'], ['2'], ['9']⟩ :=
    ⟨digits_singleton rfl, by decide, digits_singleton rfl, digits_singleton rfl, by decide⟩
  have henclosed : Spells ⟨true, ['1'], ['2'], ['9']⟩ "-1.2[9]r".toList := .enclosed (.inr ⟨rfl, rfl⟩) (.inr rfl)
  have hlast : Spells ⟨true, ['1'], ['2'], ['9']⟩ "-1.29r".toList := .lastDigit rfl
  have hfits : Fits ⟨true, ['1'], ['2'], ['9']⟩ := by decide
  have hsum : sum ⟨true, ['1'], ['2'], ['9']⟩ = -13 / 10 := by
    have hone : natOfDigits ['1'] = 1 := rfl
    have htwo : natOfDigits ['2'] = 2 := rfl
    have hnine : natOfDigits ['9'] = 9 := rfl
    simp only [sum, hone, htwo, hnine, List.length_singleton, if_true]
    norm_num
  refine ⟨⟨hproper, henclosed, hlast⟩, ?_, ?_⟩
  · rw [create_spelling _ hproper _ henclosed, if_pos hfits, hsum]
  · rw [create_spelling _ hproper _ hlast, if_pos hfits, hsum]

/-- More digits after the point than a 32-bit word can count are refused. -/
theorem create_spelling_refused :
    ¬ ∀ t : Recurring, t.IsProper → ∀ s : String, t.Spells s.toList → ∃ n, Number.create (.text s) = .ok n := by
  intro hall
  have hlong : ¬ Fits ⟨false, ['0'], List.replicate Decimal.scaleLimit '0', ['3']⟩ := fun hfits =>
    absurd hfits.1 (by rw [List.length_replicate]; exact lt_irrefl _)
  have hproper : IsProper ⟨false, ['0'], List.replicate Decimal.scaleLimit '0', ['3']⟩ := by
    refine ⟨digits_singleton rfl, by decide, fun c hc => ?_, digits_singleton rfl, by decide⟩
    rw [List.eq_of_mem_replicate hc]
    decide
  have hs : Spells ⟨false, ['0'], List.replicate Decimal.scaleLimit '0', ['3']⟩
      (String.ofList ([] ++ (['0'] ++ '.' :: (List.replicate Decimal.scaleLimit '0' ++ '(' :: (['3'] ++ ')' :: []))))
        ).toList := by
    rw [String.toList_ofList]
    exact .enclosed (.inl ⟨rfl, rfl⟩) (.inl rfl)
  obtain ⟨n, hn⟩ := hall _ hproper _ hs
  rw [Number.create, ofText_of_spells hproper hs, if_neg hlong] at hn
  cases hn

end Recurring

end ExactCalc
