import Mathlib
import ExactCalc.Entry
import ExactCalc.Proofs.Number.Amount
import ExactCalc.Proofs.Operand.Proper

/-!
# The amounts of entries

An entry is read as a proper operand that is no phrase (`Entry.read_spec`). The amount on its worksheet is that of its
exact value, rounded as asked for, unless the entry stands for an amount as it is written: that one is shown as it is,
whatever number of digits is asked for (`Worksheet.amount_digits_iff`).
-/

namespace ExactCalc

theorem Operand.ne_phrase_of_apply {n m : Number} {op : Operation} {z : Operand}
    (h : (number n).apply op (number m) = .ok z) (p : Phrase) : z ≠ phrase p := by
  rcases reduce_cases (x := number n) (y := number m) h with rfl | rfl | ⟨k, -, rfl⟩ <;> exact Operand.noConfusion

theorem Expr.toOperand_ne_phrase (e : Expr) (p : Phrase) : e.toOperand ≠ .phrase p := by
  cases e <;> exact Operand.noConfusion

namespace Entry

variable {s : String} {x : Operand}

theorem Scientific.read_spec {t : Scientific} (h : t.read s = .ok x) : x.IsProper ∧ ∀ p, x ≠ .phrase p := by
  rw [Scientific.read] at h
  cases hpower : t.power? with
  | none => simp [hpower] at h
  | some power =>
    rw [hpower] at h
    obtain ⟨mantissa, hmantissa, happly⟩ := exists_of_bind_ok h
    have hproper : (Operand.number mantissa).IsProper := Number.isProper_of_ofText hmantissa
    exact ⟨Operand.isProper_of_apply hproper (y := .number (.decimal power)) trivial happly,
      Operand.ne_phrase_of_apply happly⟩

theorem read_spec (h : read s = .ok x) : x.IsProper ∧ ∀ p, x ≠ .phrase p := by
  have hread : readTrimmed (Text.trim s) = .ok x := eq_ok_of_mapError h
  rw [readTrimmed] at hread
  split_ifs at hread
  · obtain ⟨n, hn, rfl⟩ := exists_of_map_ok hread
    exact ⟨Number.isProper_of_ofText hn, fun p => Operand.noConfusion⟩
  · cases ht : scientific? (Text.trim s).toList with
    | some t =>
      rw [ht] at hread
      exact Scientific.read_spec hread
    | none =>
      rw [ht] at hread
      obtain ⟨e, he, rfl⟩ := exists_of_map_ok hread
      exact ⟨Expr.isProper_of_ofText he, e.toOperand_ne_phrase⟩

end Entry

/-! ## Amounts -/

section
variable {x : Operand} {s : String} {policy : AmountPolicy}

/-- The amount of an operand is that of its exact value, unless the operand is an amount as written. -/
theorem Operand.amountText_cases (hx : ∀ p, x ≠ phrase p) (h : x.amountText policy = .ok s) :
    (x = number (.amount s)) ∨
      (∀ t, x ≠ number (.amount t)) ∧ ∃ v, x.toExact = .ok v ∧ s = v.amountText policy := by
  obtain ⟨n, hn, hs⟩ := exists_of_bind_ok h
  have hexact : x.toExact = n.toExact := by
    rw [toExact, hn]
    rfl
  cases n with
  | amount t =>
    obtain rfl := Except.ok.inj hs
    refine .inl ?_
    cases x with
    | number m => rw [Except.ok.inj hn]
    | calculation left op right =>
      obtain ⟨a, b, -, -, hresult⟩ := exists_exactFor_of_resolve hn
      obtain ⟨d, hd⟩ | ⟨r, hr⟩ := Operation.exists_of_onExact hresult
      · cases hd
      · cases hr
    | phrase p => exact absurd rfl (hx p)
  | decimal d | rational r | numeral w =>
    refine .inr ⟨?_, ?_⟩
    · rintro t rfl
      cases hn
    · rw [Number.amountText_eq_map fun t => Number.noConfusion] at hs
      obtain ⟨v, hv, rfl⟩ := exists_of_map_ok hs
      exact ⟨v, hexact.trans hv, rfl⟩

end

namespace Worksheet

variable {s : String} {policy : AmountPolicy} {w : Worksheet}

theorem exists_amountText (h : evaluate s policy = .ok w) :
    ∃ x, Entry.read s = .ok x ∧ x.amountText policy = .ok w.amount := by
  obtain ⟨x, hx, hw⟩ := exists_of_bind_ok h
  refine ⟨x, hx, ?_⟩
  have hsheet : ofOperand x policy = .ok w := eq_ok_of_mapError hw
  obtain ⟨value, -, hsheet⟩ := exists_of_bind_ok hsheet
  obtain ⟨amount, hamount, hsheet⟩ := exists_of_bind_ok hsheet
  obtain ⟨types, -, hsheet⟩ := exists_of_bind_ok hsheet
  obtain ⟨json, -, hsheet⟩ := exists_of_bind_ok hsheet
  obtain rfl := Except.ok.inj hsheet
  exact hamount

/-- The amount has no more digits after the point than asked for, unless the entry stands for an amount with more, which
is then shown as it is written; it has at most six. Every other amount is that of the exact value, rounded as asked
for. -/
theorem amount_digits_iff (h : evaluate s policy = .ok w) :
    ∃ x, Entry.read s = .ok x ∧
      (fractionDigits w.amount ≤ policy.amountPlaces ↔
        ∀ t, x = .number (.amount t) → fractionDigits t ≤ policy.amountPlaces) ∧
      (∀ t, x = .number (.amount t) → w.amount = t ∧ fractionDigits t ≤ amountDigits) ∧
      ((∀ t, x ≠ .number (.amount t)) → ∃ v, x.toExact = .ok v ∧ w.amount = v.amountText policy) := by
  obtain ⟨x, hx, hamount⟩ := exists_amountText h
  obtain ⟨hproper, hphrase⟩ := Entry.read_spec hx
  refine ⟨x, hx, ?_⟩
  rcases Operand.amountText_cases hphrase hamount with rfl | ⟨hne, v, hv, hrounded⟩
  · have hdigits : fractionDigits w.amount ≤ amountDigits := fractionDigits_le_of_isAmountText hproper
    refine ⟨⟨?_, fun hle => hle _ rfl⟩, ?_, fun hne => absurd rfl (hne _)⟩
    · rintro hle t ht
      obtain rfl : w.amount = t := by simpa using ht
      exact hle
    · rintro t ht
      obtain rfl : w.amount = t := by simpa using ht
      exact ⟨rfl, hdigits⟩
  · refine ⟨iff_of_true ?_ fun t ht => absurd ht (hne t), fun t ht => absurd ht (hne t), fun _ => ⟨v, hv, hrounded⟩⟩
    rw [hrounded]
    exact v.fractionDigits_amountText_le policy

/-- One digit of a numeral that has two. -/
theorem amount_digits_iff_numeral :
    ∃ w, evaluate "-0.25" ⟨7, 1, .halfCeil⟩ = .ok w ∧ w.amount = "-0.3" ∧ fractionDigits w.amount ≤ 1 := by
  let w : Worksheet :=
    { value := "-0.25", amount := "-0.3", calculation := "-0.25", tokens := "⟨-0.25⟩", types := "numeric_string",
      json := (Document.number "-0.25").text }
  have hw : evaluate "-0.25" ⟨7, 1, .halfCeil⟩ = .ok w := by cbv
  obtain ⟨x, hx, hdigits, -⟩ := amount_digits_iff hw
  have hread : Entry.read "-0.25" = .ok (.number (.numeral "-0.25")) := by cbv
  obtain rfl := Except.ok.inj (hread.symm.trans hx)
  refine ⟨w, hw, rfl, hdigits.mpr fun t ht => ?_⟩
  cases Operand.number.inj ht

/-- An amount of six digits is shown with all of them when two are asked for. -/
theorem amount_digits_ne :
    ¬ ∀ (s : String) (policy : AmountPolicy) (w : Worksheet), evaluate s policy = .ok w →
      fractionDigits w.amount ≤ policy.amountPlaces := by
  intro h
  obtain ⟨w, hw, hamount⟩ : ∃ w, evaluate "0.333333" ⟨7, 2, .halfCeil⟩ = .ok w ∧ w.amount = "0.333333" :=
    ⟨_, by cbv, by rfl⟩
  have hle : fractionDigits w.amount ≤ 2 := h _ _ w hw
  have hsix : fractionDigits "0.333333" = 6 := by decide +kernel
  rw [hamount, hsix] at hle
  omega

end Worksheet

end ExactCalc
