import Mathlib
import ExactCalc.Proofs.Number.Conversion

/-!
# One language, two readers

Decimals and rationals are read from text in two ways. What is read as a decimal is what is read as a rational and has
no period (`Decimal.isSome_ofText?_iff`), so that a numeral has one value whether it is taken as a rational or as a
decimal (`Number.map_toRat_exactFor`). The two readers and the pattern of numerals together: `readers_agree`.
-/

namespace ExactCalc

open Text

variable {s : String}

theorem fractionDigits_le_utf8ByteSize (s : String) : fractionDigits s ≤ s.utf8ByteSize := by
  have hlen : ∀ cs : List Char, cs.length ≤ String.utf8Len cs := by
    intro cs
    induction cs with
    | nil => exact le_rfl
    | cons c cs ih =>
      have hpos := c.utf8Size_pos
      rw [List.length_cons, String.utf8Len_cons]
      omega
  calc fractionDigits s ≤ (s.toList.dropWhile (· ≠ '.')).length := by
        rw [fractionDigits, List.length_tail]
        exact Nat.sub_le _ _
    _ ≤ s.toList.length := (List.dropWhile_suffix _).length_le
    _ ≤ String.utf8Len s.toList := hlen _
    _ = s.utf8ByteSize := by rw [← String.utf8ByteSize_ofList, String.ofList_toList]

/-- The texts of decimals are those of rationals without a period. -/
theorem Decimal.isSome_ofText?_iff (s : String) :
    (ofText? s).isSome = true ↔ (ratOfText? s).isSome = true ∧ '(' ∉ s.toList := by
  constructor
  · intro h
    obtain ⟨d, hd⟩ := Option.isSome_iff_exists.mp h
    exact ⟨by rw [ratOfText?_of_ofText? hd]; rfl, notMem_of_isNumericText (isNumericText_of_ofText? hd)⟩
  · rintro ⟨hr, hparen⟩
    exact isSome_ofText?_of_ratOfText? hparen hr

/-- As an operand of any operation a numeral has the value of its rational, or it is refused in the same words. -/
theorem Number.map_toRat_exactFor {n : Number} (hn : n = .numeral s ∨ n = .amount s) (hs : isNumericText s = true)
    (op : Operation) : (n.exactFor op).map Exact.toRat = n.toRational := by
  by_cases hread : n.IsReadable
  · obtain ⟨x, hx, hworth, -⟩ := exactFor_of_isReadable hread op
    rw [hx, toRational_of_isReadable hread, ← hworth]
    rfl
  · have hdecimal : Decimal.ofText? s = none := by
      rcases hn with rfl | rfl <;> simpa [IsReadable] using hread
    have hrational : ratOfText? s = none := by
      have hnot := mt (isSome_ofText?_of_ratOfText? (notMem_of_isNumericText hs)) (by simp [hdecimal])
      simpa using hnot
    rcases hn with rfl | rfl <;> by_cases hop : op = .divide <;>
      simp [exactFor, operandFor, hop, readAs, hdecimal, hrational, toRational, Except.map, bind, Except.bind]

/-- The reader of decimals takes what the reader of rationals takes, periods apart, and gives it the same value; all of
it are numerals, and all numerals of ASCII characters are taken. So the value of a numeral does not depend on the
operation that it is an operand of. -/
theorem readers_agree (s : String) :
    ((Decimal.ofText? s).isSome = true ↔ (ratOfText? s).isSome = true ∧ '(' ∉ s.toList) ∧
      (∀ d, Decimal.ofText? s = some d → ratOfText? s = some d.toRat ∧ isNumericText s = true) ∧
      (isNumericText s = true →
        ((∀ c ∈ s.toList, c.toNat < 128) → s.utf8ByteSize < Decimal.scaleLimit →
          (Decimal.ofText? s).isSome = true ∧ (ratOfText? s).isSome = true) ∧
        ∀ n ∈ [Number.numeral s, Number.amount s], ∀ op op',
          (n.exactFor op).map Exact.toRat = (n.exactFor op').map Exact.toRat) := by
  refine ⟨Decimal.isSome_ofText?_iff s, fun d hd => ⟨ratOfText?_of_ofText? hd, isNumericText_of_ofText? hd⟩,
    fun hs => ⟨fun hascii hsize => ?_, fun n hn op op' => ?_⟩⟩
  · have hread := (isSome_ofText?_iff_of_isNumericText hs).mpr
      ⟨hascii, (fractionDigits_le_utf8ByteSize s).trans_lt hsize⟩
    exact ⟨hread, ((Decimal.isSome_ofText?_iff s).mp hread).1⟩
  · have hn' : n = .numeral s ∨ n = .amount s := by simpa using hn
    rw [Number.map_toRat_exactFor hn' hs, Number.map_toRat_exactFor hn' hs]

theorem readers_agree_point :
    isNumericText "-.50" = true ∧ "-.50".utf8ByteSize < Decimal.scaleLimit ∧
      (Decimal.ofText? "-.50").isSome = true ∧ (ratOfText? "-.50").isSome = true ∧
      ratOfText? "-.50" = some (Decimal.ofScaled (-5) 1 (by decide)).toRat ∧
      ((Number.numeral "-.50").exactFor .divide).map Exact.toRat =
        ((Number.numeral "-.50").exactFor .plus).map Exact.toRat := by
  have hread : Decimal.ofText? "-.50" = some (.ofScaled (-5) 1 (by decide)) := by cbv
  have hnumeric : isNumericText "-.50" = true := by cbv
  have hascii : ∀ c ∈ "-.50".toList, c.toNat < 128 := by simp
  have hsize : "-.50".utf8ByteSize < Decimal.scaleLimit := by
    calc "-.50".utf8ByteSize = 4 := rfl
      _ < Decimal.scaleLimit := by decide
  obtain ⟨-, hvalue, hall⟩ := readers_agree "-.50"
  obtain ⟨htaken, hsame⟩ := hall hnumeric
  obtain ⟨hdecimal, hrational⟩ := htaken hascii hsize
  exact ⟨hnumeric, hsize, hdecimal, hrational, (hvalue _ hread).1, hsame _ List.mem_cons_self _ _⟩

end ExactCalc
