import Mathlib
import ExactCalc.Proofs.Number.Amount

/-!
# Canonical spelling

A number has one canonical text (`IsCanonicalText.unique`). The canonical spelling of a text of digits around a point
leaves out the zeros that say nothing, a point that would stand bare and the sign of zero (`canonicalChars`). For a text
that is read as a decimal it is what is written for that decimal: `Decimal.text_canonical`.
-/

namespace ExactCalc

open Text

/-- The digits before the point without zeros in front; of zeros only, one stays, and of no digits one zero is made. -/
def wholeSpelling (whole : List Char) : List Char :=
  if whole.dropWhile (· == '0') = [] then ['0'] else whole.dropWhile (· == '0')

/-- A text of digits around a point with all that says nothing left out: zeros in front of the digits before the point
and behind those after it, a point with no digits left behind it, and a sign with nothing but zero left behind it. -/
def canonicalChars (cs : List Char) : List Char :=
  let negative := cs.head? == some '-'
  let body := if negative then cs.tail else cs
  let whole := wholeSpelling (body.takeWhile (· ≠ '.'))
  let fraction := Amount.dropFinalZeros (body.dropWhile (· ≠ '.')).tail
  let isZero := whole.all (· == '0') && fraction.isEmpty
  plainChars (negative && !isZero) whole fraction

def canonicalText (s : String) : String := String.ofList (canonicalChars s.toList)

section
variable {negative : Bool} {whole fraction : List Char}

/-! ## One text for each number -/

theorem digitsOfNat_natOfDigits (h : Digits whole) (hne : whole ≠ []) (hhead : whole.head? ≠ some '0') :
    digitsOfNat (natOfDigits whole) = whole := by
  obtain ⟨c, cs, rfl⟩ := List.exists_cons_of_ne_nil hne
  have hdigits : Digits (digitsOfNat (natOfDigits (c :: cs))) := Decimal.digits_digitsOfNat _
  refine hdigits.eq_of_natOfDigits h (le_antisymm ?_ ?_) (natOfDigits_digitsOfNat _)
  · exact (Nat.length_toDigits_le_iff (by decide) (by simp)).mpr h.natOfDigits_lt
  · -- the first digit is no zero, so the number has no fewer digits
    have hc : natOfDigits [c] ≠ 0 := by
      rw [ne_eq, natOfDigits_singleton_eq_zero_iff (h c List.mem_cons_self)]
      simpa using hhead
    have hge : 10 ^ cs.length ≤ natOfDigits (c :: cs) := by
      rw [← List.singleton_append, natOfDigits_append]
      exact Nat.le_add_right_of_le (Nat.le_mul_of_pos_left _ (Nat.pos_of_ne_zero hc))
    rcases Nat.eq_zero_or_pos cs.length with hzero | hpos
    · rw [List.length_cons, hzero]
      exact Nat.length_toDigits_pos
    · by_contra hlt
      have hle : (digitsOfNat (natOfDigits (c :: cs))).length ≤ cs.length := by
        rw [List.length_cons] at hlt
        omega
      exact absurd ((Nat.length_toDigits_le_iff (by decide) hpos).mp hle) (by omega)

theorem IsCanonical.normal (h : IsCanonical negative whole fraction) :
    fraction.length = 0 ∨ ¬ (10 : Int) ∣ signedDigits negative (whole ++ fraction) := by
  rcases fraction.eq_nil_or_concat' with rfl | ⟨init, c, rfl⟩
  · exact .inl rfl
  · right
    have hc : isAsciiDigit c = true := h.digits c (by simp)
    have hne : natOfDigits [c] ≠ 0 := by
      rw [ne_eq, natOfDigits_singleton_eq_zero_iff hc]
      simpa using h.last_ne
    have hlt := natOfDigits_singleton_lt hc
    intro hten
    have hdvd : 10 ∣ natOfDigits (whole ++ (init ++ [c])) := by
      rw [← natAbs_signedDigits negative]
      exact Int.natCast_dvd.mp hten
    rw [← List.append_assoc, natOfDigits_append, List.length_singleton] at hdvd
    omega

theorem IsCanonical.signedDigits_neg_iff (h : IsCanonical negative whole fraction) :
    signedDigits negative (whole ++ fraction) < 0 ↔ negative = true := by
  cases negative with
  | true => simpa [signedDigits] using Nat.pos_of_ne_zero (h.sign rfl)
  | false => simp [signedDigits]

/-- Two canonical texts of one integer with as many digits after the point are one. -/
theorem IsCanonical.eq_of_signedDigits {negative' : Bool} {whole' fraction' : List Char}
    (h : IsCanonical negative whole fraction) (h' : IsCanonical negative' whole' fraction')
    (hlen : fraction.length = fraction'.length)
    (heq : signedDigits negative (whole ++ fraction) = signedDigits negative' (whole' ++ fraction')) :
    negative = negative' ∧ whole = whole' ∧ fraction = fraction' := by
  have hsign : negative = negative' := by
    rw [Bool.eq_iff_iff, ← h.signedDigits_neg_iff, ← h'.signedDigits_neg_iff, heq]
  have hnat : natOfDigits whole * 10 ^ fraction.length + natOfDigits fraction =
      natOfDigits whole' * 10 ^ fraction.length + natOfDigits fraction' := by
    rw [← natOfDigits_append, hlen, ← natOfDigits_append, ← natAbs_signedDigits negative, heq, natAbs_signedDigits]
  have hlt := h.digits.natOfDigits_lt
  have hlt' := h'.digits.natOfDigits_lt
  rw [← hlen] at hlt'
  have hfraction : natOfDigits fraction = natOfDigits fraction' := by
    have hmod := congrArg (· % 10 ^ fraction.length) hnat
    simpa [Nat.mod_eq_of_lt hlt, Nat.mod_eq_of_lt hlt'] using hmod
  have hwhole : natOfDigits whole = natOfDigits whole' := by
    rw [hfraction] at hnat
    exact Nat.eq_of_mul_eq_mul_right (by positivity) (Nat.add_right_cancel hnat)
  refine ⟨hsign, ?_, h.digits.eq_of_natOfDigits h'.digits hlen hfraction⟩
  rw [h.whole_eq, h'.whole_eq, hwhole]

theorem IsCanonicalText.unique {cs cs' : List Char} {q : Rat} (h : IsCanonicalText cs q) (h' : IsCanonicalText cs' q) :
    cs = cs' := by
  obtain ⟨negative, whole, fraction, hc, rfl, hq⟩ := h
  obtain ⟨negative', whole', fraction', hc', rfl, hq'⟩ := h'
  obtain ⟨hsigned, hlen⟩ := Decimal.normal_unique hc.normal hc'.normal (hq.symm.trans hq')
  obtain ⟨rfl, rfl, rfl⟩ := hc.eq_of_signedDigits hc' hlen hsigned
  rfl

/-! ## The spelling of a text that is read -/

theorem natOfDigits_dropWhile_append (whole fraction : List Char) :
    natOfDigits (whole.dropWhile (· == '0') ++ fraction) = natOfDigits (whole ++ fraction) := by
  have hzeros : whole.takeWhile (· == '0') = List.replicate (whole.takeWhile (· == '0')).length '0' :=
    List.eq_replicate_of_mem fun c hc => by simpa using List.mem_takeWhile_imp hc
  have hsplit := List.takeWhile_append_dropWhile (p := (· == '0')) (l := whole)
  calc natOfDigits (whole.dropWhile (· == '0') ++ fraction)
      = natOfDigits (whole.takeWhile (· == '0') ++ (whole.dropWhile (· == '0') ++ fraction)) := by
        rw [natOfDigits_append (whole.takeWhile _), hzeros, natOfDigits_replicate_zero, Nat.zero_mul, Nat.zero_add]
    _ = natOfDigits (whole ++ fraction) := by rw [← List.append_assoc, hsplit]

theorem natOfDigits_wholeSpelling_append (whole fraction : List Char) :
    natOfDigits (wholeSpelling whole ++ fraction) = natOfDigits (whole ++ fraction) := by
  rw [← natOfDigits_dropWhile_append whole, wholeSpelling]
  split_ifs with hnil
  · have hzero : natOfDigits ['0'] = 0 := rfl
    rw [hnil, natOfDigits_append ['0'], hzero, Nat.zero_mul, Nat.zero_add, List.nil_append]
  · rfl

theorem digits_wholeSpelling (h : Digits whole) : Digits (wholeSpelling whole) := by
  rw [wholeSpelling]
  split_ifs
  · exact digits_singleton rfl
  · exact fun c hc => h c (List.dropWhile_subset _ hc)

theorem wholeSpelling_eq (h : Digits whole) :
    wholeSpelling whole = digitsOfNat (natOfDigits (wholeSpelling whole)) := by
  by_cases hnil : whole.dropWhile (· == '0') = []
  · rw [wholeSpelling, if_pos hnil]
    rfl
  · have heq : wholeSpelling whole = whole.dropWhile (· == '0') := if_neg hnil
    refine (digitsOfNat_natOfDigits (digits_wholeSpelling h) (heq ▸ hnil) ?_).symm
    intro hhead
    rw [heq] at hhead
    simpa [hhead] using List.head?_dropWhile_not (· == '0') whole

theorem canonicalChars_plainChars (hw : Digits whole) :
    canonicalChars (plainChars negative whole fraction) =
      plainChars (negative && !((wholeSpelling whole).all (· == '0') && (Amount.dropFinalZeros fraction).isEmpty))
        (wholeSpelling whole) (Amount.dropFinalZeros fraction) := by
  simp only [canonicalChars, head?_plainChars hw, body_plainChars, takeWhile_point hw, dropWhile_point hw, tail_point]

theorem isCanonical_spelling (negative : Bool) (hw : Digits whole) (hf : Digits fraction) :
    IsCanonical (negative && !((wholeSpelling whole).all (· == '0') && (Amount.dropFinalZeros fraction).isEmpty))
      (wholeSpelling whole) (Amount.dropFinalZeros fraction) := by
  have hf' := Amount.digits_dropFinalZeros hf
  have hlast := Amount.getLast?_dropFinalZeros_ne fraction
  refine ⟨wholeSpelling_eq hw, hf', hlast, fun hsign => ?_⟩
  rw [Amount.all_zero_iff (digits_wholeSpelling hw) hf' hlast] at hsign
  simpa using (Bool.and_eq_true_iff.mp hsign).2

/-- The spelling of what is read is the canonical text of its number. -/
theorem isCanonicalText_canonicalChars {cs : List Char} {d : Decimal} (h : Decimal.ofChars? cs = some d) :
    IsCanonicalText (canonicalChars cs) d.toRat := by
  obtain ⟨negative, whole, fraction, hw, hf, hne, rfl, hlen, rfl⟩ := Decimal.exists_plain_of_ofChars? h
  have hc := isCanonical_spelling negative hw hf
  have hsign := Amount.all_zero_iff (digits_wholeSpelling hw) hc.digits hc.last_ne
  have hvalue : (natOfDigits (wholeSpelling whole ++ Amount.dropFinalZeros fraction) : Rat) /
      10 ^ (Amount.dropFinalZeros fraction).length = natOfDigits (whole ++ fraction) / 10 ^ fraction.length := by
    rw [natOfDigits_wholeSpelling_append, Amount.dropFinalZeros_eq, natOfDigits_rdropWhile]
  refine ⟨_, _, _, hc, canonicalChars_plainChars hw, ?_⟩
  rw [Decimal.toRat_ofScaled, signedDigits_div, signedDigits_div, hvalue, hsign]
  by_cases hzero : natOfDigits (wholeSpelling whole ++ Amount.dropFinalZeros fraction) = 0
  · -- the sign of zero makes no difference
    rw [hzero, Nat.cast_zero, zero_div] at hvalue
    simp [← hvalue]
  · simp [hzero]

namespace Decimal

/-- What is written for a decimal is read as it, and for every text that is read as it what is written is the
canonical spelling of that text. -/
theorem text_canonical (d : Decimal) :
    ofText? d.text = some d ∧ ∀ s, ofText? s = some d → d.text = canonicalText s := by
  refine ⟨ofText?_text d, fun s hs => ?_⟩
  have hchars := d.isCanonicalText_toChars.unique (isCanonicalText_canonicalChars hs)
  rw [text, canonicalText, hchars]

theorem text_canonical_signed :
    ofText? "-007.250" = some (ofScaled (-725) 2 (by decide)) ∧ (ofScaled (-725) 2 (by decide)).text = "-7.25" ∧
      canonicalText "-007.250" = "-7.25" := by
  have hread : ofText? "-007.250" = some (ofScaled (-725) 2 (by decide)) := by cbv
  have hspelling : canonicalText "-007.250" = "-7.25" := by cbv
  exact ⟨hread, ((text_canonical _).2 _ hread).trans hspelling, hspelling⟩

end Decimal

end

end ExactCalc
