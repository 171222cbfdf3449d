import Mathlib
import ExactCalc.Proofs.Decimal.Rounding
import ExactCalc.Proofs.Number.Canonical

/-!
# Amounts

The digits of an amount are found in a text: the rule of the next digit cuts it or adds one to its last place, with a
carry across the point, and what is left of it loses its final zeros and maybe its sign. `Amount.cap` is the same rule
as one formula over the rationals, monotone and near to the number it is applied to. The text that the digits give is
the canonical text of that formula (`Exact.amountText_canonical`).
-/

namespace ExactCalc

open Text

namespace Amount

variable {places : Nat} {w x y : Rat}

/-! ## The rule as a formula -/

/-- The number of units of the last place, where a tenth of a unit counts as one, with the sign of the number. -/
def cap (places : Nat) (w : Rat) : Rat := SignType.sign w * ⌊|w| * 10 ^ places + 9 / 10⌋ / 10 ^ places

theorem cap_of_nonneg (h : 0 ≤ w) : cap places w = ⌊w * 10 ^ places + 9 / 10⌋ / 10 ^ places := by
  rcases h.eq_or_lt with rfl | hpos
  · have hfloor : ⌊(0 : Rat) * 10 ^ places + 9 / 10⌋ = 0 := Int.floor_eq_iff.mpr ⟨by norm_num, by norm_num⟩
    rw [hfloor]
    simp [cap]
  · rw [cap, sign_pos hpos, abs_of_pos hpos]
    simp

theorem cap_neg (places : Nat) (w : Rat) : cap places (-w) = -cap places w := by
  rw [cap, cap, Left.sign_neg, abs_neg]
  push_cast
  ring

theorem cap_nonneg (places : Nat) (h : 0 ≤ w) : 0 ≤ cap places w := by
  have hfloor : 0 ≤ ⌊w * 10 ^ places + 9 / 10⌋ := Int.floor_nonneg.mpr (by positivity)
  have hcast : (0 : Rat) ≤ ⌊w * 10 ^ places + 9 / 10⌋ := by exact_mod_cast hfloor
  rw [cap_of_nonneg h]
  positivity

theorem cap_le_cap_of_nonneg (places : Nat) (hx : 0 ≤ x) (h : x ≤ y) : cap places x ≤ cap places y := by
  have hfloor : ⌊x * 10 ^ places + 9 / 10⌋ ≤ ⌊y * 10 ^ places + 9 / 10⌋ := by
    refine Int.floor_le_floor (add_le_add_left ?_ _)
    exact mul_le_mul_of_nonneg_right h (by positivity)
  have hcast : (⌊x * 10 ^ places + 9 / 10⌋ : Rat) ≤ ⌊y * 10 ^ places + 9 / 10⌋ := by exact_mod_cast hfloor
  rw [cap_of_nonneg hx, cap_of_nonneg (hx.trans h)]
  exact div_le_div_of_nonneg_right hcast (by positivity)

theorem cap_mono (places : Nat) : Monotone (cap places) := by
  intro x y h
  rcases le_total 0 x with hx | hx
  · exact cap_le_cap_of_nonneg places hx h
  rcases le_total 0 y with hy | hy
  · have hneg : 0 ≤ cap places (-x) := cap_nonneg places (neg_nonneg.mpr hx)
    rw [cap_neg, Left.nonneg_neg_iff] at hneg
    exact hneg.trans (cap_nonneg places hy)
  · have hneg := cap_le_cap_of_nonneg places (neg_nonneg.mpr hy) (neg_le_neg h)
    rw [cap_neg, cap_neg] at hneg
    exact neg_le_neg_iff.mp hneg

theorem abs_cap_sub_le_of_nonneg (places : Nat) (h : 0 ≤ w) : |cap places w - w| ≤ 9 / 10 / 10 ^ places := by
  have hpos : (0 : Rat) < 10 ^ places := by positivity
  have hle := Int.floor_le (w * 10 ^ places + 9 / 10)
  have hlt := Int.lt_floor_add_one (w * 10 ^ places + 9 / 10)
  have hdist : cap places w - w = (⌊w * 10 ^ places + 9 / 10⌋ - w * 10 ^ places) / 10 ^ places := by
    rw [cap_of_nonneg h]
    field_simp
  rw [hdist, abs_div, abs_of_pos hpos]
  refine div_le_div_of_nonneg_right ?_ hpos.le
  rw [abs_le]
  constructor <;> linarith

theorem abs_cap_sub_le (places : Nat) (w : Rat) : |cap places w - w| ≤ 9 / 10 / 10 ^ places := by
  rcases le_total 0 w with h | h
  · exact abs_cap_sub_le_of_nonneg places h
  · have hneg := abs_cap_sub_le_of_nonneg places (neg_nonneg.mpr h)
    rwa [cap_neg, ← neg_sub', abs_neg] at hneg

theorem cap_of_mul_pow {n : Int} (h : w * 10 ^ places = n) : cap places w = w := by
  have habs : |w| * 10 ^ places = (|n| : Int) := by
    rw [Int.cast_abs, ← h, abs_mul, abs_of_pos (by positivity : (0 : Rat) < 10 ^ places)]
  have hfloor : ⌊((|n| : Int) : Rat) + 9 / 10⌋ = |n| := Int.floor_eq_iff.mpr ⟨by linarith, by linarith⟩
  rw [cap, habs, hfloor, ← habs, ← mul_assoc, sign_mul_abs]
  field_simp

/-! ## The rule on digits -/

section
variable {whole fraction : List Char}

theorem floor_next_digit {k v : Nat} {t : Rat} (hv : v < 10) (ht : 0 ≤ t) (hlt : t < 1 / 10) :
    ⌊(k : Rat) + v / 10 + t + 9 / 10⌋ = ((if v = 0 then k else k + 1 : Nat) : Int) := by
  have hle : (v : Rat) ≤ 9 := by exact_mod_cast Nat.le_of_lt_succ hv
  split_ifs with hzero
  · rw [hzero, Int.floor_eq_iff]
    push_cast
    constructor <;> linarith
  · have hone : (1 : Rat) ≤ v := by exact_mod_cast Nat.one_le_iff_ne_zero.mpr hzero
    rw [Int.floor_eq_iff]
    push_cast
    constructor <;> linarith

/-- The digits up to the last place, with one added to them unless the next digit is zero. -/
theorem floor_digits (whole : List Char) (hf : Digits fraction) (hlt : places < fraction.length) :
    ⌊(natOfDigits (whole ++ fraction) : Rat) / 10 ^ fraction.length * 10 ^ places + 9 / 10⌋ =
      ((if fraction[places]? = some '0' then natOfDigits (whole ++ fraction.take places)
        else natOfDigits (whole ++ fraction.take places) + 1 : Nat) : Int) := by
  set kept := fraction.take places with hkept
  set rest := fraction.drop (places + 1) with hrest
  have hdigit : isAsciiDigit fraction[places] = true := hf _ (List.getElem_mem hlt)
  have hsplit : fraction = kept ++ ([fraction[places]] ++ rest) := by
    rw [List.singleton_append, List.getElem_cons_drop, List.take_append_drop]
  have hlen : fraction.length = places + (1 + rest.length) := by
    rw [hrest, List.length_drop]
    omega
  have hrestdigits : Digits rest := fun c hc => hf c (List.mem_of_mem_drop hc)
  have hpow : (0 : Rat) < 10 ^ rest.length := by positivity
  have hvalue : (natOfDigits (whole ++ fraction) : Rat) / 10 ^ fraction.length * 10 ^ places =
      natOfDigits (whole ++ kept) + (natOfDigits [fraction[places]] : Nat) / 10 +
        natOfDigits rest / 10 ^ (1 + rest.length) := by
    have hdigits : natOfDigits (whole ++ fraction) =
        natOfDigits (whole ++ kept) * 10 ^ (1 + rest.length) +
          (natOfDigits [fraction[places]] * 10 ^ rest.length + natOfDigits rest) := by
      conv_lhs => rw [hsplit]
      rw [← List.append_assoc, natOfDigits_append, natOfDigits_append [_], List.length_append, List.length_singleton]
    rw [hdigits, hlen]
    push_cast
    rw [pow_add, pow_add]
    field_simp
    ring
  have hsmall : (natOfDigits rest : Rat) / 10 ^ (1 + rest.length) < 1 / 10 := by
    have hcast : (natOfDigits rest : Rat) < 10 ^ rest.length := by exact_mod_cast hrestdigits.natOfDigits_lt
    rw [pow_add, div_lt_div_iff₀ (by positivity) (by norm_num)]
    linarith
  rw [hvalue, floor_next_digit (natOfDigits_singleton_lt hdigit) (by positivity) hsmall]
  simp only [natOfDigits_singleton_eq_zero_iff hdigit, List.getElem?_eq_getElem hlt, Option.some.injEq]

theorem dropFinalZeros_eq (cs : List Char) : dropFinalZeros cs = cs.rdropWhile (· == '0') := rfl

theorem digits_dropFinalZeros {cs : List Char} (h : Digits cs) : Digits (dropFinalZeros cs) :=
  fun c hc => h c ((List.rdropWhile_prefix _ _).subset hc)

theorem length_dropFinalZeros_le (cs : List Char) : (dropFinalZeros cs).length ≤ cs.length :=
  (List.rdropWhile_prefix _ _).length_le

theorem getLast?_dropFinalZeros_ne (cs : List Char) : (dropFinalZeros cs).getLast? ≠ some '0' := by
  intro h
  obtain ⟨init, hinit⟩ := List.getLast?_eq_some_iff.mp h
  have hne : dropFinalZeros cs ≠ [] := by simp [hinit]
  have hlast : ¬ ((dropFinalZeros cs).getLast hne == '0') = true := List.rdropWhile_last_not (· == '0') cs hne
  simp [hinit] at hlast

theorem padded_spec {n : Nat} (hn : 0 < n) (h : n < 10 ^ places) :
    Digits (List.replicate (places - (digitsOfNat n).length) '0' ++ digitsOfNat n) ∧
      (List.replicate (places - (digitsOfNat n).length) '0' ++ digitsOfNat n).length = places ∧
      natOfDigits (List.replicate (places - (digitsOfNat n).length) '0' ++ digitsOfNat n) = n := by
  refine ⟨List.forall_mem_append.mpr ⟨fun c hc => ?_, Decimal.digits_digitsOfNat n⟩, ?_, ?_⟩
  · obtain rfl := (List.mem_replicate.mp hc).2
    decide
  · have hplaces : 0 < places := by
      rcases Nat.eq_zero_or_pos places with rfl | hpos
      · omega
      · exact hpos
    have hshort : (digitsOfNat n).length ≤ places := Nat.toDigits_length 10 _ _ hplaces h
    rw [List.length_append, List.length_replicate]
    omega
  · rw [natOfDigits_append, natOfDigits_replicate_zero, Nat.zero_mul, Nat.zero_add, natOfDigits_digitsOfNat]

theorem capDigits_spec (hw : whole = digitsOfNat (natOfDigits whole)) (hf : Digits fraction)
    (hlt : places < fraction.length) :
    ∃ kept after, capDigits whole fraction places = (kept, after) ∧ kept = digitsOfNat (natOfDigits kept) ∧
      Digits after ∧ after.getLast? ≠ some '0' ∧ after.length ≤ places ∧
      (natOfDigits (kept ++ after) : Rat) / 10 ^ after.length =
        ⌊(natOfDigits (whole ++ fraction) : Rat) / 10 ^ fraction.length * 10 ^ places + 9 / 10⌋ / 10 ^ places := by
  have hlen : (fraction.take places).length = places := List.length_take_of_le hlt.le
  have hkept : Digits (fraction.take places) := fun c hc => hf c (List.mem_of_mem_take hc)
  rw [floor_digits whole hf hlt]
  simp only [capDigits]
  split_ifs with hnext hcarry
  · refine ⟨whole, _, rfl, hw, digits_dropFinalZeros hkept, getLast?_dropFinalZeros_ne _,
      (length_dropFinalZeros_le _).trans hlen.le, ?_⟩
    rw [dropFinalZeros_eq, natOfDigits_rdropWhile, hlen]
    rfl
  · -- the last places were all nines
    have hfull : natOfDigits (fraction.take places) + 1 = 10 ^ places := by
      have hsmall := hkept.natOfDigits_lt
      rw [hlen] at hsmall
      have hle : 10 ^ places ≤ natOfDigits (fraction.take places) + 1 := hcarry
      omega
    refine ⟨_, [], rfl, by rw [natOfDigits_digitsOfNat], by simp [Digits], by simp, Nat.zero_le _, ?_⟩
    rw [List.append_nil, natOfDigits_digitsOfNat, natOfDigits_append, hlen, Nat.add_assoc, hfull, List.length_nil]
    push_cast
    field_simp
  · obtain ⟨hdigits, hpadlen, hvalue⟩ := padded_spec (Nat.succ_pos _) (Nat.lt_of_not_le hcarry)
    refine ⟨whole, _, rfl, hw, digits_dropFinalZeros hdigits, getLast?_dropFinalZeros_ne _,
      (length_dropFinalZeros_le _).trans hpadlen.le, ?_⟩
    rw [dropFinalZeros_eq, natOfDigits_rdropWhile, natOfDigits_append whole, natOfDigits_append whole, hpadlen, hvalue,
      hlen, Nat.add_assoc]
    rfl

/-- Canonical digits stand for zero only if there is nothing but zeros before the point, and nothing after it. -/
theorem all_zero_iff (hw : Digits whole) (hf : Digits fraction) (hlast : fraction.getLast? ≠ some '0') :
    (whole.all (· == '0') && fraction.isEmpty) = decide (natOfDigits (whole ++ fraction) = 0) := by
  have hdigits : Digits (whole ++ fraction) := List.forall_mem_append.mpr ⟨hw, hf⟩
  have hempty : (∀ c ∈ fraction, c = '0') ↔ fraction = [] := by
    constructor
    · intro h
      by_contra hne
      have hmem := List.getLast_mem hne
      exact hlast (by rw [List.getLast?_eq_some_getLast hne, h _ hmem])
    · rintro rfl
      simp
  rw [Bool.eq_iff_iff, decide_eq_true_eq, hdigits.natOfDigits_eq_zero_iff, List.forall_mem_append, hempty]
  simp

theorem capChars_plainChars {negative : Bool} (hw : Digits whole) :
    capChars (plainChars negative whole fraction) places =
      if fraction.length ≤ places then plainChars negative whole fraction
      else
        plainChars
          (negative && !((capDigits whole fraction places).1.all (· == '0') &&
            (capDigits whole fraction places).2.isEmpty))
          (capDigits whole fraction places).1 (capDigits whole fraction places).2 := by
  simp only [capChars, head?_plainChars hw, body_plainChars, takeWhile_point hw, dropWhile_point hw, tail_point]
  simp only [plainChars, List.isEmpty_iff]

/-- A canonical spelling is cut to a canonical spelling of what the formula gives. -/
theorem exists_capChars {negative : Bool} (hc : IsCanonical negative whole fraction) (places : Nat) :
    ∃ sign kept after, IsCanonical sign kept after ∧ after.length ≤ places ∧
      capChars (plainChars negative whole fraction) places = plainChars sign kept after ∧
      (signedDigits sign (kept ++ after) : Rat) / 10 ^ after.length =
        cap places (signedDigits negative (whole ++ fraction) / 10 ^ fraction.length) := by
  have hw := digits_of_eq_digitsOfNat hc.whole_eq
  rw [capChars_plainChars hw]
  split_ifs with hle
  · refine ⟨negative, whole, fraction, hc, hle, rfl, ?_⟩
    obtain ⟨k, hk⟩ := Nat.exists_eq_add_of_le hle
    refine (cap_of_mul_pow (n := signedDigits negative (whole ++ fraction) * 10 ^ k) ?_).symm
    rw [hk, pow_add]
    push_cast
    field_simp
  · obtain ⟨kept, after, hcap, hkept, hafter, hlast, hlen, hvalue⟩ :=
      capDigits_spec hc.whole_eq hc.digits (Nat.lt_of_not_le hle)
    rw [hcap]
    simp only [all_zero_iff (digits_of_eq_digitsOfNat hkept) hafter hlast]
    refine ⟨_, kept, after, ⟨hkept, hafter, hlast, ?_⟩, hlen, rfl, ?_⟩
    · simp
    · rw [signedDigits_div, signedDigits_div]
      cases negative with
      | false =>
        rw [if_neg (by simp), if_neg (by simp), cap_of_nonneg (by positivity), hvalue]
      | true =>
        rw [if_pos rfl, cap_neg, cap_of_nonneg (by positivity), ← hvalue]
        split_ifs with hsign
        · rfl
        · have hzero : natOfDigits (kept ++ after) = 0 := by simpa using hsign
          rw [hzero]
          simp

end

end Amount

/-! ## Amounts of exact values -/

namespace Exact

/-- The number of digits after the point to which an exact value is rounded first. -/
def roundingPlaces (policy : AmountPolicy) : Exact → Nat
  | decimal _ => policy.workingPlaces
  | rational _ => rationalPlaces

theorem toRat_working (v : Exact) (policy : AmountPolicy) :
    (v.working policy).toRat = policy.mode.atPlaces (v.roundingPlaces policy) v.toRat := by
  cases v with
  | decimal d => exact d.toRat_round _ _
  | rational r => exact Decimal.toRat_ofRat r _ (by decide)

/-- The number that the text of an amount stands for. -/
def amount (v : Exact) (policy : AmountPolicy) : Rat := Amount.cap policy.amountPlaces (v.working policy).toRat

theorem exists_amountText (v : Exact) (policy : AmountPolicy) :
    ∃ sign whole fraction, IsCanonical sign whole fraction ∧ fraction.length ≤ policy.amountPlaces ∧
      (v.amountText policy).toList = plainChars sign whole fraction ∧
      v.amount policy = signedDigits sign (whole ++ fraction) / 10 ^ fraction.length := by
  obtain ⟨whole, fraction, hc, hlen, hchars, hsigned⟩ := (v.working policy).exists_isCanonical
  obtain ⟨sign, kept, after, hc', hlen', hchars', hvalue⟩ := Amount.exists_capChars hc policy.amountPlaces
  refine ⟨sign, kept, after, hc', hlen', ?_, ?_⟩
  · rw [amountText, String.toList_ofList, hchars, hchars']
  · rw [amount, hvalue, hsigned, hlen, ← Decimal.toRat_eq]

theorem isCanonicalText_amountText (v : Exact) (policy : AmountPolicy) :
    IsCanonicalText (v.amountText policy).toList (v.amount policy) := by
  obtain ⟨sign, whole, fraction, hc, -, hchars, hvalue⟩ := v.exists_amountText policy
  exact ⟨sign, whole, fraction, hc, hchars, hvalue⟩

theorem fractionDigits_amountText_le (v : Exact) (policy : AmountPolicy) :
    fractionDigits (v.amountText policy) ≤ policy.amountPlaces := by
  obtain ⟨sign, whole, fraction, hc, hlen, hchars, -⟩ := v.exists_amountText policy
  rwa [fractionDigits_of_plainChars (digits_of_eq_digitsOfNat hc.whole_eq).isDigit hchars]

/-- The text of an amount is the canonical one of the rounded value, with every part of a unit of the last place counted
as one unit from a tenth on. -/
theorem amountText_canonical (v : Exact) (policy : AmountPolicy) :
    let w := policy.mode.atPlaces (v.roundingPlaces policy) v.toRat
    (v.working policy).toRat = w ∧
      IsCanonicalText (v.amountText policy).toList (Amount.cap policy.amountPlaces w) ∧
      fractionDigits (v.amountText policy) ≤ policy.amountPlaces ∧
      |Amount.cap policy.amountPlaces w - w| ≤ 9 / 10 / 10 ^ policy.amountPlaces ∧
      Monotone (Amount.cap policy.amountPlaces) := by
  refine ⟨v.toRat_working policy, ?_, v.fractionDigits_amountText_le policy, Amount.abs_cap_sub_le _ _,
    Amount.cap_mono _⟩
  rw [← v.toRat_working]
  exact v.isCanonicalText_amountText policy

end Exact

/-- Every number but an amount as written has the amount of its exact value. -/
theorem Number.amountText_eq_map {n : Number} (hn : ∀ s, n ≠ amount s) (policy : AmountPolicy) :
    n.amountText policy = n.toExact.map (·.amountText policy) := by
  cases n with
  | amount s => exact absurd rfl (hn s)
  | decimal d | rational r | numeral s => rfl

end ExactCalc
