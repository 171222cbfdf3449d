import Mathlib
import ExactCalc.Proofs.Expr.Evaluation
import ExactCalc.Proofs.Expr.Grouping
import ExactCalc.Proofs.Number.Recurring
import ExactCalc.Proofs.Rational.Digits

/-!
# Numbers as they are written

What is written for a number is a literal, read again with the same exact value (`literal_spec` for what can be read
as a decimal, `numberOf_exactRatText` for a rational), unless the period of a rational is too long to be written: then
its text is cut, and still a literal (`isLiteral_ratText`).
-/

namespace ExactCalc

open Text

/-! ## Decimals -/

theorem isLiteral_of_ofText? {s : String} {d : Decimal} (h : Decimal.ofText? s = some d) : IsLiteral s := by
  obtain ⟨negative, whole, fraction, hw, hf, hne, hs, -⟩ := Decimal.exists_plain_of_ofChars? h
  obtain ⟨ps, hbody⟩ : ∃ ps, Token.Unsigned (whole ++ if fraction = [] then [] else '.' :: fraction) ps := by
    by_cases hfraction : fraction = []
    · rw [if_pos hfraction, List.append_nil]
      exact ⟨_, .whole hw.isDigit (hne.resolve_right (by simpa using hfraction))⟩
    rw [if_neg hfraction]
    by_cases hwhole : whole = []
    · rw [hwhole]
      exact ⟨_, .fraction hf.isDigit hfraction⟩
    · exact ⟨_, .decimal hw hwhole hf.isDigit hfraction⟩
  refine isLiteral_of_unsigned hbody ?_ ?_ ?_
  · rw [hs]
    cases negative with
    | false => exact .inl rfl
    | true => exact .inr rfl
  · rw [hs]
    exact ascii_plainChars hw hf
  · rcases Number.ofText_of_ofText? h with hn | hn <;> exact ⟨_, hn⟩

theorem numberOf_of_ofText? {s : String} {d : Decimal} (h : Decimal.ofText? s = some d) :
    (numberOf s).IsReadable ∧ (numberOf s).worth = d.toRat ∧ (numberOf s).decimalScale = d.scale := by
  have hliteral := isLiteral_of_ofText? h
  rcases Number.ofText_of_ofText? h with hn | hn <;> rw [hliteral.numberOf_eq hn] <;>
    simp [Number.IsReadable, Number.worth, Number.decimalScale, h]

theorem literal_spec {s : String} {d : Decimal} (h : Decimal.ofText? s = some d) :
    IsNumeral s ∧ (Expr.number (numberOf s)).HasValue d.toRat ∧ (Expr.number (numberOf s)).scaleSum = d.scale := by
  obtain ⟨hread, hworth, hscale⟩ := numberOf_of_ofText? h
  refine ⟨(isLiteral_of_ofText? h).isNumeral, ?_, ?_⟩
  · rw [← hworth]
    exact Expr.hasValue_number hread
  · simpa [Expr.scaleSum, Expr.leaves] using hscale

/-! ## Rationals -/

section
variable {r : Rat}

/-- A fraction with the value of the numerator over the denominator is the rational, once it has its sign. -/
theorem signed_div_eq {m p : Nat} (hp : 0 < p) (h : m * r.den = r.num.natAbs * p) :
    (if r.num < 0 then -((m : Rat) / p) else (m : Rat) / p) = r := by
  have hden : (r.den : Rat) ≠ 0 := Nat.cast_ne_zero.mpr r.den_ne_zero
  have hp' : (p : Rat) ≠ 0 := Nat.cast_ne_zero.mpr hp.ne'
  have hmag : (m : Rat) / p = (r.num.natAbs : Rat) / r.den := by
    rw [div_eq_div_iff hp' hden]
    exact_mod_cast h
  have hr := Rat.num_div_den r
  rw [hmag, Nat.cast_natAbs]
  by_cases hneg : r.num < 0
  · rw [if_pos hneg, abs_of_neg hneg, Int.cast_neg, neg_div, neg_neg, hr]
  · rw [if_neg hneg, abs_of_nonneg (by omega), hr]

def wholePart (r : Rat) : Nat := r.num.natAbs / r.den

theorem wholePart_mul_add (r : Rat) : wholePart r * r.den + r.num.natAbs % r.den = r.num.natAbs :=
  Nat.div_add_mod' _ _

theorem expands_ofRat (r : Rat) : Expansion.Expands r.den (r.num.natAbs % r.den) (Expansion.ofRat r) :=
  Expansion.expands_divide (Nat.mod_lt _ r.den_pos) .nil (by simp)

theorem natOfDigits_whole (r : Rat) (ds : List Nat) :
    natOfDigits (digitsOfNat (wholePart r) ++ Expansion.digitChars ds) =
      wholePart r * 10 ^ ds.length + Expansion.value ds := by
  rw [natOfDigits_append, natOfDigits_digitsOfNat, Expansion.length_digitChars]
  rfl

theorem ratChars_eq (r : Rat) :
    ratChars r = (if decide (r.num < 0) then ['-'] else []) ++
      (digitsOfNat (wholePart r) ++ (Expansion.ofRat r).toChars) := by
  simp [ratChars, wholePart]

theorem toChars_finite (ds : List Nat) : (Expansion.finite ds).toChars =
    if Expansion.digitChars ds = [] then [] else '.' :: Expansion.digitChars ds := by
  cases ds <;> rfl

/-- An expansion that ends is written as the decimal of the same value. -/
theorem ofText?_ratText_of_finite {ds : List Nat} (h : Expansion.ofRat r = .finite ds) :
    ∃ d, Decimal.ofText? (ratText r) = some d ∧ d.toRat = r ∧ d.scale ≤ Expansion.digitLimit := by
  have hexp := expands_ofRat r
  rw [h] at hexp
  obtain ⟨hdigits, hlen, heq⟩ := hexp
  have hlimit : (Expansion.digitChars ds).length < Decimal.scaleLimit := by
    rw [Expansion.length_digitChars]
    exact hlen.trans_lt (by decide)
  have hchars : ratChars r =
      plainChars (decide (r.num < 0)) (digitsOfNat (wholePart r)) (Expansion.digitChars ds) := by
    rw [ratChars_eq, h, toChars_finite, plainChars]
  refine ⟨_, by rw [Decimal.ofText?, ratText, String.toList_ofList, hchars, Decimal.ofChars?_plainChars
    (Decimal.digits_digitsOfNat _) (Expansion.digits_digitChars hdigits) (.inl Nat.toDigits_ne_nil) hlimit], ?_, ?_⟩
  · have hvalue : (wholePart r * 10 ^ ds.length + Expansion.value ds) * r.den = r.num.natAbs * 10 ^ ds.length := by
      rw [← wholePart_mul_add r, Nat.add_mul, Nat.add_mul, heq]
      ring
    have hsigned := signed_div_eq (by positivity) hvalue
    rw [Nat.cast_pow, Nat.cast_ofNat] at hsigned
    rw [Decimal.toRat_ofScaled, signedDigits_div, natOfDigits_whole, Expansion.length_digitChars]
    simpa using hsigned
  · refine (Decimal.scale_ofScaled_le _ _ hlimit).trans ?_
    rwa [Expansion.length_digitChars]

/-! ### Expansions that are cut -/

/-- The text of a rational cut after a number of digits, without the zeros at its end. -/
def cutChars (r : Rat) (n : Nat) : List Char :=
  plainChars (decide (r < 0)) (digitsOfNat ⌊|r|⌋₊)
    ((Expansion.digitChars ((List.range n).map (fractionDigit r))).rdropWhile (· == '0'))

theorem ratText_of_cut {ds : List Nat} (h : Expansion.ofRat r = .cut ds) :
    ratText r = String.ofList (cutChars r Expansion.cutLength) := by
  have htake : ds.take Expansion.cutLength = (List.range Expansion.cutLength).map (fractionDigit r) := by
    rw [Expansion.ofRat_eq_cut h, ← List.map_take, List.take_range]
    rfl
  obtain ⟨kept, hkept⟩ : ∃ kept, (Expansion.digitChars (ds.take Expansion.cutLength)).rdropWhile (· == '0') = kept :=
    ⟨_, rfl⟩
  have htext : (Expansion.cut ds).toChars = if kept = [] then [] else '.' :: kept := by
    rw [List.rdropWhile] at hkept
    rw [Expansion.toChars, hkept]
    cases kept <;> rfl
  rw [ratText, ratChars_eq, h, htext, cutChars, ← htake, hkept, plainChars, floor_abs,
    decide_eq_decide.mpr Rat.num_neg]
  rfl

theorem exists_ofChars?_rdropWhile (negative : Bool) {whole fraction : List Char} (hw : Digits whole)
    (hne : whole ≠ []) (hf : Digits fraction) (hlen : fraction.length < Decimal.scaleLimit) :
    ∃ d, Decimal.ofChars? (plainChars negative whole (fraction.rdropWhile (· == '0'))) = some d ∧
      d.toRat = (signedDigits negative (whole ++ fraction) : Rat) / 10 ^ fraction.length := by
  have hdigits : Digits (fraction.rdropWhile (· == '0')) := fun c hc => hf c ((List.rdropWhile_prefix _ _).subset hc)
  have hshort : (fraction.rdropWhile (· == '0')).length < Decimal.scaleLimit :=
    (List.rdropWhile_prefix _ _).length_le.trans_lt hlen
  refine ⟨_, Decimal.ofChars?_plainChars hw hdigits (.inl hne) hshort, ?_⟩
  rw [Decimal.toRat_ofScaled, signedDigits_div, signedDigits_div, natOfDigits_rdropWhile]

theorem towardZero_eq (x : Rat) : towardZero x = if x < 0 then -(⌊|x|⌋₊ : Int) else (⌊|x|⌋₊ : Int) := by
  rw [Int.natCast_floor_eq_floor (abs_nonneg x)]
  split_ifs with h
  · rw [towardZero, if_neg h.not_ge, abs_of_neg h, Int.floor_neg, neg_neg]
  · rw [towardZero, if_pos (not_lt.mp h), abs_of_nonneg (not_lt.mp h)]

/-- A text that is cut stands for the rational truncated toward zero. -/
theorem ofText?_cutChars (r : Rat) {n : Nat} (hn : n < Decimal.scaleLimit) :
    ∃ d, Decimal.ofText? (String.ofList (cutChars r n)) = some d ∧
      d.toRat = (towardZero (r * 10 ^ n) : Rat) / 10 ^ n := by
  have hlen : (Expansion.digitChars ((List.range n).map (fractionDigit r))).length = n := by
    rw [Expansion.length_digitChars, List.length_map, List.length_range]
  have hdigits : ∀ d ∈ (List.range n).map (fractionDigit r), d < 10 := by
    intro d hd
    obtain ⟨i, -, rfl⟩ := List.mem_map.mp hd
    exact fractionDigit_lt r i
  obtain ⟨d, hd, hvalue⟩ := exists_ofChars?_rdropWhile (decide (r < 0)) (Decimal.digits_digitsOfNat ⌊|r|⌋₊)
    Nat.toDigits_ne_nil (Expansion.digits_digitChars hdigits) (hlen.trans_lt hn)
  refine ⟨d, by rw [Decimal.ofText?, String.toList_ofList, cutChars, hd], ?_⟩
  have hten : (0 : Rat) < 10 ^ n := by positivity
  have hneg : r * 10 ^ n < 0 ↔ r < 0 := by
    rw [mul_neg_iff]
    exact ⟨fun h => h.elim (fun h => absurd h.2 hten.not_gt) And.left, fun h => .inr ⟨h, hten⟩⟩
  rw [hvalue, hlen, signedDigits, natOfDigits_fractionDigits, towardZero_eq, abs_mul, abs_of_pos hten]
  simp only [decide_eq_true_eq, hneg]

/-! ### Periods -/

/-- The parts of a rational, with the digits after the point of an expansion that repeats. -/
def recurringParts (r : Rat) (fs ps : List Nat) : Recurring :=
  ⟨decide (r.num < 0), digitsOfNat (wholePart r), Expansion.digitChars fs, Expansion.digitChars ps⟩

section
variable {t : Recurring} {v : Rat}

theorem spells_toChars (t : Recurring) : t.Spells (String.ofList t.toChars).toList := by
  rw [String.toList_ofList]
  exact .enclosed (.inl ⟨rfl, rfl⟩) (.inl rfl)

theorem ofText_period (h : t.IsProper) (hv : t.value? = some v) :
    Number.ofText (String.ofList t.toChars) = .ok (.rational v) :=
  Recurring.ofText_of_value? h (spells_toChars t) hv

theorem isLiteral_period (h : t.IsProper) (hv : t.value? = some v) : IsLiteral (String.ofList t.toChars) := by
  have hbody : Token.Unsigned (t.whole ++ '.' :: (t.fixed ++ '(' :: (t.period ++ [')']))) _ :=
    .period h.whole h.whole_ne h.fixed h.period h.period_ne (.inl ⟨rfl, rfl⟩) (.inl rfl)
  refine isLiteral_of_unsigned hbody ?_ ?_ ⟨_, ofText_period h hv⟩
  · rw [String.toList_ofList, Recurring.toChars]
    cases t.negative with
    | false => exact .inl rfl
    | true => exact .inr rfl
  · rw [String.toList_ofList, Recurring.toChars]
    have hsign : ∀ c ∈ (if t.negative then ['-'] else []), c.toNat < 128 := by cases t.negative <;> simp
    simp only [List.forall_mem_append, List.forall_mem_cons]
    exact ⟨hsign, h.whole.ascii, by decide, h.fixed.ascii, by decide, h.period.ascii, by decide, by simp⟩

end

theorem isProper_recurringParts {fs ps : List Nat} (h : Expansion.ofRat r = .recurring fs ps) :
    (recurringParts r fs ps).IsProper := by
  have hexp := expands_ofRat r
  rw [h] at hexp
  obtain ⟨hdigits, -, hpne, -⟩ := hexp
  obtain ⟨hfs, hps⟩ := List.forall_mem_append.mp hdigits
  exact ⟨Decimal.digits_digitsOfNat _, Nat.toDigits_ne_nil, Expansion.digits_digitChars hfs,
    Expansion.digits_digitChars hps, by simpa [recurringParts, Expansion.digitChars] using hpne⟩

theorem fits_recurringParts {fs ps : List Nat} (h : Expansion.ofRat r = .recurring fs ps) :
    (recurringParts r fs ps).Fits := by
  have hexp := expands_ofRat r
  rw [h] at hexp
  obtain ⟨-, hlen, -⟩ := hexp
  have hlimit : Expansion.digitLimit < Decimal.scaleLimit := by decide
  rw [List.length_append] at hlen
  rw [Recurring.Fits, recurringParts, Expansion.length_digitChars, Expansion.length_digitChars]
  omega

/-- The digits up to the end of a period and those before it, as numbers, differ by the numerator of the rational
over a power of ten less one. -/
theorem exists_period {fs ps : List Nat} (h : Expansion.ofRat r = .recurring fs ps) :
    ∃ m, wholePart r * 10 ^ (fs ++ ps).length + Expansion.value (fs ++ ps) =
        (wholePart r * 10 ^ fs.length + Expansion.value fs) + m ∧
      m * r.den = r.num.natAbs * (10 ^ fs.length * (10 ^ ps.length - 1)) := by
  have hexp := expands_ofRat r
  rw [h] at hexp
  obtain ⟨-, -, -, x, hfixed, hall⟩ := hexp
  obtain ⟨p, hp⟩ : ∃ p, 10 ^ ps.length = p + 1 := Nat.exists_eq_succ_of_ne_zero (by positivity)
  -- both times the same remainder is left
  have hleft : ∀ ds : List Nat, r.num.natAbs % r.den * 10 ^ ds.length = Expansion.value ds * r.den + x →
      (wholePart r * 10 ^ ds.length + Expansion.value ds) * r.den + x = r.num.natAbs * 10 ^ ds.length := by
    intro ds hds
    conv_rhs => rw [← wholePart_mul_add r, Nat.add_mul, hds]
    ring
  have hshort := hleft fs hfixed
  have hlong := hleft (fs ++ ps) hall
  set a := wholePart r * 10 ^ fs.length + Expansion.value fs
  set b := wholePart r * 10 ^ (fs ++ ps).length + Expansion.value (fs ++ ps)
  have hdiff : b * r.den = a * r.den + r.num.natAbs * (10 ^ fs.length * p) := by
    rw [List.length_append, pow_add, hp] at hlong
    have hexpand : r.num.natAbs * (10 ^ fs.length * (p + 1)) =
        r.num.natAbs * 10 ^ fs.length + r.num.natAbs * (10 ^ fs.length * p) := by ring
    omega
  have hle : a ≤ b := Nat.le_of_mul_le_mul_right (by omega) r.den_pos
  obtain ⟨m, hm⟩ := Nat.exists_eq_add_of_le hle
  refine ⟨m, hm, ?_⟩
  rw [hm, Nat.add_mul] at hdiff
  rw [hp, Nat.add_sub_cancel]
  omega

theorem value?_recurringParts {fs ps : List Nat} (h : Expansion.ofRat r = .recurring fs ps) :
    (recurringParts r fs ps).value? = some r := by
  obtain ⟨m, hm, hvalue⟩ := exists_period h
  have hproper := isProper_recurringParts h
  have hempty : (Expansion.digitChars ps).isEmpty = false := List.isEmpty_eq_false_iff.mpr hproper.period_ne
  have hpos : 0 < 10 ^ fs.length * (10 ^ ps.length - 1) := by
    have hne : (Expansion.digitChars ps).length ≠ 0 := fun hlen =>
      hproper.period_ne (List.eq_nil_of_length_eq_zero hlen)
    rw [Expansion.length_digitChars] at hne
    have hlt : 1 < 10 ^ ps.length := Nat.one_lt_pow hne (by decide)
    exact Nat.mul_pos (by positivity) (by omega)
  have hmagnitude : (recurringParts r fs ps).magnitude = (m : Rat) / (10 ^ fs.length * (10 ^ ps.length - 1) : Nat) := by
    have hdiff :
        ((natOfDigits (digitsOfNat (wholePart r) ++ Expansion.digitChars fs ++ Expansion.digitChars ps) : Int) -
        natOfDigits (digitsOfNat (wholePart r) ++ Expansion.digitChars fs)) = m := by
      rw [List.append_assoc, ← Expansion.digitChars_append, natOfDigits_whole, natOfDigits_whole, hm]
      push_cast
      ring
    simp only [recurringParts, Recurring.magnitude, hempty, Bool.false_eq_true, if_false, Expansion.length_digitChars]
    rw [hdiff, Rat.mkRat_eq_div]
    rfl
  have hsigned := signed_div_eq hpos hvalue
  rw [Recurring.value?_eq hproper, if_pos (fits_recurringParts h), ← Recurring.value_eq_sum hproper.period_ne,
    Recurring.value, hmagnitude]
  simpa [recurringParts] using hsigned

theorem isExact_iff_exactRatText? {s : String} :
    exactRatText? r = some s ↔ (Expansion.ofRat r).isExact = true ∧ ratText r = s := by
  rw [exactRatText?]
  split_ifs with h <;> simp [h]

theorem ratText_of_recurring {fs ps : List Nat} (h : Expansion.ofRat r = .recurring fs ps) :
    ratText r = String.ofList (recurringParts r fs ps).toChars := by
  rw [ratText, ratChars_eq, h]
  rfl

theorem ofText_ratText_of_recurring {fs ps : List Nat} (h : Expansion.ofRat r = .recurring fs ps) :
    Number.ofText (ratText r) = .ok (.rational r) := by
  rw [ratText_of_recurring h]
  exact ofText_period (isProper_recurringParts h) (value?_recurringParts h)

theorem isLiteral_ratText (r : Rat) : IsLiteral (ratText r) := by
  cases h : Expansion.ofRat r with
  | finite ds =>
    obtain ⟨d, hd, -⟩ := ofText?_ratText_of_finite h
    exact isLiteral_of_ofText? hd
  | recurring fs ps =>
    rw [ratText_of_recurring h]
    exact isLiteral_period (isProper_recurringParts h) (value?_recurringParts h)
  | cut ds =>
    obtain ⟨d, hd, -⟩ := ofText?_cutChars r (n := Expansion.cutLength) (by decide)
    rw [← ratText_of_cut h] at hd
    exact isLiteral_of_ofText? hd

theorem numberOf_exactRatText {s : String} (h : exactRatText? r = some s) :
    IsLiteral s ∧ (numberOf s).IsReadable ∧ (numberOf s).worth = r ∧
      (numberOf s).decimalScale ≤ Expansion.digitLimit := by
  obtain ⟨hexact, hs⟩ := isExact_iff_exactRatText?.mp h
  have hliteral : IsLiteral s := hs ▸ isLiteral_ratText r
  refine ⟨hliteral, ?_⟩
  cases hexp : Expansion.ofRat r with
  | finite ds =>
    obtain ⟨d, hd, hvalue, hle⟩ := ofText?_ratText_of_finite hexp
    rw [hs] at hd
    obtain ⟨hread, hworth, hscale⟩ := numberOf_of_ofText? hd
    exact ⟨hread, hworth.trans hvalue, hscale.trans_le hle⟩
  | recurring fs ps =>
    have hnumber := ofText_ratText_of_recurring hexp
    rw [hs] at hnumber
    rw [hliteral.numberOf_eq hnumber]
    exact ⟨trivial, rfl, Nat.zero_le _⟩
  | cut ds =>
    rw [hexp] at hexact
    simp [Expansion.isExact] at hexact

end

end ExactCalc
