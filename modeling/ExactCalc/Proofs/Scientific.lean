import Mathlib
import ExactCalc.Entry
import ExactCalc.Proofs.Decimal.Arithmetic
import ExactCalc.Proofs.Number.Conversion
import ExactCalc.Proofs.Number.Recurring
import ExactCalc.Proofs.Operand.Value

/-!
# Scientific notation

A number in scientific notation is its mantissa times a power of ten, without rounding (`Entry.read_scientific`). The
power is one that is shifted, so it has no digits after the point, or as many as the exponent says
(`Entry.Scientific.power?_eq`). The product is one of decimals, unless one side is zero or one and the other the result
(`Operand.exists_times_text`); there is one as long as the digits after the two points are no more than a decimal can
have. A mantissa with more of them is refused when it is asked for being zero.
-/

namespace ExactCalc

open Text

theorem Decimal.scale_le_of_shift? {d r : Decimal} {e : Int} (h : d.shift? e = some r) :
    r.scale ≤ d.scale + (-e).toNat := by
  unfold shift? at h
  split_ifs at h with hlarge hsign hscale
  · obtain rfl := Option.some.inj h
    have hle := scale_ofScaled_le (d.mantissa * (Nat.pow 10 (e.natAbs - d.scale) : Nat)) (d.scale - e.natAbs)
      (Nat.lt_of_le_of_lt (Nat.sub_le ..) d.scale_lt)
    omega
  · obtain rfl := Option.some.inj h
    have hle := scale_ofScaled_le d.mantissa (d.scale + e.natAbs) hscale
    omega

/-! ## A text times a decimal -/

namespace Operand

variable {s : String} {n : Number}

/-- A number as it is written times a decimal is a number, if the digits after the two points are no more than a decimal
can have. -/
theorem exists_times_text (hn : n = .amount s ∨ n = .numeral s) {d p : Decimal} (hd : Decimal.ofText? s = some d)
    (hscale : d.scale + p.scale < Decimal.scaleLimit) :
    ∃ m, (number n).apply .times (number (.decimal p)) = .ok (number m) ∧ m.IsReadable ∧
      m.worth = d.toRat * p.toRat := by
  have hread : n.IsReadable := by
    rcases hn with rfl | rfl <;> exact Option.isSome_iff_exists.mpr ⟨d, hd⟩
  have hworth : n.worth = d.toRat := by
    rcases hn with rfl | rfl <;> rw [Number.worth, hd] <;> rfl
  have hexact : n.exactFor .times = .ok (.decimal d) := by
    rcases hn with rfl | rfl <;> simp [Number.exactFor, Number.operandFor, Number.readAs, hd, Except.map,
      Number.toExact, Number.toDecimal, bind, Except.bind]
  have hleft : (number n).IsReadable := ⟨n, rfl, hread⟩
  have hright : (number (.decimal p)).IsReadable := ⟨.decimal p, rfl, trivial⟩
  obtain ⟨side, hside, hshort, -⟩ := hleft.exists_shortCircuit hright .times
  change ∃ m, reduce _ _ _ = _ ∧ _
  cases side with
  | some side =>
    have hproduct := (hshort side rfl).exact_eq
    rw [worth_eq rfl, worth_eq rfl, hworth] at hproduct
    rw [reduce_of_some hside]
    cases side with
    | left => exact ⟨n, rfl, hread, hworth.trans hproduct.symm⟩
    | right => exact ⟨.decimal p, rfl, trivial, hproduct.symm⟩
  | none =>
    have hdivides : Operation.times.divides = true → p.toRat ≠ 0 := by simp [Operation.divides]
    obtain ⟨c, hc, hproduct, -⟩ := Operation.onExact_decimals (by decide) hscale hdivides
    have hleft' : (number n).exactFor .times = .ok (.decimal d) := hexact
    have hright' : (number (.decimal p)).exactFor .times = .ok (.decimal p) := rfl
    rw [reduce_of_none hside, resolve_calculation hleft' hright', hc]
    exact ⟨.decimal c, rfl, trivial, hproduct⟩

theorem times_text_eq_error (hn : n = .amount s ∨ n = .numeral s) (hs : Decimal.ofText? s = none) (y : Operand) :
    (number n).apply .times y = .error (.unsupported s) := by
  have hzero : (number n).isZero = .error (.unsupported s) := by
    rcases hn with rfl | rfl <;> simp [isZero, resolve, Number.isZero, Number.toExact, Number.toDecimal, Number.readAs,
      hs, Except.map, bind, Except.bind]
  change reduce _ _ _ = _
  simp [reduce, shortCircuit, Operation.shortCircuit, hzero, bind, Except.bind]

end Operand

namespace Entry

def Scientific.chars (t : Scientific) : List Char :=
  t.mantissa ++ 'e' :: (if t.negative then '-' else '+') :: t.exponent

def Scientific.signedExponent (t : Scientific) : Int := signedDigits t.negative t.exponent

/-- The mantissa has this sign, these digits before its point and these after it, and the exponent has digits. -/
structure Scientific.Spells (t : Scientific) (negative : Bool) (whole fraction : List Char) : Prop where
  mantissa_eq : t.mantissa = plainChars negative whole fraction
  digits_whole : Digits whole
  whole_ne : whole ≠ []
  digits_fraction : Digits fraction
  digits_exponent : Digits t.exponent
  exponent_ne : t.exponent ≠ []

variable {t : Scientific} {negative : Bool} {whole fraction : List Char}

/-! ## The parts -/

theorem scientific?_chars (h : t.Spells negative whole fraction) : scientific? t.chars = some t := by
  obtain ⟨mantissa, negativeExponent, exponent⟩ := t
  obtain ⟨rfl : mantissa = plainChars negative whole fraction, hw, hne, hf, hk, hkne⟩ := h
  have hletter : isDigit 'e' = false := by decide
  have hmantissa : ∀ c ∈ plainChars negative whole fraction, decide (c ≠ 'e') = true := by
    intro c hc
    rw [decide_eq_true_eq]
    rintro rfl
    simpa [hletter] using isDigit_of_mem_plainChars hw.isDigit hf.isDigit 'e' hc
  have hstop : ∀ c ∈ ('e' :: (if negativeExponent then '-' else '+') :: exponent).head?, decide (c ≠ 'e') = false :=
    head?_cons_stop (by decide)
  have hpoint : ∀ c ∈ (if fraction = [] then [] else '.' :: fraction).head?, isDigit c = false := by
    intro c hc
    rw [head?_point fraction c hc]
    decide
  have hsign : ((plainChars negative whole fraction).head? == some '-') = negative := head?_plainChars hw
  have hhead : (plainChars negative whole fraction).head? = some '-' ↔ negative = true :=
    beq_iff_eq.symm.trans (by rw [hsign])
  simp only [scientific?, Scientific.chars, takeWhile_append_stop hmantissa hstop,
    dropWhile_append_stop hmantissa hstop, hhead, body_plainChars, takeWhile_append_stop hw.isDigit hpoint,
    dropWhile_append_stop hw.isDigit hpoint]
  have hdigits : (∀ c ∈ exponent, isDigit c = true) ∧ ∀ c ∈ fraction, isDigit c = true := ⟨hk.isDigit, hf.isDigit⟩
  have hkne' : exponent ≠ [] := hkne
  cases fraction with
  | nil => cases negativeExponent <;> simpa [hne, hkne'] using hdigits.1
  | cons d ds => cases negativeExponent <;> simpa [hne, hkne', and_comm] using hdigits

theorem Scientific.natAbs_signedExponent (t : Scientific) : t.signedExponent.natAbs = natOfDigits t.exponent := by
  rw [signedExponent, signedDigits]
  split_ifs <;> simp

theorem Scientific.power?_eq (hk : Digits t.exponent) :
    t.power? = if natOfDigits t.exponent ≤ 10000 then Decimal.one.shift? t.signedExponent else none := by
  simp only [power?, hk.areAsciiDigits, if_true]
  rfl

/-- The power of ten has no digits after the point, or as many as the exponent says. -/
theorem Scientific.exists_power? (hk : Digits t.exponent) (hle : natOfDigits t.exponent ≤ 10000) :
    ∃ p, t.power? = some p ∧ p.toRat = 10 ^ t.signedExponent ∧
      p.scale ≤ if t.negative then natOfDigits t.exponent else 0 := by
  have hscale : Decimal.one.scale = 0 := rfl
  have hone : Decimal.one.toRat = 1 := Decimal.toRat_ofInt 1
  have hlt : natOfDigits t.exponent < Decimal.scaleLimit := hle.trans_lt (by decide)
  have hsome : (Decimal.one.shift? t.signedExponent).isSome = true := by
    rw [Decimal.isSome_shift?_iff, hscale, t.natAbs_signedExponent, Nat.zero_add]
    exact ⟨hlt, .inr hlt⟩
  obtain ⟨p, hp⟩ := Option.isSome_iff_exists.mp hsome
  refine ⟨p, by rw [power?_eq hk, if_pos hle, hp], ?_, ?_⟩
  · rw [Decimal.toRat_of_shift?_eq_some hp, hone, one_mul]
  · have hplaces := Decimal.scale_le_of_shift? hp
    rw [hscale, Nat.zero_add, signedExponent, signedDigits] at hplaces
    split_ifs at hplaces ⊢ <;> omega

/-! ## Reading -/

theorem read_eq_of_spells (h : t.Spells negative whole fraction) :
    read (String.ofList t.chars) = (t.read (String.ofList t.chars)).mapError (⟨String.ofList t.chars, ·⟩) := by
  have hblank : ∀ c ∈ (String.ofList t.chars).toList, isBlank c = false := by
    have hmantissa : ∀ c ∈ t.mantissa, isBlank c = false := by
      intro c hc
      rw [h.mantissa_eq] at hc
      obtain hdigit | rfl | rfl := isDigit_of_mem_plainChars h.digits_whole.isDigit h.digits_fraction.isDigit c hc
      · exact isBlank_eq_false_of_isDigit hdigit
      · rfl
      · rfl
    have hsign : isBlank (if t.negative then '-' else '+') = false := by cases t.negative <;> rfl
    rw [String.toList_ofList, Scientific.chars]
    simp only [List.forall_mem_append, List.forall_mem_cons]
    exact ⟨hmantissa, rfl, hsign, fun c hc => isBlank_eq_false_of_isDigit (h.digits_exponent.isDigit c hc)⟩
  have hnumeric : isNumericText (String.ofList t.chars) = false := by
    by_contra hnumeric
    have hletter := Recurring.isDigit_of_isNumericText (by simpa using hnumeric) 'e' (by simp [Scientific.chars])
    exact absurd hletter (by decide)
  rw [read, trim_eq_self hblank, readTrimmed, hnumeric, String.toList_ofList, scientific?_chars h]
  rfl

theorem Scientific.Spells.ofText_mantissa (h : t.Spells negative whole fraction) :
    ∃ n, Number.ofText (String.ofList t.mantissa) = .ok n ∧
      (n = .amount (String.ofList t.mantissa) ∨ n = .numeral (String.ofList t.mantissa)) := by
  have hchars : (String.ofList t.mantissa).toList = plainChars negative whole fraction := by
    rw [String.toList_ofList, h.mantissa_eq]
  have hnumeric := isNumericText_of_plainChars h.digits_whole h.digits_fraction (.inl h.whole_ne) hchars
  obtain hn | hn := Number.ofText_of_isNumericText hnumeric
  · exact ⟨_, hn, .inl rfl⟩
  · exact ⟨_, hn, .inr rfl⟩

/-- A mantissa and a power of ten that are decimals have no more digits after the two points than one decimal. -/
def Scientific.Fits (t : Scientific) (fraction : List Char) : Prop :=
  t.negative = true → natOfDigits t.exponent ≤ 10000 → fraction.length < Decimal.scaleLimit →
    fraction.length + natOfDigits t.exponent < Decimal.scaleLimit

/-- Within the limits a number in scientific notation is a number. -/
theorem Scientific.Spells.exists_read (h : t.Spells negative whole fraction) (hfits : t.Fits fraction)
    (hle : natOfDigits t.exponent ≤ 10000) (hlen : fraction.length < Decimal.scaleLimit) :
    ∃ m, Entry.read (String.ofList t.chars) = .ok (.number m) ∧ m.IsReadable ∧
      m.worth = signedDigits negative (whole ++ fraction) / 10 ^ fraction.length * 10 ^ t.signedExponent := by
  obtain ⟨p, hp, hpower, hplaces⟩ := exists_power? h.digits_exponent hle
  obtain ⟨n, hn, hwritten⟩ := h.ofText_mantissa
  let d := Decimal.ofScaled (signedDigits negative (whole ++ fraction)) fraction.length hlen
  have hd : Decimal.ofText? (String.ofList t.mantissa) = some d := by
    rw [Decimal.ofText?, String.toList_ofList, h.mantissa_eq]
    exact Decimal.ofChars?_plainChars h.digits_whole h.digits_fraction (.inl h.whole_ne) hlen
  have hdplaces : d.scale ≤ fraction.length := Decimal.scale_ofScaled_le _ _ _
  have hscale : d.scale + p.scale < Decimal.scaleLimit := by
    cases hneg : t.negative with
    | true =>
      have hsum := hfits hneg hle hlen
      rw [hneg, if_pos rfl] at hplaces
      omega
    | false =>
      rw [hneg, if_neg Bool.false_ne_true] at hplaces
      omega
  obtain ⟨m, hm, hread, hworth⟩ := Operand.exists_times_text hwritten hd hscale
  refine ⟨m, ?_, hread, ?_⟩
  · rw [read_eq_of_spells h, Scientific.read, hp, hn]
    exact congrArg (Except.mapError _) hm
  · rw [hworth, hpower, Decimal.toRat_ofScaled]

/-- Beyond the limits it is refused: for its exponent as a whole, and else for its mantissa. -/
theorem Scientific.Spells.read_eq_error (h : t.Spells negative whole fraction)
    (hout : ¬ (natOfDigits t.exponent ≤ 10000 ∧ fraction.length < Decimal.scaleLimit)) :
    Entry.read (String.ofList t.chars) = .error ⟨String.ofList t.chars,
      .unsupported (if natOfDigits t.exponent ≤ 10000 then String.ofList t.mantissa else String.ofList t.chars)⟩ := by
  rw [read_eq_of_spells h, Scientific.read]
  by_cases hle : natOfDigits t.exponent ≤ 10000
  · obtain ⟨p, hp, -⟩ := exists_power? h.digits_exponent hle
    obtain ⟨n, hn, hwritten⟩ := h.ofText_mantissa
    have hnone : Decimal.ofText? (String.ofList t.mantissa) = none := by
      by_contra hsome
      obtain ⟨d, hd⟩ := Option.ne_none_iff_exists'.mp hsome
      have hchars : (String.ofList t.mantissa).toList = plainChars negative whole fraction := by
        rw [String.toList_ofList, h.mantissa_eq]
      have hnumeric := isNumericText_of_ofText? hd
      have hlen := ((isSome_ofText?_iff_of_isNumericText hnumeric).mp (by rw [hd]; rfl)).2
      rw [fractionDigits_of_plainChars h.digits_whole.isDigit hchars] at hlen
      exact hout ⟨hle, hlen⟩
    rw [hp, hn, if_pos hle]
    exact congrArg (Except.mapError _) (Operand.times_text_eq_error hwritten hnone _)
  · rw [power?_eq h.digits_exponent, if_neg hle, if_neg hle]
    rfl

/-- A mantissa of ASCII digits with an exponent is a number, exactly: it is accepted if the exponent is not above the
limit and the mantissa has no more digits after its point than a decimal, and the value is the mantissa times the power
of ten. This is so unless the two together have too many digits after their points. -/
theorem read_scientific (t : Scientific) (negative : Bool) (whole fraction : List Char)
    (h : t.Spells negative whole fraction) (hfits : t.Fits fraction) :
    ((∃ x, read (String.ofList t.chars) = .ok x) ↔
        natOfDigits t.exponent ≤ 10000 ∧ fraction.length < Decimal.scaleLimit) ∧
      (∀ x, read (String.ofList t.chars) = .ok x → ∃ n v, x = .number n ∧ n.toExact = .ok v ∧
        v.toRat = signedDigits negative (whole ++ fraction) / 10 ^ fraction.length * 10 ^ t.signedExponent) ∧
      ∀ e, read (String.ofList t.chars) = .error e → e = ⟨String.ofList t.chars,
        .unsupported (if natOfDigits t.exponent ≤ 10000 then String.ofList t.mantissa else String.ofList t.chars)⟩ := by
  by_cases hin : natOfDigits t.exponent ≤ 10000 ∧ fraction.length < Decimal.scaleLimit
  · obtain ⟨m, hm, hread, hworth⟩ := h.exists_read hfits hin.1 hin.2
    rw [hm]
    refine ⟨⟨fun _ => hin, fun _ => ⟨_, rfl⟩⟩, ?_, fun e he => by cases he⟩
    rintro x ⟨⟩
    obtain ⟨v, hv, hvalue⟩ := Number.toExact_of_isReadable hread
    exact ⟨m, v, rfl, hv, hvalue.trans hworth⟩
  · rw [h.read_eq_error hin]
    refine ⟨⟨?_, fun hin' => absurd hin' hin⟩, ?_, ?_⟩
    · rintro ⟨x, hx⟩
      cases hx
    · intro x hx
      cases hx
    · rintro e ⟨⟩
      rfl

/-- A leading zero of the exponent plays no part. -/
theorem read_scientific_thousandths :
    Scientific.Spells ⟨plainChars true ['1'] ['5'], true, ['0', '2']⟩ true ['1'] ['5'] ∧
      Scientific.Fits ⟨plainChars true ['1'] ['5'], true, ['0', '2']⟩ ['5'] ∧
      ∃ n v, read "-1.5e-02" = .ok (.number n) ∧ n.toExact = .ok v ∧ v.toRat = -3 / 200 := by
  let t : Scientific := ⟨plainChars true ['1'] ['5'], true, ['0', '2']⟩
  have hspells : t.Spells true ['1'] ['5'] :=
    ⟨rfl, digits_singleton rfl, by simp, digits_singleton rfl,
      List.forall_mem_cons.mpr ⟨rfl, digits_singleton rfl⟩, by simp [t]⟩
  have htext : String.ofList t.chars = "-1.5e-02" := by cbv
  have hexponent : natOfDigits t.exponent = 2 := by cbv
  have hdigits : signedDigits true (['1'] ++ ['5']) = -15 := by cbv
  have hpower : t.signedExponent = -2 := by cbv
  have hin : 2 ≤ 10000 ∧ ['5'].length < Decimal.scaleLimit := by decide
  have hfits : t.Fits ['5'] := by
    intro _ _ _
    rw [hexponent]
    decide
  obtain ⟨haccepted, hvalue, -⟩ := read_scientific t true ['1'] ['5'] hspells hfits
  rw [htext] at hvalue
  rw [htext, hexponent] at haccepted
  obtain ⟨x, hx⟩ := haccepted.mpr hin
  obtain ⟨n, v, rfl, hv, hworth⟩ := hvalue x hx
  refine ⟨hspells, hfits, n, v, hx, hv, ?_⟩
  rw [hworth, hdigits, hpower]
  norm_num

/-- A mantissa with more digits after its point than a decimal can have is refused, whatever the exponent. -/
theorem read_scientific_refused :
    ¬ ∀ (t : Scientific) (negative : Bool) (whole fraction : List Char), t.Spells negative whole fraction →
      natOfDigits t.exponent ≤ 10000 → ∃ x, read (String.ofList t.chars) = .ok x := by
  intro hall
  have hzeros : Digits (List.replicate Decimal.scaleLimit '0') := by
    intro c hc
    rw [List.eq_of_mem_replicate hc]
    decide
  have hspells : Scientific.Spells ⟨plainChars false ['1'] (List.replicate Decimal.scaleLimit '0'), false, ['0']⟩ false
      ['1'] (List.replicate Decimal.scaleLimit '0') :=
    ⟨rfl, digits_singleton rfl, by simp, hzeros, digits_singleton rfl, by simp⟩
  have hlong : ¬ (List.replicate Decimal.scaleLimit '0').length < Decimal.scaleLimit := by
    rw [List.length_replicate]
    exact lt_irrefl _
  have hzero : natOfDigits ['0'] ≤ 10000 := by decide
  obtain ⟨x, hx⟩ := hall _ _ _ _ hspells hzero
  rw [hspells.read_eq_error fun hin => hlong hin.2] at hx
  cases hx

end Entry

end ExactCalc
