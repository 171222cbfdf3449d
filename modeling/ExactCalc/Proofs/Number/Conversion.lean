import Mathlib
import ExactCalc.Proofs.Number.Value
import ExactCalc.Proofs.Token.Literal

/-!
# Numbers that have a value

A number that is accepted as a text is kept as it is written, and read when its value is asked for. The readers take
ASCII digits only, fewer than `Decimal.scaleLimit` of them after the point, while digits of every script and any
number of them are accepted: `Number.hasValue_iff_of_create`. Whether a number has a value is one question for all of
its conversions (`Number.hasValue_iff_isReadable`).
-/

namespace ExactCalc

open Text

def fractionDigits (s : String) : Nat := (s.toList.dropWhile (· ≠ '.')).tail.length

/-! ## Texts that the reader of decimals takes -/

section
variable {negative : Bool} {whole fraction : List Char}

theorem fractionDigits_of_plainChars {s : String} (hw : ∀ c ∈ whole, isDigit c = true)
    (hs : s.toList = plainChars negative whole fraction) : fractionDigits s = fraction.length := by
  have hgo : ∀ c ∈ (if negative then ['-'] else []) ++ whole, decide (c ≠ '.') = true := by
    have hpoint : isDigit '.' = false := by decide
    rw [List.forall_mem_append]
    constructor
    · cases negative <;> simp
    · intro c hc
      rw [decide_eq_true_eq]
      rintro rfl
      rw [hw '.' hc] at hpoint
      simp at hpoint
  have hstop : ∀ c ∈ (if fraction = [] then [] else '.' :: fraction).head?, decide (c ≠ '.') = false := by
    intro c hc
    simp [head?_point fraction c hc]
  rw [fractionDigits, hs, plainChars, ← List.append_assoc, dropWhile_append_stop hgo hstop]
  split_ifs with h <;> simp [h]

end

/-- A numeral is a sign, digits of any script, and a point with digits after it, or some of these. -/
theorem exists_plainChars_of_isNumericText {s : String} (h : isNumericText s = true) :
    ∃ negative whole fraction, s.toList = plainChars negative whole fraction ∧ (∀ c ∈ whole, isDigit c = true) ∧
      (∀ c ∈ fraction, isDigit c = true) ∧ (whole ≠ [] ∨ fraction ≠ []) := by
  have hbody : ∀ {most : Option Nat} {cs : List Char} (negative : Bool), isPlainNumeral most cs = true →
      ∃ whole fraction, (if negative then ['-'] else []) ++ cs = plainChars negative whole fraction ∧
        (∀ c ∈ whole, isDigit c = true) ∧ (∀ c ∈ fraction, isDigit c = true) ∧ (whole ≠ [] ∨ fraction ≠ []) := by
    intro most cs negative hplain
    obtain ⟨hne, hd⟩ | ⟨ds, fs, rfl, hd, hne, hf⟩ := Token.isPlainNumeral_cases hplain
    · exact ⟨cs, [], by simp [plainChars], hd, by simp, .inl hne⟩
    · exact ⟨ds, fs, by simp [plainChars, hne], hd, hf, .inr hne⟩
  rw [isNumericText, Bool.or_eq_true] at h
  rcases h with h | h
  · exact ⟨false, hbody false h⟩
  · split at h
    · rename_i cs hcs
      rw [hcs]
      exact ⟨true, hbody true h⟩
    · exact ⟨false, hbody false h⟩

/-- The reader of decimals takes the numerals of ASCII digits, with fewer than the limit after the point. -/
theorem isSome_ofText?_iff_of_isNumericText {s : String} (h : isNumericText s = true) :
    (Decimal.ofText? s).isSome = true ↔
      (∀ c ∈ s.toList, c.toNat < 128) ∧ fractionDigits s < Decimal.scaleLimit := by
  constructor
  · intro hread
    obtain ⟨d, hd⟩ := Option.isSome_iff_exists.mp hread
    obtain ⟨negative, whole, fraction, hw, hf, -, hs, hlen, -⟩ := Decimal.exists_plain_of_ofChars? hd
    rw [fractionDigits_of_plainChars hw.isDigit hs, hs]
    exact ⟨ascii_plainChars hw hf, hlen⟩
  · rintro ⟨hascii, hlen⟩
    obtain ⟨negative, whole, fraction, hs, hw, hf, hne⟩ := exists_plainChars_of_isNumericText h
    rw [fractionDigits_of_plainChars hw hs] at hlen
    have hmem : ∀ c ∈ whole ++ fraction, c ∈ s.toList := by
      intro c hc
      rw [hs]
      by_cases hfraction : fraction = []
      · simpa [plainChars, hfraction] using .inr (by simpa [hfraction] using hc)
      · simp only [plainChars, if_neg hfraction, List.mem_append, List.mem_cons] at hc ⊢
        tauto
    have hw' : Digits whole := digits_of_ascii hascii (fun c hc => hmem c (by simp [hc])) hw
    have hf' : Digits fraction := digits_of_ascii hascii (fun c hc => hmem c (by simp [hc])) hf
    rw [Decimal.ofText?, hs, Decimal.ofChars?_plainChars hw' hf' hne hlen]
    rfl

theorem Token.Unsigned.ascii_or_isPlainNumeral {w : List Char} {ps : List (List Char)} (h : Unsigned w ps) :
    (∀ c ∈ w, c.toNat < 128) ∨ isPlainNumeral none w = true := by
  cases h with
  | whole hd hne =>
    right
    simpa [isPlainNumeral, List.takeWhile_eq_self_iff.mpr hd, List.dropWhile_eq_nil_iff.mpr hd] using hne
  | fraction hf hne =>
    have hpoint : isDigit '.' = false := by decide
    right
    simpa [isPlainNumeral, hpoint, hne] using hf
  | decimal hd _ hf hne =>
    right
    simpa [isPlainNumeral, takeWhile_append_stop hd.isDigit (not_digit_point _),
      dropWhile_append_stop hd.isDigit (not_digit_point _), hne] using hf
  | lastDigit hd _ hf _ =>
    left
    simp only [List.forall_mem_append, List.forall_mem_cons]
    exact ⟨hd.ascii, by decide, hf.ascii, by decide, by simp⟩
  | @period _ _ _ mark l r hd _ hf hp _ hb hmark =>
    have hbrackets : l.toNat < 128 ∧ r.toNat < 128 := by
      rcases hb with ⟨rfl, rfl⟩ | ⟨rfl, rfl⟩ <;> decide
    have hmark' : ∀ c ∈ mark, c.toNat < 128 := by rcases hmark with rfl | rfl <;> simp
    left
    simp only [List.forall_mem_append, List.forall_mem_cons]
    exact ⟨hd.ascii, by decide, hf.ascii, hbrackets.1, hp.ascii, hbrackets.2, hmark'⟩

theorem isNumericText_of_isPlainNumeral {s : String} {w : List Char} (hw : isPlainNumeral none w = true)
    (hs : s.toList = w ∨ s.toList = '-' :: w) : isNumericText s = true := by
  have hminus : isDigit '-' = false := by decide
  rw [isNumericText, Bool.or_eq_true]
  right
  rcases hs with hs | hs
  · rw [hs]
    split
    · simp [isPlainNumeral, hminus] at hw
    · exact hw
  · rw [hs]
    exact hw

theorem ascii_of_recurringValue? {s : String} {r : Rat} (h : recurringValue? s = some r)
    (hnumeric : isNumericText s ≠ true) : ∀ c ∈ s.toList, c.toNat < 128 := by
  obtain ⟨w, ps, hw, hs⟩ := Token.exists_unsigned_of_recurringValue? h
  obtain hascii | hplain := hw.ascii_or_isPlainNumeral
  · rcases hs with hs | hs
    · rwa [hs]
    · rw [hs, List.forall_mem_cons]
      exact ⟨by decide, hascii⟩
  · exact absurd (isNumericText_of_isPlainNumeral hplain hs) hnumeric

namespace Number

variable {n : Number}

/-- All conversions of the number succeed, and the exact and the rational value are equal. -/
structure HasValue (n : Number) : Prop where
  decimal : ∃ d, n.toDecimal = .ok d
  exact : ∃ x, n.toExact = .ok x ∧ n.toRational = .ok x.toRat
  isZero : ∃ b, n.isZero = .ok b
  isOne : ∃ b, n.isOne = .ok b
  amount : ∀ policy, ∃ s, n.amountText policy = .ok s
  document : ∃ doc, n.toDocument = .ok doc

theorem exists_amountText_of_isReadable (h : n.IsReadable) (policy : AmountPolicy) :
    ∃ s, n.amountText policy = .ok s := by
  obtain ⟨x, hx, -⟩ := toExact_of_isReadable h
  cases n with
  | amount s => exact ⟨s, rfl⟩
  | decimal d | rational r | numeral s =>
    rw [amountText, hx]
    · exact ⟨x.amountText policy, rfl⟩
    · simp

theorem exists_toDocument_of_isReadable (h : n.IsReadable) : ∃ doc, n.toDocument = .ok doc := by
  simp only [toDocument, isOne_of_isReadable h, isZero_of_isReadable h, bind, Except.bind]
  split_ifs <;> exact ⟨_, rfl⟩

theorem hasValue_iff_isReadable : n.HasValue ↔ n.IsReadable := by
  constructor
  · rintro ⟨⟨d, hd⟩, -⟩
    cases n with
    | decimal d => trivial
    | rational r => trivial
    | numeral s | amount s =>
      rw [IsReadable, Option.isSome_iff_exists]
      cases hs : Decimal.ofText? s with
      | some d => exact ⟨d, rfl⟩
      | none => simp [toDecimal, readAs, hs] at hd
  · intro h
    obtain ⟨x, hx, hval⟩ := toExact_of_isReadable h
    refine ⟨?_, ⟨x, hx, ?_⟩, ⟨_, isZero_of_isReadable h⟩, ⟨_, isOne_of_isReadable h⟩,
      exists_amountText_of_isReadable h, exists_toDocument_of_isReadable h⟩
    · cases n with
      | decimal d => exact ⟨d, rfl⟩
      | rational r => exact ⟨_, rfl⟩
      | numeral s | amount s =>
        obtain ⟨d, hd⟩ := Option.isSome_iff_exists.mp h
        exact ⟨d, by simp [toDecimal, readAs, hd]⟩
    · rw [hval]
      exact toRational_of_isReadable h

/-- A number that is accepted as a text has a value exactly if the text is ASCII and, unless it is a recurring
literal, has fewer digits after the point than a decimal can have. -/
theorem hasValue_iff_of_create {t : String} (h : create (.text t) = .ok n) :
    n.HasValue ↔ (∀ c ∈ t.toList, c.toNat < 128) ∧
      (isNumericText t = true → fractionDigits t < Decimal.scaleLimit) := by
  rw [hasValue_iff_isReadable]
  have hof : ofText t = .ok n := h
  unfold ofText at hof
  split_ifs at hof with hempty hamount hnumeric
  · obtain rfl := Except.ok.inj hof
    obtain rfl : t = "" := by simpa using hempty
    have hzero : IsReadable zero := by
      have hread : (Decimal.ofText? "0").isSome = true := by cbv
      exact hread
    have hlen : fractionDigits "" = 0 := by simp [fractionDigits]
    simp [hzero, hlen, Decimal.scaleLimit]
  · obtain rfl := Except.ok.inj hof
    have hnumeric : isNumericText t = true := by simp [isNumericText, hamount]
    simpa [hnumeric, IsReadable] using isSome_ofText?_iff_of_isNumericText hnumeric
  · obtain rfl := Except.ok.inj hof
    simpa [hnumeric, IsReadable] using isSome_ofText?_iff_of_isNumericText hnumeric
  · cases hr : recurringValue? t with
    | none => simp [hr] at hof
    | some r =>
      rw [hr] at hof
      obtain rfl := Except.ok.inj hof
      exact ⟨fun _ => ⟨ascii_of_recurringValue? hr hnumeric, fun h => absurd h hnumeric⟩, fun _ => trivial⟩

theorem hasValue_iff_of_create_fraction :
    create (.text "-12.5") = .ok (.numeral "-12.5") ∧
      ((numeral "-12.5").HasValue ↔ (∀ c ∈ "-12.5".toList, c.toNat < 128) ∧
        (isNumericText "-12.5" = true → fractionDigits "-12.5" < Decimal.scaleLimit)) := by
  have hcreate : create (.text "-12.5") = .ok (.numeral "-12.5") := by cbv
  exact ⟨hcreate, hasValue_iff_of_create hcreate⟩

/-- A number in the digits of another script is accepted, and has no value. -/
theorem hasValue_of_create_ne : ¬ ∀ (t : String) (n : Number), create (.text t) = .ok n → n.HasValue := by
  intro h
  have hcreate : create (.text "٣") = .ok (.amount "٣") := by cbv
  obtain ⟨d, hd⟩ := (h _ _ hcreate).decimal
  have hnone : ((amount "٣").toDecimal).toOption = none := by cbv
  rw [hd] at hnone
  simp [Except.toOption] at hnone

end Number

end ExactCalc
