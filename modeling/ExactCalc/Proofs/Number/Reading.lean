import Mathlib
import ExactCalc.Number.Literal
import ExactCalc.Proofs.Decimal.Notation

/-!
# The readers agree

A text that can be read as a decimal is a numeral, and the reader of rationals gives it the same value:
`isNumericText_of_ofText?` and `ratOfText?_of_ofText?`.
-/

namespace ExactCalc

open Text

section
variable {negative : Bool} {whole fraction : List Char}

/-! ## Rationals -/

theorem Recurring.ofChars?_plainChars (hw : Digits whole) (hf : Digits fraction) :
    Recurring.ofChars? (plainChars negative whole fraction) = some ⟨negative, whole, fraction, []⟩ := by
  have hstop : ∀ c ∈ (if fraction = [] then [] else '.' :: fraction).head?, isAsciiDigit c = false := by
    intro c hc
    rw [head?_point fraction c hc]
    decide
  unfold Recurring.ofChars?
  simp only [head?_plainChars hw, body_plainChars, takeWhile_append_stop hw hstop,
    dropWhile_append_stop hw hstop]
  by_cases h : fraction = []
  · simp [h]
  · have htake : fraction.takeWhile isAsciiDigit = fraction := List.takeWhile_eq_self_iff.mpr hf
    have hdrop : fraction.dropWhile isAsciiDigit = [] := List.dropWhile_eq_nil_iff.mpr hf
    simp [h, htake, hdrop]

theorem ratOfText?_of_ofText? {s : String} {d : Decimal} (h : Decimal.ofText? s = some d) :
    ratOfText? s = some d.toRat := by
  obtain ⟨negative, whole, fraction, hw, hf, hne, hs, hlen, rfl⟩ := Decimal.exists_plain_of_ofChars? h
  have hdigits : Digits (whole ++ fraction) := List.forall_mem_append.mpr ⟨hw, hf⟩
  have hlen' : fraction.length < 4294967296 := hlen
  have hempty : ¬ (whole ++ fraction).isEmpty = true := by
    simp only [List.isEmpty_iff, List.append_eq_nil_iff]
    rintro ⟨h₁, h₂⟩
    exact hne.elim (fun h => h h₁) fun h => h h₂
  have hvalue : Recurring.value ⟨negative, whole, fraction, []⟩ =
      (signedDigits negative (whole ++ fraction) : Rat) / 10 ^ fraction.length := by
    have hmagnitude : Recurring.magnitude ⟨negative, whole, fraction, []⟩ =
        (natOfDigits (whole ++ fraction) : Rat) / 10 ^ fraction.length := by
      change mkRat (natOfDigits (whole ++ fraction)) (10 ^ fraction.length) = _
      rw [Rat.mkRat_eq_div]
      push_cast
      rfl
    cases negative with
    | true =>
      rw [Recurring.value, if_pos rfl, hmagnitude, signedDigits, if_pos rfl]
      push_cast
      rw [neg_div]
    | false =>
      rw [Recurring.value, if_neg Bool.false_ne_true, hmagnitude, signedDigits, if_neg Bool.false_ne_true]
      push_cast
      rfl
  rw [ratOfText?, hs, Recurring.ofChars?_plainChars hw hf, Decimal.toRat_ofScaled, ← hvalue]
  simp [Recurring.value?, hempty, hdigits.areAsciiDigits, hlen']

/-! ## Numerals -/

/-- A plain spelling without a sign is a numeral with any number of digits after the point. -/
theorem isPlainNumeral_plain (hw : Digits whole) (hf : Digits fraction) (hne : whole ≠ [] ∨ fraction ≠ []) :
    isPlainNumeral none (whole ++ if fraction = [] then [] else '.' :: fraction) = true := by
  have hstop : ∀ c ∈ (if fraction = [] then [] else '.' :: fraction).head?, isDigit c = false := by
    intro c hc
    rw [head?_point fraction c hc]
    decide
  simp only [isPlainNumeral, takeWhile_append_stop hw.isDigit hstop, dropWhile_append_stop hw.isDigit hstop]
  by_cases h : fraction = []
  · simpa [h] using hne
  · simpa [h] using hf.isDigit

theorem isNumericText_of_plainChars {s : String} {negative : Bool} (hw : Digits whole) (hf : Digits fraction)
    (hne : whole ≠ [] ∨ fraction ≠ []) (hs : s.toList = plainChars negative whole fraction) :
    isNumericText s = true := by
  have hplain := isPlainNumeral_plain hw hf hne
  rw [isNumericText, hs]
  cases negative with
  | true => simp [plainChars, hplain]
  | false =>
    have hchars : plainChars false whole fraction = whole ++ if fraction = [] then [] else '.' :: fraction := rfl
    have hhead : ((plainChars false whole fraction).head? == some '-') = false := head?_plainChars hw
    rw [hchars] at hhead ⊢
    split
    · rename_i cs heq
      rw [heq] at hhead
      simp at hhead
    · rw [hplain, Bool.or_true]

theorem isNumericText_of_ofText? {s : String} {d : Decimal} (h : Decimal.ofText? s = some d) :
    isNumericText s = true := by
  obtain ⟨negative, whole, fraction, hw, hf, hne, hs, -⟩ := Decimal.exists_plain_of_ofChars? h
  exact isNumericText_of_plainChars hw hf hne hs

theorem notMem_of_isPlainNumeral {most : Option Nat} {cs : List Char} (h : isPlainNumeral most cs = true) :
    '(' ∉ cs := by
  have hsplit := List.takeWhile_append_dropWhile (p := isDigit) (l := cs)
  have hparen : isDigit '(' = false := rfl
  have hwhole : '(' ∉ cs.takeWhile isDigit := by
    intro hmem
    simpa [hparen] using List.mem_takeWhile_imp hmem
  rw [← hsplit, List.mem_append, not_or]
  refine ⟨hwhole, ?_⟩
  unfold isPlainNumeral at h
  split at h
  · rename_i hrest
    simp [hrest]
  · rename_i fs hrest
    simp only [Bool.and_eq_true, List.all_eq_true] at h
    rw [hrest, List.mem_cons, not_or]
    refine ⟨by decide, fun hmem => ?_⟩
    simpa [hparen] using h.1.2 '(' hmem
  · simp at h

theorem notMem_of_isNumericText {s : String} (h : isNumericText s = true) : '(' ∉ s.toList := by
  rw [isNumericText, Bool.or_eq_true] at h
  rcases h with h | h
  · exact notMem_of_isPlainNumeral h
  · split at h
    · rename_i cs hcs
      rw [hcs, List.mem_cons, not_or]
      exact ⟨by decide, notMem_of_isPlainNumeral h⟩
    · exact notMem_of_isPlainNumeral h

/-- Without a period, only plain spellings are read in recurring notation. -/
theorem Recurring.plain_of_ofChars? {cs : List Char} {t : Recurring} (h : ofChars? cs = some t) (hparen : '(' ∉ cs) :
    cs = plainChars t.negative t.whole t.fixed ∧ Digits t.whole ∧ Digits t.fixed ∧ t.period = [] := by
  unfold ofChars? at h
  simp only at h
  have hsign : cs = (if cs.head? == some '-' then ['-'] else []) ++ if cs.head? == some '-' then cs.tail else cs := by
    cases cs with
    | nil => rfl
    | cons c cs => by_cases hc : c = '-' <;> simp [hc]
  generalize (if cs.head? == some '-' then cs.tail else cs) = body at h hsign
  generalize (cs.head? == some '-') = negative at h hsign
  have hbody := List.takeWhile_append_dropWhile (p := isAsciiDigit) (l := body)
  have hwhole : Digits (body.takeWhile isAsciiDigit) := fun c hc => List.mem_takeWhile_imp hc
  split at h
  · rename_i hrest
    obtain rfl := Option.some.inj h
    refine ⟨?_, hwhole, by simp [Digits], rfl⟩
    rw [hrest, List.append_nil] at hbody
    rw [hsign, plainChars, if_pos rfl, List.append_nil, hbody]
  · rename_i after hrest
    have hafter := List.takeWhile_append_dropWhile (p := isAsciiDigit) (l := after)
    split at h
    · rename_i hend
      split_ifs at h with hempty
      obtain rfl := Option.some.inj h
      refine ⟨?_, hwhole, fun c hc => List.mem_takeWhile_imp hc, rfl⟩
      have hfixed : after.takeWhile isAsciiDigit ≠ [] := by simpa using hempty
      rw [hend, List.append_nil] at hafter
      rw [hsign, plainChars, if_neg hfixed, hafter, ← hrest, hbody]
    · rename_i inner hopen
      refine absurd ?_ hparen
      rw [hsign, ← hbody, hrest, ← hafter, hopen]
      simp
    · simp at h
  · simp at h

theorem isSome_ofText?_of_ratOfText? {s : String} (h : '(' ∉ s.toList) (hr : (ratOfText? s).isSome = true) :
    (Decimal.ofText? s).isSome = true := by
  obtain ⟨r, hr⟩ := Option.isSome_iff_exists.mp hr
  obtain ⟨t, ht, hvalue⟩ := Option.bind_eq_some_iff.mp hr
  obtain ⟨hs, hw, hf, hp⟩ := Recurring.plain_of_ofChars? ht h
  unfold Recurring.value? at hvalue
  simp only [hp, List.append_nil] at hvalue
  split_ifs at hvalue with hempty hascii hlen
  have hne : t.whole ≠ [] ∨ t.fixed ≠ [] := by
    by_contra hno
    push Not at hno
    simp [hno.1, hno.2] at hempty
  have hlimit : t.fixed.length < Decimal.scaleLimit := by
    simp only [Bool.and_eq_true, decide_eq_true_eq] at hlen
    exact hlen.1
  rw [Decimal.ofText?, hs, Decimal.ofChars?_plainChars hw hf hne hlimit]
  rfl

theorem toList_toString (n : Int) :
    (toString n).toList = plainChars (decide (n < 0)) (Text.digitsOfNat n.natAbs) [] := by
  have hrepr : ∀ m : Nat, m.repr.toList = Text.digitsOfNat m := by
    intro m
    rw [Nat.repr_eq_ofList_toDigits, String.toList_ofList]
    rfl
  rw [Int.toString_eq_repr, Int.repr_eq_if]
  by_cases h : 0 ≤ n
  · have hnat : n.toNat = n.natAbs := by omega
    simp [h, hnat, hrepr, plainChars]
  · have hnat : (-n).toNat = n.natAbs := by omega
    have hneg : n < 0 := by omega
    simp [h, hneg, hnat, hrepr, plainChars]

theorem ofText?_toString (n : Int) : Decimal.ofText? (toString n) = some (Decimal.ofInt n) := by
  have hd := Decimal.digits_digitsOfNat n.natAbs
  have hsigned : signedDigits (decide (n < 0)) (digitsOfNat n.natAbs ++ []) = n := by
    rw [List.append_nil, signedDigits, natOfDigits_digitsOfNat]
    by_cases h : n < 0
    · simp only [h, decide_true, if_true]
      omega
    · simp only [h, decide_false, Bool.false_eq_true, if_false]
      omega
  have hnil : Digits [] := by
    intro c hc
    simp at hc
  rw [Decimal.ofText?, toList_toString, Decimal.ofChars?_plainChars hd hnil (.inl Nat.toDigits_ne_nil) (by decide),
    hsigned]
  rfl

end

end ExactCalc
