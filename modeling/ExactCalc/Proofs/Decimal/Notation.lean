import Mathlib
import ExactCalc.Decimal.Notation
import ExactCalc.Proofs.Decimal.Value
import ExactCalc.Proofs.Text.Digits

/-!
# Decimal notation

`plainChars` is the plain spelling of a number by its sign, its digits before the point and those after it.
The texts that are read as decimals are the plain spellings (`Decimal.ofChars?_plainChars` and
`Decimal.exists_plain_of_ofChars?`). What is written for a decimal is one, and is read as the same decimal:
`Decimal.ofText?_text`.
-/

namespace ExactCalc

open Text

/-- The sign, the digits before the point, and a point with digits after it if there are any. -/
def plainChars (negative : Bool) (whole fraction : List Char) : List Char :=
  (if negative then ['-'] else []) ++ (whole ++ if fraction = [] then [] else '.' :: fraction)

def signedDigits (negative : Bool) (ds : List Char) : Int :=
  if negative then -(natOfDigits ds : Int) else natOfDigits ds

theorem signedDigits_div (negative : Bool) (ds : List Char) (p : Rat) :
    (signedDigits negative ds : Rat) / p =
      if negative = true then -((natOfDigits ds : Rat) / p) else (natOfDigits ds : Rat) / p := by
  cases negative <;> simp [signedDigits, neg_div]

section
variable {negative : Bool} {whole fraction : List Char}

theorem Digits.ne_point (hw : Digits whole) : ∀ c ∈ whole, c ≠ '.' := by
  rintro c hc rfl
  exact absurd (hw '.' hc) (by decide)

theorem head?_point (fraction : List Char) : ∀ c ∈ (if fraction = [] then [] else '.' :: fraction).head?, c = '.' := by
  intro c hc
  by_cases h : fraction = []
  · simp [h] at hc
  · simpa [h, eq_comm] using hc

theorem tail_point (fraction : List Char) : (if fraction = [] then [] else '.' :: fraction).tail = fraction := by
  by_cases h : fraction = [] <;> simp [h]

theorem takeWhile_point (hw : Digits whole) :
    (whole ++ if fraction = [] then [] else '.' :: fraction).takeWhile (· ≠ '.') = whole := by
  refine takeWhile_append_stop ?_ ?_
  · intro c hc
    simp [hw.ne_point c hc]
  · intro c hc
    simp [head?_point fraction c hc]

theorem dropWhile_point (hw : Digits whole) :
    (whole ++ if fraction = [] then [] else '.' :: fraction).dropWhile (· ≠ '.') =
      if fraction = [] then [] else '.' :: fraction := by
  refine dropWhile_append_stop ?_ ?_
  · intro c hc
    simp [hw.ne_point c hc]
  · intro c hc
    simp [head?_point fraction c hc]

theorem head?_plainChars (hw : Digits whole) :
    ((plainChars negative whole fraction).head? == some '-') = negative := by
  refine head?_signed (hw.head?_append_ne (.inr fun h => ?_))
  exact absurd (head?_point fraction '-' h) (by decide)

theorem body_plainChars (negative : Bool) (whole fraction : List Char) :
    (if negative then (plainChars negative whole fraction).tail else plainChars negative whole fraction) =
      whole ++ (if fraction = [] then [] else '.' :: fraction) :=
  body_signed negative _

theorem isDigit_of_mem_plainChars (hw : ∀ c ∈ whole, isDigit c = true) (hf : ∀ c ∈ fraction, isDigit c = true) :
    ∀ c ∈ plainChars negative whole fraction, isDigit c = true ∨ c = '.' ∨ c = '-' := by
  have hsign : ∀ c ∈ (if negative then ['-'] else []), c = '-' := by cases negative <;> simp
  have hpoint : ∀ c ∈ (if fraction = [] then [] else '.' :: fraction), isDigit c = true ∨ c = '.' := by
    split_ifs
    · simp
    · exact List.forall_mem_cons.mpr ⟨.inr rfl, fun c hc => .inl (hf c hc)⟩
  refine List.forall_mem_append.mpr ⟨fun c hc => .inr (.inr (hsign c hc)), ?_⟩
  exact List.forall_mem_append.mpr ⟨fun c hc => .inl (hw c hc), fun c hc => (hpoint c hc).imp_right .inl⟩

theorem ascii_plainChars (hw : Digits whole) (hf : Digits fraction) :
    ∀ c ∈ plainChars negative whole fraction, c.toNat < 128 := by
  have hpoint : ∀ c ∈ (if fraction = [] then [] else '.' :: fraction), c.toNat < 128 := by
    split_ifs
    · simp
    · exact List.forall_mem_cons.mpr ⟨by decide, hf.ascii⟩
  have hsign : ∀ c ∈ (if negative then ['-'] else []), c.toNat < 128 := by cases negative <;> simp
  exact List.forall_mem_append.mpr ⟨hsign, List.forall_mem_append.mpr ⟨hw.ascii, hpoint⟩⟩

namespace Decimal

/-- A plain spelling is read as its digits over a power of ten. -/
theorem ofChars?_plainChars (hw : Digits whole) (hf : Digits fraction) (hne : whole ≠ [] ∨ fraction ≠ [])
    (hlen : fraction.length < scaleLimit) :
    ofChars? (plainChars negative whole fraction) =
      some (ofScaled (signedDigits negative (whole ++ fraction)) fraction.length hlen) := by
  have hpoint : ¬ (if fraction = [] then [] else '.' :: fraction) = [] ↔ fraction ≠ [] := by
    by_cases h : fraction = [] <;> simp [h]
  unfold ofChars?
  simp only [head?_plainChars hw, body_plainChars, takeWhile_point hw, dropWhile_point hw, tail_point,
    hw.areAsciiDigits, hf.areAsciiDigits, Bool.and_true, Bool.not_true]
  rw [if_neg, if_neg, if_neg, dif_pos hlen]
  · rfl
  · simp
  · simp only [Bool.and_eq_true, Bool.not_eq_true', List.isEmpty_iff, List.isEmpty_eq_false_iff]
    rintro ⟨h₁, h₂⟩
    exact hpoint.mp h₁ h₂
  · simp only [Bool.and_eq_true, List.isEmpty_iff]
    rintro ⟨h₁, h₂⟩
    exact hne.elim (fun h => h h₁) fun h => h h₂

/-- Only plain spellings are read as decimals. -/
theorem exists_plain_of_ofChars? {cs : List Char} {d : Decimal} (h : ofChars? cs = some d) :
    ∃ negative whole fraction, Digits whole ∧ Digits fraction ∧ (whole ≠ [] ∨ fraction ≠ []) ∧
      cs = plainChars negative whole fraction ∧ ∃ hlen : fraction.length < scaleLimit,
        d = ofScaled (signedDigits negative (whole ++ fraction)) fraction.length hlen := by
  unfold ofChars? at h
  simp only at h
  generalize hneg : (cs.head? == some '-') = negative at h
  generalize hbody : (if negative = true then cs.tail else cs) = body at h
  generalize hwhole : body.takeWhile (· ≠ '.') = whole at h
  generalize hrest : body.dropWhile (· ≠ '.') = rest at h
  split at h
  · simp at h
  split at h
  · simp at h
  split at h
  · simp at h
  split at h
  swap
  · simp at h
  rename_i hne hpoint hascii hlen
  obtain rfl := Option.some.inj h
  have hdigits : Digits whole ∧ Digits rest.tail := by
    simpa [areAsciiDigits, Digits] using hascii
  refine ⟨negative, whole, rest.tail, hdigits.1, hdigits.2, ?_, ?_, hlen, rfl⟩
  · by_contra hno
    push Not at hno
    simp [hno.1, hno.2] at hne
  · have hcs : cs = (if negative then ['-'] else []) ++ body := by
      rw [← hbody]
      cases negative with
      | true =>
        obtain ⟨tail, rfl⟩ : ∃ tail, cs = '-' :: tail := List.head?_eq_some_iff.mp (beq_iff_eq.mp hneg)
        rfl
      | false => rfl
    have hfraction : rest = if rest.tail = [] then [] else '.' :: rest.tail := by
      cases rest with
      | nil => rfl
      | cons c rest =>
        have hc : c = '.' := by
          have hhead := List.head?_dropWhile_not (fun x => decide (x ≠ '.')) body
          rw [hrest] at hhead
          simpa using hhead
        cases rest with
        | nil => simp at hpoint
        | cons d rest => simp [hc]
    rw [plainChars, ← hfraction, ← hwhole, ← hrest, List.takeWhile_append_dropWhile, ← hcs]

end Decimal

end

/-! ## Writing -/

namespace Decimal

theorem strip_of_normal {m : Int} {s : Nat} (h : s = 0 ∨ ¬ (10 : Int) ∣ m) : strip m s = (m, s) := by
  cases s with
  | zero => rfl
  | succ s =>
    have hten : ¬ (10 : Int) ∣ m := h.resolve_left (Nat.succ_ne_zero s)
    have hzero : m ≠ 0 := by
      rintro rfl
      exact hten (dvd_zero 10)
    rw [strip, if_neg hzero, if_neg fun hmod => hten (Int.dvd_of_emod_eq_zero hmod)]

theorem ofScaled_self (d : Decimal) {s : Nat} (hs : s = d.scale) (h : s < scaleLimit) :
    ofScaled d.mantissa s h = d := by
  subst hs
  have hstrip := strip_of_normal d.normal
  cases d
  simp only [ofScaled, hstrip]

theorem digits_digitsOfNat (n : Nat) : Digits (digitsOfNat n) :=
  fun _ hc => Nat.isDigit_of_mem_toDigits (by decide) (by decide) hc

/-- The digits of a mantissa with zeros in front: those of the number before the point, and as many as there are
places after it. -/
theorem exists_padded (m s : Nat) :
    ∃ fraction, Digits fraction ∧ fraction.length = s ∧
      List.replicate (s + 1 - (digitsOfNat m).length) '0' ++ digitsOfNat m = digitsOfNat (m / 10 ^ s) ++ fraction := by
  induction s generalizing m with
  | zero =>
    have hpos : 0 < (digitsOfNat m).length := Nat.length_toDigits_pos
    refine ⟨[], by simp [Digits], rfl, ?_⟩
    rw [Nat.zero_add, Nat.sub_eq_zero_of_le hpos, pow_zero, Nat.div_one, List.append_nil]
    rfl
  | succ s ih =>
    obtain ⟨fraction, hf, hlen, heq⟩ := ih (m / 10)
    have hlast : isAsciiDigit (m % 10).digitChar = true := by
      have hlt : m % 10 < 10 := Nat.mod_lt _ (by decide)
      simp [hlt]
    -- the last place takes the last digit of the mantissa, the others those of the rest of it
    have hpad : List.replicate (s + 1 + 1 - (digitsOfNat m).length) '0' ++ digitsOfNat m =
        List.replicate (s + 1 - (digitsOfNat (m / 10)).length) '0' ++ digitsOfNat (m / 10) ++ [(m % 10).digitChar] := by
      rcases Nat.lt_or_ge m 10 with hlt | hge
      · have hone : digitsOfNat m = [m.digitChar] := Nat.toDigits_of_lt_base hlt
        have hzero : digitsOfNat (m / 10) = ['0'] := by
          rw [Nat.div_eq_of_lt hlt]
          exact Nat.toDigits_zero 10
        rw [hone, hzero, Nat.mod_eq_of_lt hlt, List.length_singleton, List.length_singleton, Nat.add_sub_cancel,
          Nat.add_sub_cancel, List.replicate_succ']
      · have hmore : digitsOfNat m = digitsOfNat (m / 10) ++ [(m % 10).digitChar] :=
          Nat.toDigits_of_base_le (by decide) hge
        rw [hmore, List.length_append, List.length_singleton, Nat.add_sub_add_right, List.append_assoc]
    refine ⟨fraction ++ [(m % 10).digitChar], ?_, by simp [hlen], ?_⟩
    · exact List.forall_mem_append.mpr ⟨hf, digits_singleton hlast⟩
    · rw [hpad, heq, List.append_assoc, Nat.div_div_eq_div_mul, ← pow_succ']

theorem placePoint_eq (m s : Nat) :
    ∃ fraction, Digits fraction ∧ fraction.length = s ∧ natOfDigits (digitsOfNat (m / 10 ^ s) ++ fraction) = m ∧
      placePoint m s = digitsOfNat (m / 10 ^ s) ++ if fraction = [] then [] else '.' :: fraction := by
  obtain ⟨fraction, hf, hlen, hpadded⟩ := exists_padded m s
  have hvalue : natOfDigits (digitsOfNat (m / 10 ^ s) ++ fraction) = m := by
    rw [← hpadded, natOfDigits_append, natOfDigits_replicate_zero, Nat.zero_mul, Nat.zero_add]
    exact natOfDigits_digitsOfNat m
  refine ⟨fraction, hf, hlen, hvalue, ?_⟩
  cases s with
  | zero => simp [placePoint, List.length_eq_zero_iff.mp hlen]
  | succ s =>
    have hne : fraction ≠ [] := by
      rintro rfl
      simp at hlen
    have hcut : (digitsOfNat (m / 10 ^ (s + 1)) ++ fraction).length - (s + 1) =
        (digitsOfNat (m / 10 ^ (s + 1))).length := by
      rw [List.length_append, hlen, Nat.add_sub_cancel]
    simp only [placePoint, if_neg (Nat.succ_ne_zero s), hpadded, hcut, List.take_left', List.drop_left', if_neg hne]

/-- What is written for a decimal is a plain spelling, with the number before the point as numbers are written. -/
theorem toChars_eq (d : Decimal) :
    ∃ fraction, Digits fraction ∧ fraction.length = d.scale ∧
      signedDigits d.isNegative (digitsOfNat (d.mantissa.natAbs / 10 ^ d.scale) ++ fraction) = d.mantissa ∧
      d.toChars = plainChars d.isNegative (digitsOfNat (d.mantissa.natAbs / 10 ^ d.scale)) fraction := by
  obtain ⟨fraction, hf, hlen, hnat, hplace⟩ := placePoint_eq d.mantissa.natAbs d.scale
  refine ⟨fraction, hf, hlen, ?_, ?_⟩
  · rw [signedDigits, hnat]
    by_cases hneg : d.mantissa < 0
    · simp only [isNegative, hneg, decide_true, if_true]
      omega
    · simp only [isNegative, hneg, decide_false, Bool.false_eq_true, if_false]
      omega
  · rw [toChars, hplace, plainChars]

theorem ofText?_text (d : Decimal) : ofText? d.text = some d := by
  obtain ⟨fraction, hf, hlen, hsigned, hchars⟩ := d.toChars_eq
  have hlimit : fraction.length < scaleLimit := hlen ▸ d.scale_lt
  rw [ofText?, text, String.toList_ofList, hchars,
    ofChars?_plainChars (digits_digitsOfNat _) hf (.inl Nat.toDigits_ne_nil) hlimit, hsigned,
    ofScaled_self d hlen hlimit]

end Decimal

end ExactCalc
