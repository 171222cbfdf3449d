import Mathlib
import ExactCalc.Binary64
import ExactCalc.Decimal.Rounding
import ExactCalc.Proofs.Decimal.Notation

/-!
# Normal form

A decimal is made by `ofScaled`, or it is one that was made before (`Obtainable.exists_ofScaled`), and `ofScaled` leaves
no zero at the end of a fraction. So equality of mantissas and scales is equality of values: `normal_form`.
-/

namespace ExactCalc.Decimal

/-- The decimals that can be made, with one case for each constructor and each operation that returns a decimal. -/
inductive Obtainable : Decimal → Prop
  | ofScaled (m : Int) (s : Nat) (h : s < scaleLimit) : Obtainable (ofScaled m s h)
  | zero : Obtainable zero
  | one : Obtainable one
  | ofInt (n : Int) : Obtainable (ofInt n)
  | ofText {s : String} {d : Decimal} (h : ofText? s = some d) : Obtainable d
  | ofBinary64 {x : Binary64} {d : Decimal} (h : x.toDecimal? = some d) : Obtainable d
  | ofRat (r : Rat) (places : Nat) (mode : RoundingMode) (h : places < scaleLimit) :
      Obtainable (ofRat r places mode h)
  | round {d : Decimal} (hd : Obtainable d) (places : Nat) (mode : RoundingMode) : Obtainable (d.round places mode)
  | shift {d r : Decimal} {e : Int} (hd : Obtainable d) (h : d.shift? e = some r) : Obtainable r
  | rem {a b r : Decimal} (ha : Obtainable a) (hb : Obtainable b) (h : a.rem? b = some r) : Obtainable r
  | add {a b : Decimal} (ha : Obtainable a) (hb : Obtainable b) : Obtainable (a + b)
  | sub {a b : Decimal} (ha : Obtainable a) (hb : Obtainable b) : Obtainable (a - b)
  | mul {a b c : Decimal} (ha : Obtainable a) (hb : Obtainable b) (h : a.mul? b = some c) : Obtainable c
  | neg {a : Decimal} (ha : Obtainable a) : Obtainable (-a)

/-! ## Producers -/

theorem exists_ofScaled_of_ofText? {s : String} {d : Decimal} (h : ofText? s = some d) :
    ∃ m t ht, d = Decimal.ofScaled m t ht := by
  obtain ⟨negative, whole, fraction, -, -, -, -, hlen, rfl⟩ := exists_plain_of_ofChars? h
  exact ⟨_, _, hlen, rfl⟩

theorem exists_ofScaled_of_toDecimal? {x : Binary64} {d : Decimal} (h : x.toDecimal? = some d) :
    ∃ m s hs, d = Decimal.ofScaled m s hs := by
  unfold Binary64.toDecimal? at h
  simp only at h
  generalize (if x.negative = true then _ else _ : Int) = n at h
  split_ifs at h with hfinite hzero hscale
  · obtain rfl := Option.some.inj h
    exact ⟨0, 0, by decide, rfl⟩
  · obtain rfl := Option.some.inj h
    exact ⟨_, _, hscale, rfl⟩

theorem exists_ofScaled_of_shift? {d r : Decimal} {e : Int} (h : d.shift? e = some r) :
    ∃ m s hs, r = Decimal.ofScaled m s hs := by
  unfold shift? at h
  split_ifs at h with hlarge hsign hscale
  · obtain rfl := Option.some.inj h
    exact ⟨_, _, _, rfl⟩
  · obtain rfl := Option.some.inj h
    exact ⟨_, _, hscale, rfl⟩

theorem exists_ofScaled_of_rem? {a b r : Decimal} (h : a.rem? b = some r) :
    ∃ m s hs, r = Decimal.ofScaled m s hs := by
  unfold rem? at h
  split_ifs at h with hzero
  obtain rfl := Option.some.inj h
  exact ⟨_, _, _, rfl⟩

theorem exists_ofScaled_of_mul? {a b c : Decimal} (h : a.mul? b = some c) :
    ∃ m s hs, c = Decimal.ofScaled m s hs := by
  unfold mul? at h
  split_ifs at h with hscale
  obtain rfl := Option.some.inj h
  exact ⟨_, _, hscale, rfl⟩

/-- Whatever makes a decimal ends with `ofScaled`; only rounding may return what it was given. -/
theorem Obtainable.exists_ofScaled {d : Decimal} (hd : Obtainable d) : ∃ m s hs, d = Decimal.ofScaled m s hs := by
  induction hd with
  | ofScaled m s h => exact ⟨m, s, h, rfl⟩
  | zero => exact ⟨0, 0, by decide, rfl⟩
  | one => exact ⟨1, 0, by decide, rfl⟩
  | ofInt n => exact ⟨n, 0, by decide, rfl⟩
  | ofText h => exact exists_ofScaled_of_ofText? h
  | ofBinary64 h => exact exists_ofScaled_of_toDecimal? h
  | ofRat r places mode h => exact ⟨_, places, h, rfl⟩
  | round hd places mode ih =>
    rw [Decimal.round]
    split_ifs with hscale
    · exact ih
    · exact ⟨_, places, lt_scaleLimit hscale, rfl⟩
  | shift hd h ih => exact exists_ofScaled_of_shift? h
  | rem ha hb h iha ihb => exact exists_ofScaled_of_rem? h
  | add ha hb iha ihb => exact ⟨_, _, commonScale_lt _ _, rfl⟩
  | sub ha hb iha ihb => exact ⟨_, _, commonScale_lt _ _, rfl⟩
  | mul ha hb h iha ihb => exact exists_ofScaled_of_mul? h
  | @neg a ha ih => exact ⟨_, _, a.scale_lt, rfl⟩

/-! ## Equality and order -/

/-- A decimal that can be made has no zero at the end of a fraction, and no fraction if it is zero. Two of them are one
if and only if they have one value, and they are ordered as their values are. -/
theorem normal_form {a b : Decimal} (ha : Obtainable a) (hb : Obtainable b) :
    (a.scale = 0 ∨ ¬ (10 : Int) ∣ a.mantissa) ∧ (a.mantissa = 0 → a.scale = 0) ∧
      (a = b ↔ a.toRat = b.toRat) ∧ a.compare b = cmp a.toRat b.toRat ∧ (a.compare b = .eq ↔ a = b) := by
  obtain ⟨m, s, hs, rfl⟩ := ha.exists_ofScaled
  obtain ⟨n, t, ht, rfl⟩ := hb.exists_ofScaled
  have hnormal : (strip m s).2 = 0 ∨ ¬ (10 : Int) ∣ (strip m s).1 := strip_normal m s
  have hzero : (strip m s).1 = 0 → (strip m s).2 = 0 := by
    intro h
    refine hnormal.resolve_right ?_
    simp [h]
  have hvalue : Decimal.ofScaled m s hs = Decimal.ofScaled n t ht ↔
      (Decimal.ofScaled m s hs).toRat = (Decimal.ofScaled n t ht).toRat := toRat_injective.eq_iff.symm
  refine ⟨hnormal, hzero, hvalue, compare_eq _ _, ?_⟩
  rw [compare_eq, cmp_eq_eq_iff, hvalue]

theorem normal_form_half :
    ∃ c, (Decimal.ofScaled 125 2 (by decide)).mul? (Decimal.ofScaled 4 1 (by decide)) = some c ∧ Obtainable c ∧
      Obtainable (Decimal.ofRat (1 / 2) 3 .down (by decide)) ∧
      c.toRat = (Decimal.ofRat (1 / 2) 3 .down (by decide)).toRat ∧
      c.compare (Decimal.ofRat (1 / 2) 3 .down (by decide)) = .eq := by
  have hmul : (Decimal.ofScaled 125 2 (by decide)).mul? (Decimal.ofScaled 4 1 (by decide)) =
      some (Decimal.ofRat (1 / 2) 3 .down (by decide)) := by cbv
  have hproduct := (Obtainable.ofScaled 125 2 (by decide)).mul (.ofScaled 4 1 (by decide)) hmul
  have hquotient := Obtainable.ofRat (1 / 2) 3 .down (by decide)
  obtain ⟨-, -, hvalue, -, horder⟩ := normal_form hproduct hquotient
  exact ⟨_, hmul, hproduct, hquotient, hvalue.mp rfl, horder.mpr rfl⟩

end ExactCalc.Decimal
