import Mathlib
import ExactCalc.Expr.Basic
import ExactCalc.Proofs.Number.Reading
import ExactCalc.Proofs.Rational.Terminating

/-!
# Values of numbers

Exact values are compared as rationals, in whatever forms they are held (`Exact.compare_eq`). `Number.worth` is the
exact value of a number. A number whose text can be read (`Number.IsReadable`) has it as its exact and as its rational
value, and what it is converted to as an operand of an operation has it too.
-/

namespace ExactCalc

def Exact.scale : Exact → Nat
  | decimal d => d.scale
  | rational _ => 0

theorem Exact.scale_lt (x : Exact) : x.scale < Decimal.scaleLimit := by
  cases x with
  | decimal d => exact d.scale_lt
  | rational r => exact (by decide : 0 < Decimal.scaleLimit)

/-- Only the scales of two decimals can add up to no scale. -/
theorem Exact.decimals_or_scale_add_lt (a b : Exact) :
    (∃ x y, a = decimal x ∧ b = decimal y) ∨ a.scale + b.scale < Decimal.scaleLimit := by
  cases a with
  | rational r => exact .inr (by simpa [scale] using b.scale_lt)
  | decimal x =>
    cases b with
    | rational r => exact .inr (by simpa [scale] using x.scale_lt)
    | decimal y => exact .inl ⟨x, y, rfl, rfl⟩

theorem Exact.scale_eq_zero {x : Exact} {i : Int} (h : x.toRat = i) : x.scale = 0 := by
  cases x with
  | decimal d =>
    obtain rfl : d = Decimal.ofInt i := Decimal.toRat_injective (h.trans (Decimal.toRat_ofInt i).symm)
    rfl
  | rational r => rfl

theorem Decimal.terminates_toRat (d : Decimal) : Terminates d.toRat := by
  rw [toRat_eq]
  exact terminates_div_pow d.mantissa d.scale

theorem Exact.isZero_eq (x : Exact) : x.isZero = decide (x.toRat = 0) := by
  cases x with
  | decimal d =>
    have h := d.isZero_iff
    by_cases hzero : d.toRat = 0
    · simp [isZero, toRat, hzero, h.mpr hzero]
    · simpa [isZero, toRat, hzero] using mt h.mp hzero
  | rational r => rfl

theorem Exact.isOne_eq (x : Exact) : x.isOne = decide (x.toRat = 1) := by
  cases x with
  | decimal d =>
    have hone : Decimal.one.toRat = 1 := Decimal.toRat_ofInt 1
    by_cases h : d.toRat = 1
    · obtain rfl : d = Decimal.one := Decimal.toRat_injective (h.trans hone.symm)
      simp [isOne, toRat, hone]
    · have hne : d ≠ Decimal.one := by
        rintro rfl
        exact h hone
      simp [isOne, toRat, h, hne]
  | rational r => rfl

theorem Exact.compare_eq (x y : Exact) : x.compare y = cmp x.toRat y.toRat := by
  have hrat : (if x.toRat < y.toRat then Ordering.lt else if x.toRat = y.toRat then .eq else .gt) =
      cmp x.toRat y.toRat := by
    rw [cmp_eq_compare]
    rcases lt_trichotomy x.toRat y.toRat with h | h | h
    · rw [if_pos h, compare_lt_iff_lt.mpr h]
    · rw [if_neg h.not_lt, if_pos h, compare_eq_iff_eq.mpr h]
    · rw [if_neg h.not_gt, if_neg h.ne', compare_gt_iff_gt.mpr h]
  cases x with
  | decimal a =>
    cases y with
    | decimal b => exact a.compare_eq b
    | rational r => exact hrat
  | rational q => exact hrat

namespace Number

/-- The exact value of a number; zero for a text that cannot be read. -/
def worth : Number → Rat
  | decimal d => d.toRat
  | rational r => r
  | numeral s | amount s => (Decimal.ofText? s).elim 0 Decimal.toRat

def decimalScale : Number → Nat
  | decimal d => d.scale
  | rational _ => 0
  | numeral s | amount s => (Decimal.ofText? s).elim 0 Decimal.scale

/-- The text of the number, if it is one, can be read. -/
def IsReadable : Number → Prop
  | decimal _ | rational _ => True
  | numeral s | amount s => (Decimal.ofText? s).isSome

/-! ## Reading the value -/

variable {n : Number}

theorem toExact_of_isReadable (h : n.IsReadable) : ∃ x, n.toExact = .ok x ∧ x.toRat = n.worth := by
  cases n with
  | decimal d => exact ⟨.decimal d, rfl, rfl⟩
  | rational r => exact ⟨.rational r, rfl, rfl⟩
  | numeral s | amount s =>
    obtain ⟨d, hd⟩ := Option.isSome_iff_exists.mp h
    exact ⟨.decimal d, by simp [toExact, toDecimal, readAs, hd, Except.map], by simp [Exact.toRat, worth, hd]⟩

theorem toRational_of_isReadable (h : n.IsReadable) : n.toRational = .ok n.worth := by
  cases n with
  | decimal d => rfl
  | rational r => rfl
  | numeral s | amount s =>
    obtain ⟨d, hd⟩ := Option.isSome_iff_exists.mp h
    simp [toRational, readAs, ratOfText?_of_ofText? hd, worth, hd]

/-- What a number is converted to for an operation has its value. -/
theorem exactFor_of_isReadable (h : n.IsReadable) (op : Operation) :
    ∃ x, n.exactFor op = .ok x ∧ x.toRat = n.worth ∧ x.scale ≤ n.decimalScale := by
  cases n with
  | decimal d => exact ⟨.decimal d, rfl, rfl, le_rfl⟩
  | rational r => exact ⟨.rational r, rfl, rfl, le_rfl⟩
  | numeral s | amount s =>
    obtain ⟨d, hd⟩ := Option.isSome_iff_exists.mp h
    have hr := ratOfText?_of_ofText? hd
    by_cases hop : op = .divide
    · refine ⟨.rational d.toRat, ?_, by simp [Exact.toRat, worth, hd], Nat.zero_le _⟩
      simp [exactFor, operandFor, hop, readAs, hr, Except.map, toExact, bind, Except.bind]
    · refine ⟨.decimal d, ?_, by simp [Exact.toRat, worth, hd], by simp [Exact.scale, decimalScale, hd]⟩
      simp [exactFor, operandFor, hop, readAs, hd, Except.map, toExact, toDecimal, bind, Except.bind]

theorem scale_of_exactFor {op : Operation} {x : Exact} (hop : op ≠ .divide) (h : n.exactFor op = .ok x) :
    x.scale = n.decimalScale := by
  cases n with
  | decimal d =>
    obtain rfl : Exact.decimal d = x := Except.ok.inj h
    rfl
  | rational r =>
    obtain rfl : Exact.rational r = x := Except.ok.inj h
    rfl
  | numeral s | amount s =>
    cases hd : Decimal.ofText? s with
    | none => simp [exactFor, operandFor, hop, readAs, hd, Except.map, bind, Except.bind] at h
    | some d =>
      obtain rfl : Exact.decimal d = x := by
        simpa [exactFor, operandFor, hop, readAs, hd, Except.map, toExact, toDecimal, bind, Except.bind] using h
      simp [Exact.scale, decimalScale, hd]

theorem ofRational_eq_settled (r : Rat) : ofRational r = rational (settled r) := by
  unfold ofRational settled
  by_cases h : Terminates r
  · rw [if_pos ((isFiniteDecimal_iff r).mpr h), if_pos h]
  · rw [if_neg (mt (isFiniteDecimal_iff r).mp h), if_neg h]

theorem worth_ofRational (r : Rat) : (ofRational r).worth = settled r := by
  rw [ofRational_eq_settled]
  rfl

theorem ofRational_eq_rational (r : Rat) : ∃ q, ofRational r = rational q := ⟨_, ofRational_eq_settled r⟩

theorem ofText_of_isNumericText {s : String} (hnumeric : isNumericText s = true) :
    Number.ofText s = .ok (.amount s) ∨ Number.ofText s = .ok (.numeral s) := by
  have hempty : s.isEmpty = false := by
    by_contra hs
    obtain rfl : s = "" := by simpa using hs
    have hnone : isNumericText "" = false := by cbv
    rw [hnone] at hnumeric
    simp at hnumeric
  by_cases hamount : isAmountText s = true
  · left
    simp [Number.ofText, hempty, hamount]
  · right
    simp [Number.ofText, hempty, hamount, hnumeric]

theorem ofText_of_ofText? {s : String} {d : Decimal} (h : Decimal.ofText? s = some d) :
    Number.ofText s = .ok (.amount s) ∨ Number.ofText s = .ok (.numeral s) :=
  ofText_of_isNumericText (isNumericText_of_ofText? h)

theorem isReadable_text_of_exactFor {s : String} {op : Operation} {a : Exact} (hs : isNumericText s = true)
    (h : (amount s).exactFor op = .ok a ∨ (numeral s).exactFor op = .ok a) : (Decimal.ofText? s).isSome = true := by
  by_cases hop : op = .divide
  · refine isSome_ofText?_of_ratOfText? (notMem_of_isNumericText hs) ?_
    cases hr : ratOfText? s with
    | some r => rfl
    | none => simp [exactFor, operandFor, hop, readAs, hr, Except.map, bind, Except.bind] at h
  · cases hd : Decimal.ofText? s with
    | some d => rfl
    | none => simp [exactFor, operandFor, hop, readAs, hd, Except.map, bind, Except.bind] at h

theorem isReadable_of_exactFor {s : String} {op : Operation} {a : Exact} (hs : Number.ofText s = .ok n)
    (h : n.exactFor op = .ok a) : n.IsReadable := by
  unfold ofText at hs
  split_ifs at hs with hempty hamount hnumeric
  · obtain rfl := Except.ok.inj hs
    have hzero : (Decimal.ofText? "0").isSome = true := by cbv
    exact hzero
  · obtain rfl := Except.ok.inj hs
    exact isReadable_text_of_exactFor (by simp [isNumericText, hamount]) (.inl h)
  · obtain rfl := Except.ok.inj hs
    exact isReadable_text_of_exactFor hnumeric (.inr h)
  · cases hr : recurringValue? s with
    | none => simp [hr] at hs
    | some r =>
      rw [hr] at hs
      obtain rfl := Except.ok.inj hs
      trivial

theorem isZero_of_isReadable (h : n.IsReadable) : n.isZero = .ok (decide (n.worth = 0)) := by
  obtain ⟨x, hx, hval⟩ := toExact_of_isReadable h
  rw [isZero, hx, ← hval, ← Exact.isZero_eq]
  rfl

theorem isOne_of_isReadable (h : n.IsReadable) : n.isOne = .ok (decide (n.worth = 1)) := by
  obtain ⟨x, hx, hval⟩ := toExact_of_isReadable h
  rw [isOne, hx, ← hval, ← Exact.isOne_eq]
  rfl

end Number

end ExactCalc
