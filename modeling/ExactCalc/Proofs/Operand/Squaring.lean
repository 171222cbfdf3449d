import Mathlib
import ExactCalc.Proofs.Decimal.Arithmetic
import ExactCalc.Proofs.Decimal.Notation
import ExactCalc.Proofs.Operand.Value

/-!
# Products of decimals

There is a product of two decimals as long as the sum of the scales is a scale, and it is exact:
`Decimal.product_exact`. A power of a tenth has the mantissa one, so squaring it a few times is all that it
takes to get beyond: the square of a tenth squared `k` times over is `10 ^ -(2 ^ k)` for `k` below 32, and there
is none from there on.
-/

namespace ExactCalc

namespace Number

/-- The number that the product of a number with itself resolves to. -/
def square (n : Number) : Result Number := (Operand.calculation (.number n) .multiply (.number n)).resolve

def squared (n : Number) : Nat → Result Number
  | 0 => .ok n
  | k + 1 => do (← n.squared k).square

def tenth : Number := amount "0.1"

theorem square_eq {n : Number} {d : Decimal} (h : n.exactFor .multiply = .ok (.decimal d)) :
    n.square = Operation.multiply.onExact (.decimal d) (.decimal d) := by
  have hside : (Operand.number n).exactFor .multiply = .ok (.decimal d) := by
    rw [Operand.exactFor, Operand.resolve]
    exact h
  exact Operand.resolve_calculation hside hside

end Number

namespace Decimal

theorem mul?_of_mantissa_one {a b : Decimal} (ha : a.mantissa = 1) (hb : b.mantissa = 1)
    (hscale : a.scale + b.scale < scaleLimit) :
    ∃ c, a.mul? b = some c ∧ c.mantissa = 1 ∧ c.scale = a.scale + b.scale := by
  have hstrip : strip (a.mantissa * b.mantissa) (a.scale + b.scale) = (1, a.scale + b.scale) := by
    rw [ha, hb, one_mul]
    exact strip_of_normal (.inr (by decide))
  exact ⟨_, dif_pos hscale, congrArg Prod.fst hstrip, congrArg Prod.snd hstrip⟩

/-- As long as there is a square of a square, it is a decimal with the mantissa one. -/
theorem exists_squared_tenth {k : Nat} (hk : k < 32) :
    ∃ n d, Number.tenth.squared k = .ok n ∧ n.exactFor .multiply = .ok (.decimal d) ∧ n.toRational = .ok d.toRat ∧
      d.mantissa = 1 ∧ d.scale = 2 ^ k := by
  induction k with
  | zero =>
    have hread : ofText? "0.1" = some (ofScaled 1 1 (by decide)) := by cbv
    have hexact : Number.tenth.exactFor .multiply = .ok (.decimal (ofScaled 1 1 (by decide))) := by
      simp [Number.tenth, Number.exactFor, Number.operandFor, Number.readAs, hread, Except.map, Number.toExact,
        Number.toDecimal, bind, Except.bind]
    have hrational : Number.tenth.toRational = .ok (ofScaled 1 1 (by decide)).toRat := by
      simp [Number.tenth, Number.toRational, Number.readAs, ratOfText?_of_ofText? hread]
    exact ⟨Number.tenth, ofScaled 1 1 (by decide), rfl, hexact, hrational, rfl, rfl⟩
  | succ k ih =>
    obtain ⟨n, d, hn, hexact, -, hmantissa, hscale⟩ := ih (Nat.lt_of_succ_lt hk)
    have hdouble : d.scale + d.scale = 2 ^ (k + 1) := by
      rw [hscale]
      ring
    have hlt : d.scale + d.scale < scaleLimit := by
      rw [hdouble]
      exact Nat.pow_lt_pow_right (by decide) hk
    obtain ⟨c, hc, hone, hsum⟩ := mul?_of_mantissa_one hmantissa hmantissa hlt
    refine ⟨.decimal c, c, ?_, rfl, rfl, hone, hsum.trans hdouble⟩
    simp [Number.squared, hn, Number.square_eq hexact, Operation.onExact, hc, bind, Except.bind]

theorem squared_tenth_eq_overflow {k : Nat} (hk : 32 ≤ k) : Number.tenth.squared k = .error .overflow := by
  induction k, hk using Nat.le_induction with
  | base =>
    obtain ⟨n, d, hn, hexact, -, -, hscale⟩ := exists_squared_tenth (k := 31) (by decide)
    have hlarge : ¬ (Exact.decimal d).scale + (Exact.decimal d).scale < scaleLimit := by
      rw [Exact.scale, hscale]
      decide
    rw [Number.squared, hn]
    exact (Number.square_eq hexact).trans (Operation.onExact_of_scale rfl hlarge)
  | succ k hk ih =>
    rw [Number.squared, ih]
    rfl

/-- There is a product exactly if the sum of the scales is less than the limit, and it has the value of the
product, also as the result of an operation. The tenth squared over and over has the exact value as long as it
has one. -/
theorem product_exact (a b : Decimal) :
    ((∃ c, a.mul? b = some c) ↔ a.scale + b.scale < scaleLimit) ∧
      (∀ c, a.mul? b = some c → c.toRat = a.toRat * b.toRat) ∧
      (∀ op n, op = .multiply ∨ op = .times → Operation.onExact op (.decimal a) (.decimal b) = .ok n →
        n.toRational = .ok (a.toRat * b.toRat)) ∧
      ∀ k, ((∃ n, Number.tenth.squared k = .ok n) ↔ k < 32) ∧
        ∀ n, Number.tenth.squared k = .ok n → n.toRational = .ok ((1 / 10) ^ 2 ^ k) := by
  refine ⟨?_, fun c => toRat_of_mul?_eq_some, ?_, fun k => ?_⟩
  · rw [← isSome_mul?_iff, Option.isSome_iff_exists]
  · intro op n hop hn
    cases hmul : a.mul? b with
    | none => rcases hop with rfl | rfl <;> simp [Operation.onExact, hmul] at hn
    | some c =>
      have hresult : n = .decimal c := by
        rcases hop with rfl | rfl <;> simpa [Operation.onExact, hmul, eq_comm] using hn
      rw [hresult, ← toRat_of_mul?_eq_some hmul]
      rfl
  · rcases Nat.lt_or_ge k 32 with hk | hk
    · obtain ⟨n, d, hn, -, hvalue, hmantissa, hscale⟩ := exists_squared_tenth hk
      rw [hn]
      refine ⟨iff_of_true ⟨n, rfl⟩ hk, ?_⟩
      rintro _ ⟨⟩
      rw [hvalue, toRat_eq, hmantissa, hscale, Int.cast_one, one_div_pow]
    · rw [squared_tenth_eq_overflow hk]
      refine ⟨iff_of_false ?_ (Nat.not_lt.mpr hk), ?_⟩
      · rintro ⟨n, hn⟩
        cases hn
      · intro n hn
        cases hn

theorem product_exact_fifth :
    (ofScaled 5 1 (by decide)).mul? (ofScaled 4 1 (by decide)) = some (ofScaled 2 1 (by decide)) ∧
      (ofScaled 2 1 (by decide)).toRat = (ofScaled 5 1 (by decide)).toRat * (ofScaled 4 1 (by decide)).toRat ∧
      ∃ n, Number.tenth.squared 5 = .ok n ∧ n.toRational = .ok ((1 / 10) ^ 2 ^ 5) := by
  have hmul : (ofScaled 5 1 (by decide)).mul? (ofScaled 4 1 (by decide)) = some (ofScaled 2 1 (by decide)) := by decide
  obtain ⟨-, hvalue, -, hsquares⟩ := product_exact (ofScaled 5 1 (by decide)) (ofScaled 4 1 (by decide))
  obtain ⟨n, hn⟩ := (hsquares 5).1.mpr (by decide)
  exact ⟨hmul, hvalue _ hmul, n, hn, (hsquares 5).2 n hn⟩

end Decimal

end ExactCalc
