import Mathlib
import ExactCalc.Operand
import ExactCalc.Proofs.Number.Value

/-!
# Evaluation in rationals

`Expr.rational` evaluates an expression in rationals only: a leaf is worth its exact value, and the result of
an operation is kept if its expansion ends and simplified otherwise. `Expr.faults` lists the divisions by zero
in the order in which the operations are computed.

The value of an expression is the rational one, or the first fault (`Expr.resolve_refines`). That some operands
are decimals and some are rationals does not show: decimals stay decimals under every operation but the
division, and the value of a decimal always terminates.
-/

namespace ExactCalc

/-! ## Rational evaluation -/

def Operation.exact (op : Operation) (a b : Rat) : Rat :=
  match op with
  | .plus => a + b
  | .minus => a - b
  | .multiply | .times => a * b
  | .divide => a / b
  | .modulo => a - b * towardZero (a / b)

/-- Whether the operation has no result for zero on the right. -/
def Operation.divides (op : Operation) : Bool := op = .divide || op = .modulo

/-- Whether the operation has no result for decimals whose scales add up to no scale. -/
def Operation.addsScales (op : Operation) : Bool := op = .multiply || op = .times

namespace Expr

def leaves : Expr → List Number
  | number n => [n]
  | binary left _ right => left.leaves ++ right.leaves

def scaleSum (e : Expr) : Nat := (e.leaves.map Number.decimalScale).sum

def rational : Expr → Rat
  | number n => n.worth
  | binary left op right => settled (op.exact left.rational right.rational)

/-- The operations with a division by zero, in the order of computation. -/
def faults : Expr → List Operation
  | number _ => []
  | binary left op right =>
    left.faults ++ right.faults ++ if op.divides = true ∧ right.rational = 0 then [op] else []

end Expr

/-! ## Operations -/

theorem truncation_eq_towardZero (r : Rat) : truncation r = towardZero r := by
  rw [truncation, ← towardZero_div]
  exact congrArg towardZero (Rat.num_div_den r)

namespace Operation

variable {op : Operation}

theorem onRationals_eq {a b : Rat} (h : op.divides = true → b ≠ 0) : op.onRationals a b = .ok (op.exact a b) := by
  cases op with
  | plus | minus | multiply | times => rfl
  | divide => simp [onRationals, exact, h rfl]
  | modulo => simp [onRationals, exact, h rfl, truncation_eq_towardZero]

theorem onRationals_zero (h : op.divides = true) (a : Rat) : op.onRationals a 0 = .error (.divisionByZero op) := by
  cases op with
  | plus | minus | multiply | times => simp [divides] at h
  | divide | modulo => rfl

theorem onExact_decimals {a b : Decimal} (hop : op ≠ .divide) (hscale : a.scale + b.scale < Decimal.scaleLimit)
    (h : op.divides = true → b.toRat ≠ 0) :
    ∃ d, op.onExact (.decimal a) (.decimal b) = .ok (.decimal d) ∧ d.toRat = op.exact a.toRat b.toRat ∧
      d.scale ≤ a.scale + b.scale := by
  cases op with
  | plus => exact ⟨a + b, rfl, Decimal.toRat_add a b, Decimal.scale_add_le a b⟩
  | minus => exact ⟨a - b, rfl, Decimal.toRat_sub a b, Decimal.scale_sub_le a b⟩
  | multiply | times =>
    obtain ⟨d, hd⟩ := Option.isSome_iff_exists.mp ((Decimal.isSome_mul?_iff a b).mpr hscale)
    exact ⟨d, by simp [onExact, hd], Decimal.toRat_of_mul?_eq_some hd, Decimal.scale_le_of_mul?_eq_some hd⟩
  | divide => exact absurd rfl hop
  | modulo =>
    obtain ⟨r, hr⟩ := Option.ne_none_iff_exists'.mp (mt (Decimal.rem?_eq_none_iff a b).mp (h rfl))
    exact ⟨r, by simp [onExact, hr], Decimal.toRat_of_rem?_eq_some hr, Decimal.scale_le_of_rem?_eq_some hr⟩

theorem onExact_eq_onRationals {a b : Exact} (h : ¬ (op ≠ .divide ∧ ∃ x y, a = .decimal x ∧ b = .decimal y)) :
    op.onExact a b = (op.onRationals a.toRat b.toRat).map Number.ofRational := by
  cases a with
  | decimal a =>
    cases b with
    | decimal b =>
      obtain rfl : op = .divide := by
        by_contra hop
        exact h ⟨hop, a, b, rfl, rfl⟩
      rfl
    | rational b => cases op <;> rfl
  | rational a => cases op <;> rfl

theorem onRationals_cases (op : Operation) (a b : Rat) :
    (∃ r, op.onRationals a b = .ok r) ∨ op.onRationals a b = .error (.divisionByZero op) := by
  by_cases h : op.divides = true ∧ b = 0
  · rw [h.2]
    exact .inr (onRationals_zero h.1 a)
  · exact .inl ⟨_, onRationals_eq fun hop hb => h ⟨hop, hb⟩⟩

/-- An operation on exact values gives a decimal or a rational, or fails with its division by zero, or two scales add
up to no scale. -/
theorem onExact_cases (op : Operation) (a b : Exact) :
    (∃ d, op.onExact a b = .ok (.decimal d)) ∨ (∃ r, op.onExact a b = .ok (.rational r)) ∨
      op.onExact a b = .error (.divisionByZero op) ∨ op.onExact a b = .error .overflow := by
  by_cases hdec : op ≠ .divide ∧ ∃ x y, a = .decimal x ∧ b = .decimal y
  · obtain ⟨hop, x, y, rfl, rfl⟩ := hdec
    cases op with
    | plus | minus => exact .inl ⟨_, rfl⟩
    | multiply | times =>
      cases hmul : x.mul? y with
      | none => exact .inr (.inr (.inr (by simp [onExact, hmul])))
      | some d => exact .inl ⟨d, by simp [onExact, hmul]⟩
    | divide => exact absurd rfl hop
    | modulo =>
      cases hrem : x.rem? y with
      | none => exact .inr (.inr (.inl (by simp [onExact, hrem])))
      | some r => exact .inl ⟨r, by simp [onExact, hrem]⟩
  · rw [onExact_eq_onRationals hdec]
    obtain ⟨r, hr⟩ | herror := op.onRationals_cases a.toRat b.toRat
    · obtain ⟨q, hq⟩ := Number.ofRational_eq_rational r
      refine .inr (.inl ⟨q, ?_⟩)
      rw [hr, ← hq]
      rfl
    · refine .inr (.inr (.inl ?_))
      rw [herror]
      rfl

theorem onExact_of_ne {a b : Exact} (hscale : op ≠ .divide → a.scale + b.scale < Decimal.scaleLimit)
    (h : op.divides = true → b.toRat ≠ 0) :
    ∃ n, op.onExact a b = .ok n ∧ n.IsReadable ∧ n.worth = settled (op.exact a.toRat b.toRat) ∧
      n.decimalScale ≤ a.scale + b.scale := by
  by_cases hdec : op ≠ .divide ∧ ∃ x y, a = .decimal x ∧ b = .decimal y
  · obtain ⟨hop, x, y, rfl, rfl⟩ := hdec
    obtain ⟨d, hd, hval, hle⟩ := onExact_decimals hop (hscale hop) h
    refine ⟨.decimal d, hd, trivial, ?_, hle⟩
    change d.toRat = settled (op.exact x.toRat y.toRat)
    rw [← hval, settled_of_terminates d.terminates_toRat]
  · obtain ⟨q, hq⟩ := Number.ofRational_eq_rational (op.exact a.toRat b.toRat)
    refine ⟨Number.ofRational (op.exact a.toRat b.toRat), ?_, ?_, Number.worth_ofRational _, ?_⟩
    · rw [onExact_eq_onRationals hdec, onRationals_eq h]
      rfl
    · rw [hq]
      trivial
    · rw [hq]
      exact Nat.zero_le _

theorem onExact_of_zero (hop : op.divides = true) {a b : Exact} (hb : b.toRat = 0) :
    op.onExact a b = .error (.divisionByZero op) := by
  by_cases hdec : op ≠ .divide ∧ ∃ x y, a = .decimal x ∧ b = .decimal y
  · obtain ⟨hne, x, y, rfl, rfl⟩ := hdec
    obtain rfl : op = .modulo := by
      cases op <;> simp_all [divides]
    have hnone : x.rem? y = none := (Decimal.rem?_eq_none_iff x y).mpr hb
    simp [onExact, hnone]
  · rw [onExact_eq_onRationals hdec, hb, onRationals_zero hop]
    rfl

/-- The product of decimals whose scales add up to no scale is broken off; there is no other product of two such
values. -/
theorem onExact_of_scale {a b : Exact} (hop : op.addsScales = true)
    (hscale : ¬ a.scale + b.scale < Decimal.scaleLimit) :
    op.onExact a b = .error .overflow := by
  obtain ⟨x, y, rfl, rfl⟩ := (Exact.decimals_or_scale_add_lt a b).resolve_right hscale
  have hnone : x.mul? y = none := by simpa using mt (Decimal.isSome_mul?_iff x y).mp hscale
  cases op with
  | multiply | times => simp [onExact, hnone]
  | plus | minus | divide | modulo => simp [addsScales] at hop

/-- An operation on exact values has a result unless it divides by zero, or is a product of decimals whose scales add up
to no scale. -/
theorem exists_onExact_eq_ok_iff {a b : Exact} :
    (∃ n, op.onExact a b = .ok n) ↔
      (op.divides = true → b.toRat ≠ 0) ∧ (op.addsScales = true → a.scale + b.scale < Decimal.scaleLimit) := by
  constructor
  · rintro ⟨n, hn⟩
    constructor
    · intro hop hzero
      rw [onExact_of_zero hop hzero] at hn
      cases hn
    · intro hop
      by_contra hscale
      rw [onExact_of_scale hop hscale] at hn
      cases hn
  · rintro ⟨hne, hscale⟩
    by_cases hdec : op ≠ .divide ∧ ∃ x y, a = .decimal x ∧ b = .decimal y
    · obtain ⟨hop, x, y, rfl, rfl⟩ := hdec
      cases op with
      | plus | minus => exact ⟨_, rfl⟩
      | multiply | times =>
        obtain ⟨d, hd, -⟩ := onExact_decimals hop (hscale rfl) hne
        exact ⟨.decimal d, hd⟩
      | divide => exact absurd rfl hop
      | modulo =>
        obtain ⟨d, hd⟩ := Option.ne_none_iff_exists'.mp (mt (Decimal.rem?_eq_none_iff x y).mp (hne rfl))
        exact ⟨.decimal d, by simp [onExact, hd]⟩
    · rw [onExact_eq_onRationals hdec, onRationals_eq hne]
      exact ⟨_, rfl⟩

theorem divide_onExact {a b : Exact} (hb : b.toRat ≠ 0) :
    divide.onExact a b = .ok (Number.ofRational (a.toRat / b.toRat)) := by
  rw [onExact_eq_onRationals fun h => h.1 rfl, onRationals_eq fun _ => hb]
  rfl

end Operation

/-- Simplifying twice is simplifying once, so a rational result is kept when it is made a result again, also as the
quotient of any two values that it is the quotient of. -/
theorem Number.ofRational_stable :
    (∀ r eps : Rat, simplify (simplify r eps) eps = simplify r eps) ∧
    ∀ r : Rat, ∃ c, ofRational r = rational c ∧ ofRational c = rational c ∧
      ∀ a b : Exact, b.toRat ≠ 0 → a.toRat / b.toRat = c → Operation.divide.onExact a b = .ok (rational c) := by
  refine ⟨simplify_simplify, fun r => ?_⟩
  have hagain : ofRational (settled r) = rational (settled r) := by rw [ofRational_eq_settled, settled_settled]
  refine ⟨settled r, ofRational_eq_settled r, hagain, fun a b hb hquot => ?_⟩
  rw [Operation.divide_onExact hb, hquot, hagain]

/-! ## Expressions -/

namespace Expr

def Evaluates (e : Expr) : Prop :=
  match e.faults with
  | [] => ∃ n, e.resolve = .ok n ∧ n.IsReadable ∧ n.worth = e.rational ∧ n.decimalScale ≤ e.scaleSum
  | op :: _ => e.resolve = .error (.divisionByZero op)

theorem scaleSum_binary (left right : Expr) (op : Operation) :
    (binary left op right).scaleSum = left.scaleSum + right.scaleSum := by
  simp [scaleSum, leaves]

theorem evaluates_binary {left right : Expr} {op : Operation} (hl : left.Evaluates) (hr : right.Evaluates)
    (hscale : left.scaleSum + right.scaleSum < Decimal.scaleLimit) : (binary left op right).Evaluates := by
  unfold Evaluates at hl hr ⊢
  rw [faults]
  cases hlf : left.faults with
  | cons o os =>
    rw [hlf] at hl
    simp only at hl
    simp [resolve, hl, bind, Except.bind]
  | nil =>
    rw [hlf] at hl
    obtain ⟨m, hm, hmread, hmworth, hmscale⟩ := hl
    obtain ⟨a, ha, haval, hascale⟩ := Number.exactFor_of_isReadable hmread op
    cases hrf : right.faults with
    | cons o os =>
      rw [hrf] at hr
      simp only at hr
      simp [resolve, hm, ha, hr, bind, Except.bind]
    | nil =>
      rw [hrf] at hr
      obtain ⟨n, hn, hnread, hnworth, hnscale⟩ := hr
      obtain ⟨b, hb, hbval, hbscale⟩ := Number.exactFor_of_isReadable hnread op
      have hresolve : (binary left op right).resolve = op.onExact a b := by
        simp [resolve, hm, ha, hn, hb, bind, Except.bind]
      have hbq : b.toRat = right.rational := hbval.trans hnworth
      have haq : a.toRat = left.rational := haval.trans hmworth
      by_cases hzero : op.divides = true ∧ right.rational = 0
      · rw [if_pos hzero]
        simp only [List.nil_append]
        rw [hresolve]
        exact Operation.onExact_of_zero hzero.1 (hbq.trans hzero.2)
      · rw [if_neg hzero]
        simp only [List.append_nil]
        have hsum : op ≠ .divide → a.scale + b.scale < Decimal.scaleLimit := fun _ => by omega
        have hne : op.divides = true → b.toRat ≠ 0 := fun hop h => hzero ⟨hop, hbq.symm.trans h⟩
        obtain ⟨v, hv, hvread, hvworth, hvscale⟩ := Operation.onExact_of_ne hsum hne
        refine ⟨v, hresolve.trans hv, hvread, ?_, ?_⟩
        · rw [hvworth, haq, hbq]
          rfl
        · rw [scaleSum_binary]
          omega

/-- An expression of readable numbers evaluates to its rational value or to its first fault. -/
theorem evaluates {e : Expr} (hread : ∀ n ∈ e.leaves, n.IsReadable) (hscale : e.scaleSum < Decimal.scaleLimit) :
    e.Evaluates := by
  induction e with
  | number n =>
    refine ⟨n, rfl, hread n (by simp [leaves]), rfl, ?_⟩
    simp [scaleSum, leaves]
  | binary left op right ihl ihr =>
    rw [scaleSum_binary] at hscale
    have hl := ihl (fun n hn => hread n (by simp [leaves, hn])) (by omega)
    have hr := ihr (fun n hn => hread n (by simp [leaves, hn])) (by omega)
    exact evaluates_binary hl hr hscale

/-- The expression is computed without a fault, from readable numbers, to a value. -/
structure HasValue (e : Expr) (v : Rat) : Prop where
  readable : ∀ n ∈ e.leaves, n.IsReadable
  faults_eq : e.faults = []
  rational_eq : e.rational = v

theorem hasValue_number {n : Number} (h : n.IsReadable) : (number n).HasValue n.worth :=
  ⟨by simpa [leaves] using h, rfl, rfl⟩

theorem HasValue.binary {left right : Expr} {op : Operation} {u v : Rat} (hl : left.HasValue u) (hr : right.HasValue v)
    (hop : op.divides = true → v ≠ 0) : (binary left op right).HasValue (settled (op.exact u v)) := by
  refine ⟨?_, ?_, ?_⟩
  · rw [leaves]
    exact List.forall_mem_append.mpr ⟨hl.readable, hr.readable⟩
  · have hne : ¬ (op.divides = true ∧ right.rational = 0) := fun h => hop h.1 (hr.rational_eq.symm.trans h.2)
    rw [faults, hl.faults_eq, hr.faults_eq, if_neg hne]
    rfl
  · rw [rational, hl.rational_eq, hr.rational_eq]

theorem HasValue.exists_resolve {e : Expr} {v : Rat} (h : e.HasValue v) (hscale : e.scaleSum < Decimal.scaleLimit) :
    ∃ n, e.resolve = .ok n ∧ n.IsReadable ∧ n.worth = v ∧ n.decimalScale ≤ e.scaleSum := by
  have heval := evaluates h.readable hscale
  rw [Evaluates, h.faults_eq] at heval
  rw [← h.rational_eq]
  exact heval

theorem resolve_toOperand (e : Expr) : e.toOperand.resolve = e.resolve := by
  induction e with
  | number n => rfl
  | binary left op right ihl ihr =>
    rw [toOperand, Operand.resolve, ihl, ihr]
    rfl

/-- A tree of calculations over readable numbers resolves to the value that it has in rationals, or fails with
its first division by zero. -/
theorem resolve_refines {e : Expr} (hread : ∀ n ∈ e.leaves, n.IsReadable)
    (hscale : e.scaleSum < Decimal.scaleLimit) :
    match e.faults with
    | [] => ∃ n x, e.toOperand.resolve = .ok n ∧ n.toExact = .ok x ∧ x.toRat = e.rational ∧
        n.toRational = .ok e.rational
    | op :: _ => e.toOperand.resolve = .error (.divisionByZero op) := by
  have h := evaluates hread hscale
  unfold Evaluates at h
  rw [resolve_toOperand]
  cases hf : e.faults with
  | nil =>
    rw [hf] at h
    obtain ⟨n, hn, hnread, hworth, -⟩ := h
    obtain ⟨x, hx, hval⟩ := Number.toExact_of_isReadable hnread
    refine ⟨n, x, hn, hx, hval.trans hworth, ?_⟩
    rw [Number.toRational_of_isReadable hnread, hworth]
  | cons op ops =>
    rw [hf] at h
    exact h

theorem resolve_refines_zero :
    (∃ n x, (binary (.number (.amount "1")) .plus (.number (.amount "0.5"))).toOperand.resolve = .ok n ∧
      n.toExact = .ok x ∧
      x.toRat = (binary (.number (.amount "1")) .plus (.number (.amount "0.5"))).rational ∧
      n.toRational = .ok (binary (.number (.amount "1")) .plus (.number (.amount "0.5"))).rational) ∧
    (binary (.number (.amount "1")) .divide (.number (.rational 0))).toOperand.resolve =
      .error (.divisionByZero .divide) := by
  have h₁ : (Decimal.ofText? "1").isSome = true := by cbv
  have h₂ : (Decimal.ofText? "0.5").isSome = true := by cbv
  have hsum : (binary (.number (.amount "1")) .plus (.number (.amount "0.5"))).scaleSum < Decimal.scaleLimit := by cbv
  have hquot : (binary (.number (.amount "1")) .divide (.number (.rational 0))).scaleSum < Decimal.scaleLimit := by
    cbv
  constructor
  · exact resolve_refines (by simp [leaves, Number.IsReadable, h₁, h₂]) hsum
  · have hfault : (binary (.number (.amount "1")) .divide (.number (.rational 0))).faults = [.divide] := by
      simp [faults, Operation.divides, rational, Number.worth]
    have h := resolve_refines (e := binary (.number (.amount "1")) .divide (.number (.rational 0)))
      (by simp [leaves, Number.IsReadable, h₁]) hquot
    rw [hfault] at h
    exact h

end Expr

end ExactCalc
