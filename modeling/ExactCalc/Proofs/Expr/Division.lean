import Mathlib
import ExactCalc.Proofs.Expr.Evaluation
import ExactCalc.Proofs.Number.Conversion

/-!
# Divisions by zero

A tree of calculations over readable numbers, whose scales add up to a scale, fails with a division by zero only, and
does so exactly if the right operand of a division or of a remainder is zero when it is evaluated with settled results:
`Expr.resolve_error_iff`.

This is not to say that its exact value is zero, for a result may have been simplified to zero
(`Expr.resolve_exactValue_ne`). Simplification cannot do this to a right operand if it leaves alone the results that
the operand is computed from, and the operand is not nearer to zero than `2⁻¹ ^ 52` or has a finite expansion
(`Expr.IsStable`).
-/

namespace ExactCalc

/-- The number is a decimal, a rational, or a numeral of ASCII digits, not too many of them after the point. -/
def Number.IsAscii : Number → Prop
  | decimal _ | rational _ => True
  | numeral s | amount s =>
    isNumericText s = true ∧ (∀ c ∈ s.toList, c.toNat < 128) ∧ fractionDigits s < Decimal.scaleLimit

theorem Number.isAscii_iff {n : Number} : n.IsAscii ↔ n.IsReadable := by
  cases n with
  | decimal d => exact Iff.rfl
  | rational r => exact Iff.rfl
  | numeral s | amount s =>
    constructor
    · exact fun h => (isSome_ofText?_iff_of_isNumericText h.1).mpr h.2
    · intro h
      obtain ⟨d, hd⟩ := Option.isSome_iff_exists.mp h
      have hnumeric := isNumericText_of_ofText? hd
      exact ⟨hnumeric, (isSome_ofText?_iff_of_isNumericText hnumeric).mp h⟩

theorem Number.amount_toString (i : Int) : (amount (toString i)).IsAscii ∧ (amount (toString i)).worth = i := by
  have hread := ofText?_toString i
  constructor
  · rw [isAscii_iff, IsReadable, hread]
    rfl
  · rw [worth, hread]
    exact Decimal.toRat_ofInt i

namespace Expr

variable {e : Expr}

/-! ## Right operands -/

def exactValue : Expr → Rat
  | number n => n.worth
  | binary left op right => op.exact left.exactValue right.exactValue

def divisors : Expr → List Expr
  | number _ => []
  | binary left op right => left.divisors ++ right.divisors ++ if op.divides = true then [right] else []

/-- No result of an operation is changed by simplification. -/
def IsSettled : Expr → Prop
  | number _ => True
  | binary left op right =>
    left.IsSettled ∧ right.IsSettled ∧
      settled (op.exact left.exactValue right.exactValue) = op.exact left.exactValue right.exactValue

/-- The results below the last operation are not changed by simplification, and the last one is not changed to zero. -/
def IsStable : Expr → Prop
  | number _ => True
  | binary left op right =>
    left.IsSettled ∧ right.IsSettled ∧
      (Terminates (op.exact left.exactValue right.exactValue) ∨
        2⁻¹ ^ 52 ≤ |op.exact left.exactValue right.exactValue|)

theorem exactValue_quotient (i j : Int) :
    (binary (number (.amount (toString i))) .divide (number (.amount (toString j)))).exactValue = i / j := by
  rw [exactValue, exactValue, exactValue, (Number.amount_toString i).2, (Number.amount_toString j).2]
  rfl

theorem IsSettled.rational_eq (h : e.IsSettled) : e.rational = e.exactValue := by
  induction e with
  | number n => rfl
  | binary left op right ihl ihr =>
    obtain ⟨hl, hr, hsettled⟩ := h
    rw [rational, ihl hl, ihr hr, hsettled, exactValue]

theorem IsStable.rational_ne_zero (h : e.IsStable) (hne : e.exactValue ≠ 0) : e.rational ≠ 0 := by
  cases e with
  | number n => exact hne
  | binary left op right =>
    obtain ⟨hl, hr, hlarge⟩ := h
    rw [rational, hl.rational_eq, hr.rational_eq, Ne, settled_eq_zero_iff, not_or, not_and, not_lt]
    refine ⟨hne, fun hterm => ?_⟩
    rw [defaultTolerance_eq]
    exact hlarge.resolve_left hterm

theorem faults_eq_nil_iff (e : Expr) : e.faults = [] ↔ ∀ d ∈ e.divisors, d.rational ≠ 0 := by
  induction e with
  | number n => simp [faults, divisors]
  | binary left op right ihl ihr =>
    rw [faults, divisors, List.append_eq_nil_iff, List.append_eq_nil_iff, ihl, ihr, List.forall_mem_append,
      List.forall_mem_append]
    refine and_congr_right fun _ => ?_
    by_cases hop : op.divides = true <;> simp [hop]

/-! ## Errors -/

/-- An expression of readable numbers has a value, or fails with a division by zero. -/
theorem resolve_cases (hread : ∀ n ∈ e.leaves, n.IsReadable) (hscale : e.scaleSum < Decimal.scaleLimit) :
    (∃ n, e.resolve = .ok n) ∨ ∃ op, e.resolve = .error (.divisionByZero op) := by
  have heval := evaluates hread hscale
  unfold Evaluates at heval
  split at heval
  · obtain ⟨n, hn, -⟩ := heval
    exact .inl ⟨n, hn⟩
  · exact .inr ⟨_, heval⟩

theorem exists_resolve_iff (hread : ∀ n ∈ e.leaves, n.IsReadable) (hscale : e.scaleSum < Decimal.scaleLimit) :
    (∃ n, e.resolve = .ok n) ↔ ∀ d ∈ e.divisors, d.rational ≠ 0 := by
  have heval := evaluates hread hscale
  unfold Evaluates at heval
  rw [← faults_eq_nil_iff]
  cases hf : e.faults with
  | nil =>
    rw [hf] at heval
    obtain ⟨n, hn, -⟩ := heval
    exact ⟨fun _ => rfl, fun _ => ⟨n, hn⟩⟩
  | cons op ops =>
    rw [hf] at heval
    have herror : e.resolve = .error (.divisionByZero op) := heval
    simp [herror]

/-- A tree of calculations over decimals, rationals and ASCII numerals, with scales that stay below the limit,
fails with nothing but a division by zero. It fails exactly if the right operand of a division or remainder is
zero after simplification, and it does not fail if these operands are stable and not zero in exact arithmetic.
-/
theorem resolve_error_iff (hleaf : ∀ n ∈ e.leaves, n.IsAscii) (hscale : e.scaleSum < Decimal.scaleLimit) :
    (∀ err, e.toOperand.resolve = .error err → ∃ op, err = .divisionByZero op) ∧
      ((∃ op, e.toOperand.resolve = .error (.divisionByZero op)) ↔ ∃ d ∈ e.divisors, d.rational = 0) ∧
      ((∀ d ∈ e.divisors, d.exactValue ≠ 0 ∧ d.IsStable) → ∃ n, e.toOperand.resolve = .ok n) := by
  have hread : ∀ n ∈ e.leaves, n.IsReadable := fun n hn => Number.isAscii_iff.mp (hleaf n hn)
  have hiff := exists_resolve_iff hread hscale
  rw [resolve_toOperand]
  refine ⟨?_, ⟨?_, ?_⟩, fun h => hiff.mpr fun d hd => (h d hd).2.rational_ne_zero (h d hd).1⟩
  · intro err herr
    obtain ⟨n, hn⟩ | ⟨op, hop⟩ := resolve_cases hread hscale
    · rw [hn] at herr
      simp at herr
    · exact ⟨op, Except.error.inj (herr.symm.trans hop)⟩
  · rintro ⟨op, hop⟩
    by_contra hno
    push Not at hno
    obtain ⟨n, hn⟩ := hiff.mpr hno
    rw [hn] at hop
    simp at hop
  · rintro ⟨d, hd, hzero⟩
    exact (resolve_cases hread hscale).resolve_left fun hn => hiff.mp hn d hd hzero

theorem resolve_error_iff_third :
    let third := binary (number (.amount "1")) .divide (number (.amount "3"))
    (∀ err, (binary (number (.amount "2")) .modulo third).toOperand.resolve = .error err →
      ∃ op, err = .divisionByZero op) ∧
      ∃ n, (binary (number (.amount "2")) .modulo third).toOperand.resolve = .ok n := by
  intro third
  have hthree := Number.amount_toString 3
  have hleaf : ∀ n ∈ (binary (number (.amount "2")) .modulo third).leaves, n.IsAscii := by
    simp only [third, leaves, List.cons_append, List.nil_append, List.forall_mem_cons]
    exact ⟨(Number.amount_toString 2).1, (Number.amount_toString 1).1, hthree.1, by simp⟩
  have hvalue : third.exactValue = 1 / 3 := (exactValue_quotient 1 3).trans (by norm_num)
  have hworth : (number (.amount "3")).exactValue = 3 := hthree.2.trans (by norm_num)
  have hstable : third.IsStable := by
    refine ⟨trivial, trivial, .inr ?_⟩
    change 2⁻¹ ^ 52 ≤ |third.exactValue|
    rw [hvalue]
    norm_num
  have hdivisors : (binary (number (.amount "2")) .modulo third).divisors = [number (.amount "3"), third] := rfl
  have h := resolve_error_iff hleaf (by cbv)
  refine ⟨h.1, h.2.2 ?_⟩
  rw [hdivisors, List.forall_mem_cons, List.forall_mem_singleton, hvalue, hworth]
  exact ⟨⟨by norm_num, trivial⟩, by norm_num, hstable⟩

/-- A right operand that is not zero may be simplified to zero. -/
theorem resolve_exactValue_ne :
    ¬ ∀ e : Expr, (∀ n ∈ e.leaves, n.IsAscii) → (∀ d ∈ e.divisors, d.exactValue ≠ 0) →
      ∃ n, e.toOperand.resolve = .ok n := by
  intro h
  set large := Number.amount "9999999999999999999999" with hlarge
  set small := binary (number (.amount "1")) .divide (number large) with hsmall
  have hone := Number.amount_toString 1
  have hnines := Number.amount_toString 9999999999999999999999
  have hworth : large.worth = 9999999999999999999999 := hnines.2.trans (by norm_num)
  have hvalue : small.exactValue = 1 / 9999999999999999999999 :=
    (exactValue_quotient 1 9999999999999999999999).trans (by norm_num)
  have hleaf : ∀ n ∈ (binary (number (.amount "1")) .divide small).leaves, n.IsAscii := by
    simp only [hsmall, leaves, List.cons_append, List.nil_append, List.forall_mem_cons]
    exact ⟨hone.1, hone.1, hnines.1, by simp⟩
  have hdivisors : (binary (number (.amount "1")) .divide small).divisors = [number large, small] := rfl
  have hexact : ∀ d ∈ [number large, small], d.exactValue ≠ 0 := by
    rw [List.forall_mem_cons, List.forall_mem_singleton, hvalue, exactValue, hworth]
    constructor <;> norm_num
  have hzero : small.rational = 0 := by
    change settled small.exactValue = 0
    have hinfinite : isFiniteDecimal (mkRat 1 9999999999999999999999) = false := by cbv
    rw [Rat.mkRat_eq_div] at hinfinite
    rw [hvalue, settled_eq_zero_iff, ← isFiniteDecimal_iff]
    refine .inr ⟨by simpa using hinfinite, ?_⟩
    rw [defaultTolerance_eq, abs_of_pos (by norm_num)]
    norm_num
  obtain ⟨n, hn⟩ := h _ hleaf (by rwa [hdivisors])
  rw [resolve_toOperand] at hn
  have hne := (exists_resolve_iff (fun n hn => Number.isAscii_iff.mp (hleaf n hn)) (by cbv)).mp ⟨n, hn⟩
  exact hne small (by simp [hdivisors]) hzero

end Expr

end ExactCalc
