import Mathlib
import ExactCalc.Proofs.Operand.Comparison

/-!
# Operations that fail

A calculation has a value exactly if both sides have one, it does not divide by zero and, if it is a product,
the scales add up to a scale (`Operand.exists_resolve_calculation_iff`). An operation that is computed need not
ask both sides: it asks them in turn for being zero or one, and stops when one of them is the result. It has
been asked for its value by then, and so has the other side, with one exception: a zero on the left is the
product whatever is on the right (`Operation.Absorbs`). So the operation gives an operand with a value exactly
if the calculation has one, or in that case (`Operand.exists_reduce_iff`).
-/

namespace ExactCalc

namespace Operation

variable {op : Operation}

/-- The operation has this left side as its result, whatever is on the right. -/
def Absorbs : Operation → Rat → Prop
  | .multiply, u | .times, u => u = 0
  | _, _ => False

section
variable {leftIsZero leftIsOne rightIsZero rightIsOne : Result Bool}

/-- The right side is the result only after the left side has been asked. -/
theorem leftIsZero_of_shortCircuit
    (h : op.shortCircuit leftIsZero leftIsOne rightIsZero rightIsOne = .ok (some .right)) :
    ∃ b, leftIsZero = .ok b := by
  cases op with
  | plus | multiply | times =>
    obtain ⟨b, hb, -⟩ := exists_of_bind_ok h
    exact ⟨b, hb⟩
  | minus | divide =>
    obtain ⟨b, -, h⟩ := exists_of_bind_ok h
    cases b <;> cases h
  | modulo => cases h

/-- The left side is the result only after the right side has been asked, or if it absorbs the right side. -/
theorem right_of_shortCircuit
    (h : op.shortCircuit leftIsZero leftIsOne rightIsZero rightIsOne = .ok (some .left)) :
    (∃ b, rightIsZero = .ok b) ∨ (∃ b, rightIsOne = .ok b) ∨ op.Absorbs 0 ∧ leftIsZero = .ok true := by
  cases op with
  | plus =>
    obtain ⟨zero, -, h⟩ := exists_of_bind_ok h
    cases zero with
    | true => cases h
    | false =>
      obtain ⟨b, hb, -⟩ := exists_of_bind_ok h
      exact .inl ⟨b, hb⟩
  | minus =>
    obtain ⟨b, hb, -⟩ := exists_of_bind_ok h
    exact .inl ⟨b, hb⟩
  | multiply | times =>
    obtain ⟨zero, hzero, h⟩ := exists_of_bind_ok h
    cases zero with
    | true => exact .inr (.inr ⟨rfl, hzero⟩)
    | false =>
      obtain ⟨b, hb, -⟩ := exists_of_bind_ok h
      exact .inr (.inl ⟨b, hb⟩)
  | divide =>
    obtain ⟨b, hb, -⟩ := exists_of_bind_ok h
    exact .inr (.inl ⟨b, hb⟩)
  | modulo => cases h

end

end Operation

namespace Operand

variable {x left right : Operand} {op : Operation}

theorem isReadable_of_isZero {b : Bool} (h : x.isZero = .ok b) : x.IsReadable := by
  obtain ⟨n, hn, h⟩ := exists_of_bind_ok h
  obtain ⟨a, ha, -⟩ := exists_of_bind_ok h
  exact ⟨n, hn, Number.isReadable_of_toExact ha⟩

theorem isReadable_of_isOne {b : Bool} (h : x.isOne = .ok b) : x.IsReadable := by
  obtain ⟨n, hn, h⟩ := exists_of_bind_ok h
  obtain ⟨a, ha, -⟩ := exists_of_bind_ok h
  exact ⟨n, hn, Number.isReadable_of_toExact ha⟩

/-- If the operand resolves at all, then to a number that can be read. -/
def ReadsResolved (x : Operand) : Prop := ∀ n, x.resolve = .ok n → n.IsReadable

theorem readsResolved_calculation (left : Operand) (op : Operation) (right : Operand) :
    (calculation left op right).ReadsResolved := by
  intro n hn
  obtain ⟨a, b, -, -, h⟩ := exists_exactFor_of_resolve hn
  obtain ⟨d, rfl⟩ | ⟨r, rfl⟩ := Operation.exists_of_onExact h <;> trivial

theorem ReadsResolved.of_exactFor {a : Exact} (h : x.ReadsResolved) (ha : x.exactFor op = .ok a) : x.IsReadable := by
  obtain ⟨n, hn, -⟩ := exists_of_bind_ok ha
  exact ⟨n, hn, h n hn⟩

/-- The scale of the number that the operand resolves to; zero if there is none. -/
def scale (x : Operand) : Nat := x.resolve.toOption.elim 0 Number.decimalScale

theorem scale_of_exactFor {a : Exact} (hop : op.addsScales = true) (ha : x.exactFor op = .ok a) :
    a.scale = x.scale := by
  have hne : op ≠ .divide := by
    rintro rfl
    simp [Operation.addsScales] at hop
  obtain ⟨n, hn, ha⟩ := exists_of_bind_ok ha
  rw [scale, hn]
  exact Number.scale_of_exactFor hne ha

def FitsScale (left : Operand) (op : Operation) (right : Operand) : Prop :=
  op.addsScales = true → left.scale + right.scale < Decimal.scaleLimit

theorem fitsScale_iff {a b : Exact} (ha : left.exactFor op = .ok a) (hb : right.exactFor op = .ok b) :
    FitsScale left op right ↔ (op.addsScales = true → a.scale + b.scale < Decimal.scaleLimit) := by
  refine forall_congr' fun hop => ?_
  rw [scale_of_exactFor hop ha, scale_of_exactFor hop hb]

/-- A calculation has a value exactly if both sides have one, it does not divide by zero and the scales fit. -/
theorem exists_resolve_calculation_iff (hl : left.ReadsResolved) (hr : right.ReadsResolved) :
    (∃ n, (calculation left op right).resolve = .ok n) ↔
      left.IsReadable ∧ right.IsReadable ∧ (op.divides = true → right.worth ≠ 0) ∧ FitsScale left op right := by
  constructor
  · rintro ⟨n, hn⟩
    obtain ⟨a, b, ha, hb, hresult⟩ := exists_exactFor_of_resolve hn
    have hright := hr.of_exactFor hb
    obtain ⟨b', hb', hvalue⟩ := hright.exists_exactFor op
    obtain rfl := Except.ok.inj (hb.symm.trans hb')
    obtain ⟨hne, hscale⟩ := Operation.exists_onExact_eq_ok_iff.mp ⟨n, hresult⟩
    exact ⟨hl.of_exactFor ha, hright, hvalue ▸ hne, (fitsScale_iff ha hb).mpr hscale⟩
  · rintro ⟨hleft, hright, hne, hscale⟩
    obtain ⟨a, ha, -⟩ := hleft.exists_exactFor op
    obtain ⟨b, hb, hvalue⟩ := hright.exists_exactFor op
    rw [resolve_calculation ha hb]
    exact Operation.exists_onExact_eq_ok_iff.mpr ⟨hvalue ▸ hne, (fitsScale_iff ha hb).mp hscale⟩

/-- Where a side is the result, the other one or itself is an integer, so the scales fit. -/
theorem fitsScale_of_short {s : Side} (hl : left.IsReadable) (hr : right.IsReadable)
    (h : op.Short s left.worth right.worth) : FitsScale left op right := by
  obtain ⟨a, ha, hleft⟩ := hl.exists_exactFor op
  obtain ⟨b, hb, hright⟩ := hr.exists_exactFor op
  rw [← hleft, ← hright] at h
  exact (fitsScale_iff ha hb).mpr fun _ => h.scale_add_lt

theorem reduce_of_absorbs (hl : left.IsReadable) (h : op.Absorbs left.worth) : reduce left op right = .ok left := by
  cases op with
  | multiply | times =>
    have hworth : left.worth = 0 := h
    have hzero : left.isZero = .ok true := by rw [hl.isZero_eq, decide_eq_true hworth]
    refine reduce_of_some (s := .left) ?_
    rw [shortCircuit, hzero]
    rfl
  | plus | minus | divide | modulo => exact h.elim

/-- A side that is the result has a value, and then so has the other side, unless the result absorbs it. -/
theorem readable_of_shortCircuit {s : Side} {n : Number} (hl : left.ReadsResolved) (hr : right.ReadsResolved)
    (h : shortCircuit left op right = .ok (some s)) (hn : (s.pick left right).resolve = .ok n) :
    left.IsReadable ∧ (right.IsReadable ∨ op.Absorbs left.worth) := by
  cases s with
  | left =>
    have hleft : left.IsReadable := ⟨n, hn, hl n hn⟩
    refine ⟨hleft, ?_⟩
    obtain ⟨b, hb⟩ | ⟨b, hb⟩ | ⟨hop, hzero⟩ := Operation.right_of_shortCircuit h
    · exact .inl (isReadable_of_isZero hb)
    · exact .inl (isReadable_of_isOne hb)
    · have hworth : left.worth = 0 := by simpa using hleft.isZero_eq.symm.trans hzero
      exact .inr (hworth ▸ hop)
  | right =>
    obtain ⟨b, hb⟩ := Operation.leftIsZero_of_shortCircuit h
    exact ⟨isReadable_of_isZero hb, .inl ⟨n, hn, hr n hn⟩⟩

/-- An operation gives an operand with a value exactly if the calculation has one, or if it is a product with
zero on the left, which is then the result, whatever is on the right. -/
theorem exists_reduce_iff (hl : left.ReadsResolved) (hr : right.ReadsResolved) (op : Operation) :
    ((∃ z n, reduce left op right = .ok z ∧ z.resolve = .ok n) ↔
      (∃ n, (calculation left op right).resolve = .ok n) ∨ left.IsReadable ∧ op.Absorbs left.worth) ∧
    (left.IsReadable → op.Absorbs left.worth → reduce left op right = .ok left) := by
  refine ⟨⟨?_, ?_⟩, reduce_of_absorbs⟩
  · rintro ⟨z, n, hz, hn⟩
    obtain ⟨side, hside, -⟩ := exists_of_bind_ok hz
    cases side with
    | none =>
      rw [reduce_of_none hside] at hz
      obtain ⟨m, hm, -⟩ := exists_of_map_ok hz
      exact .inl ⟨m, hm⟩
    | some s =>
      obtain rfl := Except.ok.inj ((reduce_of_some hside).symm.trans hz)
      obtain ⟨hleft, hright | habsorbs⟩ := readable_of_shortCircuit hl hr hside hn
      · obtain ⟨side', hside', hshort, -⟩ := hleft.exists_shortCircuit hright op
        obtain rfl := Except.ok.inj (hside.symm.trans hside')
        exact .inl ((exists_resolve_calculation_iff hl hr).mpr
          ⟨hleft, hright, (hshort s rfl).ne_zero, fitsScale_of_short hleft hright (hshort s rfl)⟩)
      · exact .inr ⟨hleft, habsorbs⟩
  · rintro (⟨n, hn⟩ | ⟨hleft, habsorbs⟩)
    · obtain ⟨hleft, hright, -⟩ := (exists_resolve_calculation_iff hl hr).mp ⟨n, hn⟩
      obtain ⟨side, hside, -, -⟩ := hleft.exists_shortCircuit hright op
      rcases side with - | (- | -)
      · exact ⟨number n, n, by rw [reduce_of_none hside, hn]; rfl, rfl⟩
      · obtain ⟨m, hm, -⟩ := hleft
        exact ⟨left, m, reduce_of_some hside, hm⟩
      · obtain ⟨m, hm, -⟩ := hright
        exact ⟨right, m, reduce_of_some hside, hm⟩
    · obtain ⟨n, hn, -⟩ := id hleft
      exact ⟨left, n, reduce_of_absorbs hleft habsorbs, hn⟩

/-- A product with a phrase of value zero does not fail with the division by zero on its right. -/
theorem exists_reduce_iff_quotient :
    let left := phrase (.written "1 - 1")
    let right := calculation (number .one) .divide (number .zero)
    (∃ z n, reduce left .times right = .ok z ∧ z.resolve = .ok n) ∧ reduce left .times right = .ok left := by
  intro left right
  have hresolve : left.resolve = .ok (.decimal .zero) := by cbv
  have hleft : left.IsReadable := ⟨_, hresolve, trivial⟩
  have hzero : Operation.times.Absorbs left.worth := by
    have hworth : (Number.decimal .zero).worth = 0 := by decide +kernel
    exact (worth_eq hresolve).trans hworth
  have hl : left.ReadsResolved := by
    intro n hn
    obtain rfl := Except.ok.inj (hresolve.symm.trans hn)
    trivial
  obtain ⟨hiff, hsame⟩ := exists_reduce_iff hl (readsResolved_calculation _ _ _) .times
  exact ⟨hiff.mpr (.inr ⟨hleft, hzero⟩), hsame hleft hzero⟩

/-- The product of zero and one over zero is zero, but as a calculation it divides by zero. -/
theorem exists_reduce_ne :
    ¬ ∀ (left right : Operand) (op : Operation), (∃ z n, reduce left op right = .ok z ∧ z.resolve = .ok n) ↔
      ∃ n, (calculation left op right).resolve = .ok n := by
  intro h
  have hreduce : reduce (number .zero) .multiply (calculation (number .one) .divide (number .zero)) =
      .ok (number .zero) := by
    cbv
  obtain ⟨n, hn⟩ := (h _ _ _).mp ⟨number .zero, .zero, hreduce, rfl⟩
  have hfail : (calculation (number .zero) .multiply (calculation (number .one) .divide (number .zero))).resolve =
      .error (.divisionByZero .divide) := by
    cbv
  cases hfail.symm.trans hn

end Operand

end ExactCalc
