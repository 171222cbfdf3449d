import Mathlib
import ExactCalc.Proofs.Operand.ShortCircuit

/-!
# Values of operands

A calculation resolves to its operation on the exact values of its two sides, which it takes as its operation needs
them (`Operand.exactFor`). The exact value of an operand (`Operand.worth`) decides all that is asked of it, and with a
bound on its scale it is all that an operation needs to know (`Operand.Resolves`).
-/

namespace ExactCalc

/-! ## Results -/

theorem exists_of_bind_ok {ε α β : Type} {r : Except ε α} {f : α → Except ε β} {b : β} (h : (r >>= f) = .ok b) :
    ∃ a, r = .ok a ∧ f a = .ok b := by
  cases r with
  | error e => cases h
  | ok a => exact ⟨a, rfl, h⟩

theorem exists_of_map_ok {ε α β : Type} {r : Except ε α} {f : α → β} {b : β} (h : r.map f = .ok b) :
    ∃ a, r = .ok a ∧ f a = b := by
  cases r with
  | error e => cases h
  | ok a => exact ⟨a, rfl, Except.ok.inj h⟩

theorem eq_ok_of_mapError {ε ε' α : Type} {r : Except ε α} {f : ε → ε'} {a : α} (h : r.mapError f = .ok a) :
    r = .ok a := by
  cases r with
  | error e => cases h
  | ok b => rw [Except.ok.inj h]

/-! ## Calculations -/

theorem Operation.exists_of_onExact {op : Operation} {a b : Exact} {n : Number} (h : op.onExact a b = .ok n) :
    (∃ d, n = .decimal d) ∨ ∃ r, n = .rational r := by
  obtain ⟨d, hd⟩ | ⟨r, hr⟩ | herror | herror := op.onExact_cases a b
  · exact .inl ⟨d, Except.ok.inj (h.symm.trans hd)⟩
  · exact .inr ⟨r, Except.ok.inj (h.symm.trans hr)⟩
  · rw [h] at herror
    simp at herror
  · rw [h] at herror
    simp at herror

namespace Operand

variable {left right : Operand} {op : Operation} {a b : Exact}

def exactFor (x : Operand) (op : Operation) : Result Exact := do (← x.resolve).exactFor op

theorem resolve_calculation (ha : left.exactFor op = .ok a) (hb : right.exactFor op = .ok b) :
    (calculation left op right).resolve = op.onExact a b := by
  obtain ⟨m, hm, hma⟩ := exists_of_bind_ok ha
  obtain ⟨n, hn, hnb⟩ := exists_of_bind_ok hb
  simp [resolve, hm, hma, hn, hnb, bind, Except.bind]

theorem exists_exactFor_of_resolve {n : Number} (h : (calculation left op right).resolve = .ok n) :
    ∃ a b, left.exactFor op = .ok a ∧ right.exactFor op = .ok b ∧ op.onExact a b = .ok n := by
  rw [resolve] at h
  obtain ⟨l, hl, h⟩ := exists_of_bind_ok h
  obtain ⟨a, ha, h⟩ := exists_of_bind_ok h
  obtain ⟨r, hr, h⟩ := exists_of_bind_ok h
  obtain ⟨b, hb, h⟩ := exists_of_bind_ok h
  have hleft : left.exactFor op = .ok a := by rwa [exactFor, hl]
  have hright : right.exactFor op = .ok b := by rwa [exactFor, hr]
  exact ⟨a, b, hleft, hright, h⟩

/-- An operation that is computed is the side that is its result, if there is one. -/
theorem reduce_of_some {s : Side} (h : shortCircuit left op right = .ok (some s)) :
    reduce left op right = .ok (s.pick left right) := by
  simp only [reduce, h, bind, Except.bind]
  cases s <;> rfl

theorem reduce_of_none (h : shortCircuit left op right = .ok none) :
    reduce left op right = (calculation left op right).resolve.map number := by
  simp only [reduce, h, bind, Except.bind]
  cases (calculation left op right).resolve <;> rfl

/-! ## Operands with a value -/

/-- The operand resolves to a number whose text, if it is one, can be read. -/
def IsReadable (x : Operand) : Prop := ∃ n, x.resolve = .ok n ∧ n.IsReadable

/-- The exact value of the number that the operand resolves to; zero if there is none. -/
def worth (x : Operand) : Rat := x.resolve.toOption.elim 0 Number.worth

section
variable {x : Operand}

theorem worth_eq {n : Number} (h : x.resolve = .ok n) : x.worth = n.worth := by
  rw [worth, h]
  rfl

theorem IsReadable.exists_toExact (h : x.IsReadable) : ∃ a, x.toExact = .ok a ∧ a.toRat = x.worth := by
  obtain ⟨n, hn, hread⟩ := h
  obtain ⟨a, ha, hvalue⟩ := Number.toExact_of_isReadable hread
  refine ⟨a, ?_, hvalue.trans (worth_eq hn).symm⟩
  rw [toExact, hn]
  exact ha

theorem IsReadable.exists_exactFor (h : x.IsReadable) (op : Operation) :
    ∃ a, x.exactFor op = .ok a ∧ a.toRat = x.worth := by
  obtain ⟨n, hn, hread⟩ := h
  obtain ⟨a, ha, hvalue, -⟩ := Number.exactFor_of_isReadable hread op
  refine ⟨a, ?_, hvalue.trans (worth_eq hn).symm⟩
  rw [exactFor, hn]
  exact ha

theorem IsReadable.toRational_eq (h : x.IsReadable) : x.toRational = .ok x.worth := by
  obtain ⟨n, hn, hread⟩ := h
  rw [worth_eq hn, toRational, hn]
  exact Number.toRational_of_isReadable hread

theorem IsReadable.isZero_eq (h : x.IsReadable) : x.isZero = .ok (decide (x.worth = 0)) := by
  obtain ⟨n, hn, hread⟩ := h
  rw [worth_eq hn, isZero, hn]
  exact Number.isZero_of_isReadable hread

theorem IsReadable.isOne_eq (h : x.IsReadable) : x.isOne = .ok (decide (x.worth = 1)) := by
  obtain ⟨n, hn, hread⟩ := h
  rw [worth_eq hn, isOne, hn]
  exact Number.isOne_of_isReadable hread

/-- Of two operands with values a side is the result only where the operation short-circuits, and always where the right
side is neutral. -/
theorem IsReadable.exists_shortCircuit (hl : left.IsReadable) (hr : right.IsReadable) (op : Operation) :
    ∃ side : Option Side, shortCircuit left op right = .ok side ∧ (∀ s ∈ side, op.Short s left.worth right.worth) ∧
      (op.Neutral right.worth → side ≠ none) := by
  rw [shortCircuit, hl.isZero_eq, hl.isOne_eq, hr.isZero_eq, hr.isOne_eq]
  exact op.exists_shortCircuit left.worth right.worth

end

/-- The operand resolves to a readable number of this value, with a scale up to this bound. -/
def Resolves (x : Operand) (v : Rat) (k : Nat) : Prop :=
  ∃ n, x.resolve = .ok n ∧ n.IsReadable ∧ n.worth = v ∧ n.decimalScale ≤ k

variable {x y : Operand} {u v : Rat} {j k : Nat}

theorem Resolves.mono (h : x.Resolves v j) (hjk : j ≤ k) : x.Resolves v k := by
  obtain ⟨n, hn, hread, hworth, hscale⟩ := h
  exact ⟨n, hn, hread, hworth, hscale.trans hjk⟩

theorem Resolves.isReadable (h : x.Resolves v k) : x.IsReadable ∧ x.worth = v := by
  obtain ⟨n, hn, hread, rfl, -⟩ := h
  exact ⟨⟨n, hn, hread⟩, worth_eq hn⟩

theorem Resolves.isZero_eq (h : x.Resolves v k) : x.isZero = .ok (decide (v = 0)) := by
  obtain ⟨hread, rfl⟩ := h.isReadable
  exact hread.isZero_eq

theorem Resolves.isOne_eq (h : x.Resolves v k) : x.isOne = .ok (decide (v = 1)) := by
  obtain ⟨hread, rfl⟩ := h.isReadable
  exact hread.isOne_eq

theorem Resolves.toRational_eq (h : x.Resolves v k) : x.toRational = .ok v := by
  obtain ⟨hread, rfl⟩ := h.isReadable
  exact hread.toRational_eq

theorem Resolves.calculation {n : Number} (hx : x.Resolves u j) (hy : y.Resolves v k)
    (hscale : j + k < Decimal.scaleLimit) (h : (Operand.calculation x op y).resolve = .ok n) :
    (op.divides = true → v ≠ 0) ∧ (Operand.number n).Resolves (settled (op.exact u v)) (j + k) := by
  obtain ⟨m, hm, hmread, rfl, hmscale⟩ := hx
  obtain ⟨l, hl, hlread, rfl, hlscale⟩ := hy
  obtain ⟨a, ha, haval, hascale⟩ := Number.exactFor_of_isReadable hmread op
  obtain ⟨b, hb, hbval, hbscale⟩ := Number.exactFor_of_isReadable hlread op
  have hleft : x.exactFor op = .ok a := by simp [exactFor, hm, ha, bind, Except.bind]
  have hright : y.exactFor op = .ok b := by simp [exactFor, hl, hb, bind, Except.bind]
  rw [resolve_calculation hleft hright] at h
  have hne : op.divides = true → b.toRat ≠ 0 := by
    intro hop hzero
    rw [Operation.onExact_of_zero hop hzero] at h
    simp at h
  have hsum : op ≠ .divide → a.scale + b.scale < Decimal.scaleLimit := fun _ => by omega
  obtain ⟨n', hn', hread, hworth, hle⟩ := Operation.onExact_of_ne hsum hne
  obtain rfl := Except.ok.inj (h.symm.trans hn')
  rw [haval, hbval] at hworth
  exact ⟨hbval ▸ hne, n, rfl, hread, hworth, by omega⟩

/-- An operation on two operands with values has one of them as its result, or is computed. -/
theorem Resolves.exists_reduce (hx : x.Resolves u j) (hy : y.Resolves v k) (op : Operation) :
    ∃ side : Option Side, (∀ s ∈ side, op.Short s u v) ∧ (op.Neutral v → side ≠ none) ∧
      reduce x op y =
        match side with
        | some s => .ok (s.pick x y)
        | none => (Operand.calculation x op y).resolve.map number := by
  obtain ⟨hxread, rfl⟩ := hx.isReadable
  obtain ⟨hyread, rfl⟩ := hy.isReadable
  obtain ⟨side, hside, hshort, hneutral⟩ := hxread.exists_shortCircuit hyread op
  refine ⟨side, hshort, hneutral, ?_⟩
  cases side with
  | none => exact reduce_of_none hside
  | some s => exact reduce_of_some hside

end Operand

end ExactCalc
