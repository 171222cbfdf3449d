import Mathlib
import ExactCalc.Proofs.Expr.Evaluation

/-!
# Short circuits

Where an operation has one of its sides as its result (`Operation.Short`): a short circuit that is found
gives the exact result, and settling the two sides keeps it.
-/

namespace ExactCalc

def Side.pick {α : Type} : Side → α → α → α
  | left, a, _ => a
  | right, _, b => b

theorem Side.apply_pick {α β : Type} (f : α → β) (s : Side) (a b : α) : f (s.pick a b) = s.pick (f a) (f b) := by
  cases s <;> rfl

/-- The operation has one of its sides as its result. -/
def Operation.Short : Operation → Side → Rat → Rat → Prop
  | .plus, .left, _, v => v = 0
  | .plus, .right, u, _ => u = 0
  | .minus, .left, _, v => v = 0
  | .multiply, .left, u, v | .times, .left, u, v => u = 0 ∨ v = 1
  | .multiply, .right, u, v | .times, .right, u, v => v = 0 ∨ u = 1
  | .divide, .left, _, v => v = 1
  | _, _, _, _ => False

/-- The operation leaves any left side as it is. -/
def Operation.Neutral : Operation → Rat → Prop
  | .plus, v | .minus, v => v = 0
  | .multiply, v | .times, v | .divide, v => v = 1
  | .modulo, _ => False

namespace Operation

variable {op : Operation} {side : Side} {u v : Rat}

theorem exists_isNeutral (op : Operation) (v : Rat) :
    ∃ b, op.isNeutral (m := Result) (.ok (decide (v = 0))) (.ok (decide (v = 1))) = .ok b ∧
      (b = true ↔ op.Neutral v) := by
  cases op with
  | plus | minus | multiply | times | divide => exact ⟨_, rfl, by simp [Neutral]⟩
  | modulo => exact ⟨false, rfl, by simp [Neutral]⟩

/-- A short circuit is found only where there is one, and always where the right side is neutral. -/
theorem exists_shortCircuit (op : Operation) (u v : Rat) :
    ∃ side : Option Side, op.shortCircuit (m := Result) (.ok (decide (u = 0))) (.ok (decide (u = 1)))
      (.ok (decide (v = 0))) (.ok (decide (v = 1))) = .ok side ∧ (∀ s ∈ side, op.Short s u v) ∧
        (op.Neutral v → side ≠ none) := by
  cases op <;> simp only [shortCircuit, bind, Except.bind, pure, Except.pure, decide_eq_true_eq]
  case plus =>
    by_cases hu : u = 0
    · exact ⟨some .right, if_pos hu, by simp [Short, hu], by simp⟩
    by_cases hv : v = 0
    · exact ⟨some .left, by rw [if_neg hu, if_pos hv], by simp [Short, hv], by simp⟩
    · exact ⟨none, by rw [if_neg hu, if_neg hv], by simp, fun h => absurd h hv⟩
  case minus =>
    by_cases hv : v = 0
    · exact ⟨some .left, if_pos hv, by simp [Short, hv], by simp⟩
    · exact ⟨none, if_neg hv, by simp, fun h => absurd h hv⟩
  case multiply | times =>
    by_cases hu₀ : u = 0
    · exact ⟨some .left, if_pos hu₀, by simp [Short, hu₀], by simp⟩
    by_cases hv₁ : v = 1
    · exact ⟨some .left, by rw [if_neg hu₀, if_pos hv₁], by simp [Short, hv₁], by simp⟩
    by_cases hv₀ : v = 0
    · exact ⟨some .right, by rw [if_neg hu₀, if_neg hv₁, if_pos hv₀], by simp [Short, hv₀], by simp⟩
    by_cases hu₁ : u = 1
    · exact ⟨some .right, by rw [if_neg hu₀, if_neg hv₁, if_neg hv₀, if_pos hu₁], by simp [Short, hu₁], by simp⟩
    · exact ⟨none, by rw [if_neg hu₀, if_neg hv₁, if_neg hv₀, if_neg hu₁], by simp, fun h => absurd h hv₁⟩
  case divide =>
    by_cases hv : v = 1
    · exact ⟨some .left, if_pos hv, by simp [Short, hv], by simp⟩
    · exact ⟨none, if_neg hv, by simp, fun h => absurd h hv⟩
  case modulo => exact ⟨none, rfl, by simp, fun h => h.elim⟩

theorem Short.exact_eq (h : op.Short side u v) : op.exact u v = side.pick u v := by
  cases op <;> cases side <;> simp only [Short] at h
  case plus.left | plus.right | minus.left | divide.left => simp [exact, Side.pick, h]
  case multiply.left | multiply.right | times.left | times.right =>
    rcases h with h | h <;> simp [exact, Side.pick, h]

theorem Short.exists_intCast (h : op.Short side u v) : ∃ i : Int, u = i ∨ v = i := by
  cases op <;> cases side <;> simp only [Short] at h
  case plus.left | minus.left => exact ⟨0, .inr (by simpa using h)⟩
  case plus.right => exact ⟨0, .inl (by simpa using h)⟩
  case divide.left => exact ⟨1, .inr (by simpa using h)⟩
  case multiply.left | times.left =>
    rcases h with h | h
    · exact ⟨0, .inl (by simpa using h)⟩
    · exact ⟨1, .inr (by simpa using h)⟩
  case multiply.right | times.right =>
    rcases h with h | h
    · exact ⟨0, .inr (by simpa using h)⟩
    · exact ⟨1, .inl (by simpa using h)⟩

theorem Short.scale_add_lt {a b : Exact} (h : op.Short side a.toRat b.toRat) :
    a.scale + b.scale < Decimal.scaleLimit := by
  obtain ⟨i, hi | hi⟩ := h.exists_intCast
  · rw [Exact.scale_eq_zero hi, Nat.zero_add]
    exact b.scale_lt
  · rw [Exact.scale_eq_zero hi, Nat.add_zero]
    exact a.scale_lt

theorem Short.ne_zero (h : op.Short side u v) (hop : op.divides = true) : v ≠ 0 := by
  cases op <;> cases side <;> simp_all [Short, divides]

theorem Neutral.short (h : op.Neutral v) (u : Rat) : op.Short .left u v := by
  cases op <;> simp_all [Neutral, Short]

theorem Short.left_eq_zero (h : op.Short .left u v) (hv : ¬ op.Neutral v) : u = 0 := by
  cases op <;> simp_all [Neutral, Short]

theorem Short.settled (h : op.Short side u v) : op.Short side (settled u) (settled v) := by
  have hzero : ExactCalc.settled 0 = 0 := by simpa using settled_intCast 0
  have hone : ExactCalc.settled 1 = 1 := by simpa using settled_intCast 1
  cases op <;> cases side <;> simp only [Short] at h ⊢
  case plus.left | minus.left | plus.right | divide.left => simp [h, hzero, hone]
  case multiply.left | times.left | multiply.right | times.right =>
    rcases h with h | h
    · exact .inl (by rw [h, hzero])
    · exact .inr (by rw [h, hone])

end Operation

end ExactCalc
