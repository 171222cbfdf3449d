import Mathlib
import ExactCalc.Proofs.Expr.Evaluation
import ExactCalc.Proofs.Expr.RightOperand

/-!
# The tree of a formula

`Formula.tree` is the expression that the grammar gives a formula: every group is an operand of its own, and
operations apply from left to right. The reading gives this expression exactly if each group after an operation
is read as one operand (`Formula.toExpr_eq_tree_iff`); otherwise it has the same numbers in the same order, with
another grouping.

A group around a whole formula plays no part. Its frame lies at the bottom of the stack until it is closed, and
nothing but a closing parenthesis removes it (`Beneath`).
-/

namespace ExactCalc

namespace Formula

/-- The expression of the grammar. -/
def tree : Formula → Expr
  | literal s => .number (numberOf s)
  | group f => f.tree
  | thenLiteral e op s => .binary e.tree op (.number (numberOf s))
  | thenGroup e op f => .binary e.tree op f.tree

/-- Whether each group after an operation is read as one operand. -/
def isRegular : Formula → Bool
  | literal _ => true
  | group f => f.isRegular
  | thenLiteral e _ _ => e.isRegular
  | thenGroup e _ f => e.isRegular && f.isRegular && f.readsInside [.pending]

end Formula

/-! ## A group around everything -/

/-- A reading, and the same reading with an open group beneath its stack: the group is still open, or it has been
closed when nothing was left on the stack. -/
def Beneath (r above : List Frame × Expr) : Prop := above = (r.1 ++ [.group], r.2) ∨ (r.1 = [] ∧ above = r)

theorem Beneath.close {r above : List Frame × Expr} (h : Beneath r above) :
    Beneath (Reduction.close r.1 r.2) (Reduction.close above.1 above.2) := by
  obtain ⟨rest, e⟩ := r
  obtain rfl | ⟨hrest, rfl⟩ := h
  · cases rest with
    | nil => exact .inr ⟨rfl, rfl⟩
    | cons frame rest => cases frame <;> exact .inl rfl
  · obtain rfl : rest = [] := hrest
    exact .inr ⟨rfl, rfl⟩

theorem Beneath.fold {r above : List Frame × Expr} (h : Beneath r above) (op : Operation) (n : Number) :
    Beneath (Reduction.fold r.1 (.binary r.2 op (.number n)))
      (Reduction.fold above.1 (.binary above.2 op (.number n))) := by
  obtain ⟨rest, e⟩ := r
  obtain rfl | ⟨hrest, rfl⟩ := h
  · cases rest with
    | nil => exact .inl rfl
    | cons frame rest => cases frame <;> exact .inl rfl
  · obtain rfl : rest = [] := hrest
    exact .inr ⟨rfl, rfl⟩

theorem Formula.beneath_reduce (f : Formula) (stack : List Frame) :
    Beneath (f.reduce stack) (f.reduce (stack ++ [.group])) := by
  induction f generalizing stack with
  | literal s => exact .inl rfl
  | group f ih => exact (ih (.group :: stack)).close
  | thenLiteral e op s ih => exact (ih stack).fold op _
  | thenGroup e op f ihe ihf =>
    obtain heq | ⟨hrest, heq⟩ := ihe stack
    · simp only [reduce, heq]
      exact (ihf (.pending (e.reduce stack).2 op :: (e.reduce stack).1)).close
    · -- both readings are the same from here on, and leave nothing on the stack
      simp only [reduce, heq, hrest]
      refine .inr ⟨List.eq_nil_of_length_eq_zero (Nat.le_zero.mp ?_), rfl⟩
      refine (Reduction.length_close_le _ _).trans ?_
      have hlen := f.length_reduce_le [.pending (e.reduce stack).2 op]
      rw [List.length_singleton] at hlen
      omega

namespace Formula

theorem toExpr_group (f : Formula) : (group f).toExpr = f.toExpr := by
  have h := f.beneath_reduce []
  rw [f.reduce_nil, List.nil_append] at h
  show (Reduction.close (f.reduce [.group]).1 (f.reduce [.group]).2).2 = f.toExpr
  obtain heq | ⟨-, heq⟩ := h
  · rw [heq]
    rfl
  · rw [heq]
    rfl

theorem toExpr_thenLiteral (e : Formula) (op : Operation) (s : String) :
    (thenLiteral e op s).toExpr = .binary e.toExpr op (.number (numberOf s)) := by
  rw [toExpr, reduce, e.reduce_nil]
  rfl

end Formula

/-! ## Numbers in order -/

namespace Expr

theorem leaves_extend (e : Expr) (ys : List (Operation × Expr)) :
    (e.extend ys).leaves = e.leaves ++ ys.flatMap fun y => y.2.leaves := by
  induction ys generalizing e with
  | nil => simp [extend]
  | cons y ys ih =>
    have hstep : e.extend (y :: ys) = (binary e y.1 y.2).extend ys := rfl
    rw [hstep, ih]
    simp [leaves]

theorem leaves_ne_nil (e : Expr) : e.leaves ≠ [] := by
  induction e with
  | number n => simp [leaves]
  | binary left op right ihl ihr => simp [leaves, ihl]

theorem binary_extend_ne {left right left' right' : Expr} {op op' : Operation} {ys : List (Operation × Expr)}
    (hys : ys ≠ []) (hleaves : left.leaves = left'.leaves) :
    (binary left op right).extend ys ≠ binary left' op' right' := by
  intro h
  obtain rfl | ⟨zs, z, rfl⟩ := List.eq_nil_or_concat ys
  · exact hys rfl
  · rw [List.concat_eq_append, extend_append] at h
    have hleft : (binary left op right).extend zs = left' := (Expr.binary.inj h).1
    have hlen := congrArg (fun e => e.leaves.length) hleft
    have hpos := List.length_pos_iff.mpr right.leaves_ne_nil
    simp only [leaves_extend, leaves, List.length_append, ← hleaves] at hlen
    omega

end Expr

namespace Formula

/-- A group after an operation: the operand that it is read as, and what is read after it. -/
theorem exists_extend_thenGroup (e f : Formula) (op : Operation) :
    ∃ u ys, f.toExpr = u.extend ys ∧ f.readsInside [.pending] = ys.isEmpty ∧
      (thenGroup e op f).toExpr = (Expr.binary e.toExpr op u).extend ys := by
  obtain ⟨u, ys, htext, hin, hgroup⟩ := Above.exists_extend (f.above_reduce [])
  refine ⟨u, ys, htext, hin, ?_⟩
  rw [toExpr, reduce, e.reduce_nil]
  exact congrArg Prod.snd (hgroup e.toExpr op)

theorem leaves_toExpr (f : Formula) : f.toExpr.leaves = f.literals.map numberOf := by
  induction f with
  | literal s => rfl
  | group f ih => rw [toExpr_group, ih, literals]
  | thenLiteral e op s ih => simp [toExpr_thenLiteral, Expr.leaves, literals, ih]
  | thenGroup e op f ihe ihf =>
    obtain ⟨u, ys, htext, -, hwhole⟩ := exists_extend_thenGroup e f op
    rw [htext, Expr.leaves_extend] at ihf
    simp [hwhole, Expr.leaves_extend, Expr.leaves, literals, ihe, ← ihf]

theorem leaves_tree (f : Formula) : f.tree.leaves = f.literals.map numberOf := by
  induction f with
  | literal s => rfl
  | group f ih => exact ih
  | thenLiteral e op s ih => simp [tree, Expr.leaves, literals, ih]
  | thenGroup e op f ihe ihf => simp [tree, Expr.leaves, literals, ihe, ihf]

/-! ## Regular formulas -/

/-- The reading is the tree of the grammar exactly if each group after an operation is read as one operand. -/
theorem toExpr_eq_tree_iff (f : Formula) : f.toExpr = f.tree ↔ f.isRegular = true := by
  induction f with
  | literal s => simp [toExpr, reduce, tree, isRegular]
  | group f ih => rw [toExpr_group, tree, isRegular, ih]
  | thenLiteral e op s ih =>
    rw [toExpr_thenLiteral, tree, isRegular, ← ih]
    simp
  | thenGroup e op f ihe ihf =>
    rw [isRegular, Bool.and_eq_true, Bool.and_eq_true, ← ihe, ← ihf]
    constructor
    · intro h
      have hinside : f.readsInside [.pending] = true := by
        obtain ⟨u, ys, -, hin, hwhole⟩ := exists_extend_thenGroup e f op
        rw [hin, List.isEmpty_iff]
        by_contra hys
        rw [hwhole] at h
        exact Expr.binary_extend_ne hys (e.leaves_toExpr.trans e.leaves_tree.symm) h
      rw [(toExpr_thenGroup_iff e f op).mpr hinside, tree, Expr.binary.injEq] at h
      exact ⟨⟨h.1, h.2.2⟩, hinside⟩
    · rintro ⟨⟨he, hf⟩, hinside⟩
      rw [(toExpr_thenGroup_iff e f op).mpr hinside, tree, he, hf]

end Formula

end ExactCalc
