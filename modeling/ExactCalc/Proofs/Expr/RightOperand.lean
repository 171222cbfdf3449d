import Mathlib
import ExactCalc.Proofs.Expr.Grouping

/-!
# Groups as right operands

A group after an operation should be its right operand, whatever is in the group. The interrupted operation
waits on the stack until the group is closed, but an operation of the group may complete it too early: the
first number after an operation completes whatever is innermost on the stack, and so does any group that
closes. From then on the operations of the group are read after the interrupted one instead of inside it.

`Formula.readsInside` tells which groups are read as one operand; it needs only the marks of the frames, not
what the operands are. The proof compares the reading of a formula above an interrupted operation with its
reading without it (`Above`): either the frame is still at the bottom of the stack and everything else agrees,
or it has been completed with the operand read by then, and what followed extends the result.
-/

namespace ExactCalc

/-- What a frame waits for. -/
inductive Mark
  | group
  | pending
  deriving DecidableEq

def Frame.mark : Frame → Mark
  | group => .group
  | pending _ _ => .pending

def Expr.extend (e : Expr) (ys : List (Operation × Expr)) : Expr :=
  ys.foldl (fun e y => .binary e y.1 y.2) e

namespace Formula

/-- What a formula leaves of the marks of a stack. -/
def settle : Formula → List Mark → List Mark
  | literal _, marks => marks
  | group f, marks => (f.settle (.group :: marks)).tail
  | thenLiteral e _ _, marks =>
    match e.settle marks with
    | .pending :: rest => rest
    | rest => rest
  | thenGroup e _ f, marks => (f.settle (.pending :: e.settle marks)).tail

/-- Whether all operations of a formula are read while something is still on the stack. -/
def readsInside : Formula → List Mark → Bool
  | literal _, _ => true
  | group f, marks => f.readsInside (.group :: marks)
  | thenLiteral e _ _, marks => e.readsInside marks && !(e.settle marks).isEmpty
  | thenGroup e _ f, marks =>
    e.readsInside marks && !(e.settle marks).isEmpty && f.readsInside (.pending :: e.settle marks)

end Formula

/-! ## Expressions with operations after them -/

namespace Expr

theorem extend_append (e : Expr) (ys zs : List (Operation × Expr)) :
    e.extend (ys ++ zs) = (e.extend ys).extend zs :=
  List.foldl_append

theorem sizeOf_le_extend (e : Expr) (ys : List (Operation × Expr)) : sizeOf e ≤ sizeOf (e.extend ys) := by
  induction ys generalizing e with
  | nil => exact le_rfl
  | cons y ys ih =>
    have hstep : sizeOf e ≤ sizeOf (Expr.binary e y.1 y.2) := by
      simp only [binary.sizeOf_spec]
      omega
    exact hstep.trans (ih _)

theorem extend_binary_eq_iff (left right : Expr) (op : Operation) (ys : List (Operation × Expr)) :
    (binary left op right).extend ys = binary left op (right.extend ys) ↔ ys = [] := by
  constructor
  · intro h
    obtain rfl | ⟨zs, z, rfl⟩ := List.eq_nil_or_concat ys
    · rfl
    · rw [List.concat_eq_append, extend_append] at h
      have hleft : (binary left op right).extend zs = left := (Expr.binary.inj h).1
      have hsize := sizeOf_le_extend (binary left op right) zs
      rw [hleft, binary.sizeOf_spec] at hsize
      omega
  · rintro rfl
    rfl

end Expr

/-! ## Marks -/

theorem Reduction.map_mark_close (stack : List Frame) (e : Expr) :
    (close stack e).1.map Frame.mark = (stack.map Frame.mark).tail := by
  cases stack with
  | nil => rfl
  | cons frame stack => cases frame <;> rfl

theorem Formula.settle_map_mark (f : Formula) (stack : List Frame) :
    f.settle (stack.map Frame.mark) = (f.reduce stack).1.map Frame.mark := by
  induction f generalizing stack with
  | literal s => rfl
  | group f ih =>
    have hinner := ih (.group :: stack)
    rw [List.map_cons] at hinner
    rw [reduce, Reduction.map_mark_close, ← hinner]
    rfl
  | thenLiteral e op s ih =>
    rw [settle, reduce, ih]
    obtain ⟨rest, x⟩ := e.reduce stack
    cases rest with
    | nil => rfl
    | cons frame rest => cases frame <;> rfl
  | thenGroup e op f ihe ihf =>
    have hinner := ihf (.pending (e.reduce stack).2 op :: (e.reduce stack).1)
    rw [List.map_cons, ← ihe] at hinner
    rw [reduce, Reduction.map_mark_close, ← hinner]
    rfl

/-! ## Reading above an interrupted operation -/

/-- A reading and the same reading above an interrupted operation, for any left operand and any operation:
it is still interrupted, or it has been completed and what followed extends it. -/
def Above (r : List Frame × Expr) (above : Expr → Operation → List Frame × Expr) (inside : Bool) : Prop :=
  (∃ rest e, r = (rest, e) ∧ (∀ left op, above left op = (rest ++ [.pending left op], e)) ∧ inside = true) ∨
    ∃ e ys, r = ([], e.extend ys) ∧ (∀ left op, above left op = ([], (Expr.binary left op e).extend ys)) ∧
      inside = ys.isEmpty

section
variable {r : List Frame × Expr} {above : Expr → Operation → List Frame × Expr} {inside : Bool}

theorem Above.close (h : Above r above inside) :
    Above (Reduction.close r.1 r.2)
      (fun left op => Reduction.close (above left op).1 (above left op).2) inside := by
  obtain ⟨rest, e, rfl, habove, rfl⟩ | ⟨e, ys, rfl, habove, rfl⟩ := h
  · simp only [Above, habove]
    cases rest with
    | nil => exact .inr ⟨e, [], rfl, fun _ _ => rfl, rfl⟩
    | cons frame rest =>
      cases frame with
      | group => exact .inl ⟨rest, e, rfl, fun _ _ => rfl, trivial⟩
      | pending l o => exact .inl ⟨rest, .binary l o e, rfl, fun _ _ => rfl, trivial⟩
  · simp only [Above, habove]
    exact .inr ⟨e, ys, rfl, fun _ _ => rfl, rfl⟩

/-- A number after an operation may complete the interrupted one; it comes too late if the interrupted operation
has been completed. -/
theorem Above.fold (h : Above r above inside) {marks : List Mark}
    (hmarks : ∀ left op, marks = (above left op).1.map Frame.mark) (o : Operation) (n : Number) :
    Above (Reduction.fold r.1 (.binary r.2 o (.number n)))
      (fun left op => Reduction.fold (above left op).1 (.binary (above left op).2 o (.number n)))
      (inside && !marks.isEmpty) := by
  obtain ⟨rest, e, rfl, habove, rfl⟩ | ⟨e, ys, rfl, habove, rfl⟩ := h
  · have hopen : marks.isEmpty = false := by
      rw [hmarks e o, habove]
      simp
    simp only [Above, habove, hopen]
    cases rest with
    | nil => exact .inr ⟨.binary e o (.number n), [], rfl, fun _ _ => rfl, rfl⟩
    | cons frame rest =>
      cases frame with
      | group => exact .inl ⟨.group :: rest, .binary e o (.number n), rfl, fun _ _ => rfl, rfl⟩
      | pending l p => exact .inl ⟨rest, .binary l p (.binary e o (.number n)), rfl, fun _ _ => rfl, rfl⟩
  · have hdone : marks = [] := by
      rw [hmarks e o, habove]
      rfl
    simp only [Above, habove, hdone]
    refine .inr ⟨e, ys ++ [(o, .number n)], ?_, fun left op => ?_, by simp⟩
    · rw [Expr.extend_append]
      rfl
    · rw [Expr.extend_append]
      rfl

end

/-- A group after an operation: what has been read when the operation is completed, and what follows it. -/
theorem Above.exists_extend {f : Formula} {inside : Bool}
    (h : Above (f.reduce []) (fun left op => f.reduce [.pending left op]) inside) :
    ∃ e ys, f.toExpr = e.extend ys ∧ inside = ys.isEmpty ∧ ∀ left op,
      Reduction.close (f.reduce [.pending left op]).1 (f.reduce [.pending left op]).2 =
        ([], (Expr.binary left op e).extend ys) := by
  rw [f.reduce_nil] at h
  obtain ⟨rest, e, heq, habove, rfl⟩ | ⟨e, ys, heq, habove, rfl⟩ := h
  · obtain ⟨rfl, rfl⟩ := Prod.mk.inj heq
    simp only [habove]
    exact ⟨f.toExpr, [], rfl, rfl, fun _ _ => rfl⟩
  · simp only [habove]
    exact ⟨e, ys, (Prod.mk.inj heq).2, rfl, fun _ _ => rfl⟩

/-- What a formula leaves above an interrupted operation does not depend on that operation. -/
theorem Formula.settle_above (f : Formula) (stack : List Frame) (left : Expr) (op : Operation) :
    f.settle (stack.map Frame.mark ++ [.pending]) =
      (f.reduce (stack ++ [.pending left op])).1.map Frame.mark := by
  rw [← f.settle_map_mark, List.map_append]
  rfl

/-- A formula is read above an interrupted operation as it is without it, until it completes the operation. -/
theorem Formula.above_reduce (f : Formula) (stack : List Frame) :
    Above (f.reduce stack) (fun left op => f.reduce (stack ++ [.pending left op]))
      (f.readsInside (stack.map Frame.mark ++ [.pending])) := by
  induction f generalizing stack with
  | literal s => exact .inl ⟨stack, _, rfl, fun _ _ => rfl, rfl⟩
  | group f ih => exact (ih (.group :: stack)).close
  | thenLiteral e op s ih => exact (ih stack).fold (e.settle_above stack) op _
  | thenGroup e op f ihe ihf =>
    have hsettle := e.settle_above stack
    obtain ⟨rest, x, heq, habove, hin⟩ | ⟨x, ys, heq, habove, hin⟩ := ihe stack <;>
      simp only at habove
    · -- the group is read above the interrupted operation as well
      have hinner := (ihf (.pending x op :: rest)).close
      have hmarks : e.settle (stack.map Frame.mark ++ [.pending]) = rest.map Frame.mark ++ [.pending] := by
        rw [hsettle x op, habove, List.map_append]
        rfl
      have hopen : (rest.map Frame.mark ++ [Mark.pending]).isEmpty = false := by simp
      simp only [readsInside, reduce, heq, habove, hin, hmarks, hopen]
      exact hinner
    · -- the interrupted operation has been completed, and the group follows it
      obtain ⟨u, zs, -, -, hgroup⟩ := Above.exists_extend (ihf [])
      have hmarks : e.settle (stack.map Frame.mark ++ [.pending]) = [] := by
        rw [hsettle x op, habove]
        rfl
      simp only [Above, readsInside, reduce, heq, habove, hgroup, hmarks]
      refine .inr ⟨x, ys ++ (op, u) :: zs, ?_, fun left o => ?_, by simp⟩
      · rw [Expr.extend_append]
        rfl
      · rw [Expr.extend_append]
        rfl

/-! ## The condition -/

/-- After an operation a group is read as one right operand exactly if all of its operations are read while
the interrupted operation is still on the stack. -/
theorem Formula.toExpr_thenGroup_iff (e f : Formula) (op : Operation) :
    (thenGroup e op f).toExpr = .binary e.toExpr op f.toExpr ↔ f.readsInside [.pending] = true := by
  obtain ⟨u, ys, htext, hin, hgroup⟩ := Above.exists_extend (f.above_reduce [])
  have hwhole : (thenGroup e op f).reduce [] = ([], (Expr.binary e.toExpr op u).extend ys) := by
    rw [reduce, e.reduce_nil]
    exact hgroup e.toExpr op
  have hexpr : (thenGroup e op f).toExpr = (Expr.binary e.toExpr op u).extend ys := congrArg Prod.snd hwhole
  have hinside : f.readsInside [.pending] = ys.isEmpty := hin
  rw [hexpr, htext, hinside, Expr.extend_binary_eq_iff, List.isEmpty_iff]

/-- Spellings of `e`, of `f` and of `e op (f)` are read, and the third as the operation with the other two
as its operands exactly if all operations of `f` are read while `op` is still interrupted. -/
theorem Expr.ofText_thenGroup {e f : Formula} (he : e.IsWellFormed) (hf : f.IsWellFormed) (op : Operation)
    {s t u : String} (hs : e.IsWrittenAs s) (ht : f.IsWrittenAs t) (hu : (Formula.thenGroup e op f).IsWrittenAs u) :
    ∃ x y z, Expr.ofText s = .ok x ∧ Expr.ofText t = .ok y ∧ Expr.ofText u = .ok z ∧
      (z = .binary x op y ↔ f.readsInside [.pending] = true) := by
  have hef : (Formula.thenGroup e op f).IsWellFormed := ⟨he, hf⟩
  refine ⟨e.toExpr, f.toExpr, (Formula.thenGroup e op f).toExpr, ?_, ?_, ?_, ?_⟩
  · exact ofText_eq_toExpr he.hasNumerals hs
  · exact ofText_eq_toExpr hf.hasNumerals ht
  · exact ofText_eq_toExpr hef.hasNumerals hu
  · exact e.toExpr_thenGroup_iff f op

theorem Expr.ofText_thenGroup_sum :
    ∃ x y z, Expr.ofText "1" = .ok x ∧ Expr.ofText "2+3" = .ok y ∧ Expr.ofText "1-(2+3)" = .ok z ∧
      (z = .binary x .minus y ↔
        (Formula.thenLiteral (.literal "2") .plus "3").readsInside [.pending] = true) := by
  have h₁ : IsLiteral "1" := isLiteral_digit (c := '1') rfl
  have h₂ : IsLiteral "2" := isLiteral_digit (c := '2') rfl
  have h₃ : IsLiteral "3" := isLiteral_digit (c := '3') rfl
  exact Expr.ofText_thenGroup (e := .literal "1") (f := .thenLiteral (.literal "2") .plus "3") h₁ ⟨h₂, h₃⟩ .minus
    (Formula.isWrittenAs_text _) (Formula.isWrittenAs_text _) (Formula.isWrittenAs_text _)

/-- A group of two operations is not read as one operand: the second one comes after the interrupted one. -/
theorem Expr.ofText_thenGroup_ne :
    ¬ ∀ (e f : Formula) (op : Operation) (s t u : String), e.IsWellFormed → f.IsWellFormed →
      e.IsWrittenAs s → f.IsWrittenAs t → (Formula.thenGroup e op f).IsWrittenAs u →
      ∃ x y, Expr.ofText s = .ok x ∧ Expr.ofText t = .ok y ∧ Expr.ofText u = .ok (.binary x op y) := by
  intro h
  have h₁ : IsLiteral "1" := isLiteral_digit (c := '1') rfl
  have h₂ : IsLiteral "2" := isLiteral_digit (c := '2') rfl
  have h₃ : IsLiteral "3" := isLiteral_digit (c := '3') rfl
  have h₄ : IsLiteral "4" := isLiteral_digit (c := '4') rfl
  obtain ⟨x, y, -, -, hu⟩ := h (.literal "1") (.thenLiteral (.thenLiteral (.literal "2") .plus "3") .plus "4") .minus
    "1" "2+3+4" "1-(2+3+4)" h₁ ⟨⟨h₂, h₃⟩, h₄⟩
    (Formula.isWrittenAs_text _) (Formula.isWrittenAs_text _) (Formula.isWrittenAs_text _)
  have hread : Expr.ofText "1-(2+3+4)" = .ok (.binary (.binary (.number (.amount "1")) .minus
      (.binary (.number (.amount "2")) .plus (.number (.amount "3")))) .plus (.number (.amount "4"))) := by
    cbv
  rw [hread] at hu
  simp at hu

end ExactCalc
