import Mathlib
import ExactCalc.Proofs.Expr.Writing

/-!
# Proper numbers

A number may hold an amount as it was written, and what it holds there is to be one: it has no sign and at most six
digits after the point. Every number that is made is proper (`Number.isProper_of_create`), and so is every operand that
is read, or that an operation gives for proper operands.
-/

namespace ExactCalc

open Text

def Number.IsProper : Number → Prop
  | amount s => isAmountText s = true
  | _ => True

mutual

def Operand.IsProper : Operand → Prop
  | .number n => n.IsProper
  | .calculation left _ right => left.IsProper ∧ right.IsProper
  | .phrase p => p.IsProper

def Phrase.IsProper : Phrase → Prop
  | .written _ => True
  | .extended p _ x => p.IsProper ∧ x.IsProper

end

theorem fractionDigits_le_of_isAmountText {s : String} (h : isAmountText s = true) :
    fractionDigits s ≤ amountDigits := by
  unfold isAmountText isPlainNumeral at h
  have hsplit := List.takeWhile_append_dropWhile (p := isDigit) (l := s.toList)
  have hgo : ∀ c ∈ s.toList.takeWhile isDigit, decide (c ≠ '.') = true := by
    intro c hc
    have hdigit : isDigit c = true := List.mem_takeWhile_imp hc
    rw [decide_eq_true_eq]
    rintro rfl
    exact absurd hdigit (by decide)
  split at h
  · rename_i hrest
    rw [fractionDigits, ← hsplit, dropWhile_append_stop hgo (by simp [hrest]), hrest]
    exact Nat.zero_le _
  · rename_i fs hrest
    rw [fractionDigits, ← hsplit, dropWhile_append_stop hgo (by simp [hrest]), hrest, List.tail_cons]
    simp only [Bool.and_eq_true, Option.all_some, decide_eq_true_eq] at h
    exact h.2
  · simp at h

/-! ## Numbers -/

namespace Number

variable {n : Number}

theorem isProper_zero : zero.IsProper := by
  rw [zero, IsProper]
  cbv

theorem isProper_one : one.IsProper := by
  rw [one, IsProper]
  cbv

theorem isProper_of_ofText {s : String} (h : ofText s = .ok n) : n.IsProper := by
  unfold ofText at h
  split_ifs at h with hempty hamount hnumeric
  · obtain rfl := Except.ok.inj h
    exact isProper_zero
  · obtain rfl := Except.ok.inj h
    exact hamount
  · obtain rfl := Except.ok.inj h
    trivial
  · cases hr : recurringValue? s with
    | none => simp [hr] at h
    | some r =>
      rw [hr] at h
      obtain rfl := Except.ok.inj h
      trivial

theorem isProper_ofRational (r : Rat) : (ofRational r).IsProper := by
  rw [ofRational_eq_settled]
  trivial

theorem isProper_of_create {i : Input} (h : create i = .ok n) : n.IsProper := by
  cases i with
  | text s => exact isProper_of_ofText h
  | rational r =>
    obtain rfl := Except.ok.inj h
    exact isProper_ofRational r
  | decimal d =>
    obtain rfl := Except.ok.inj h
    trivial
  | float x =>
    simp only [create] at h
    split at h
    · obtain rfl := Except.ok.inj h
      trivial
    · simp at h
  | integer k =>
    obtain rfl := Except.ok.inj h
    trivial

end Number

/-! ## Operands -/

theorem Operation.isProper_of_onExact {op : Operation} {a b : Exact} {n : Number} (h : op.onExact a b = .ok n) :
    n.IsProper := by
  obtain ⟨d, rfl⟩ | ⟨r, rfl⟩ := exists_of_onExact h <;> trivial

theorem Expr.isProper_toOperand {e : Expr} (h : ∀ n ∈ e.leaves, n.IsProper) : e.toOperand.IsProper := by
  induction e with
  | number n => exact h n (List.mem_singleton_self n)
  | binary left op right ihl ihr =>
    exact ⟨ihl fun n hn => h n (List.mem_append_left _ hn), ihr fun n hn => h n (List.mem_append_right _ hn)⟩

theorem Expr.isProper_of_ofText {s : String} {e : Expr} (h : ofText s = .ok e) : e.toOperand.IsProper := by
  refine isProper_toOperand fun n hn => ?_
  obtain ⟨t, -, hnumber⟩ := exists_numeral_of_mem_leaves h hn
  exact Number.isProper_of_ofText hnumber

namespace Operand

variable {x y z : Operand} {op : Operation}

theorem isProper_of_opened (hx : x.IsProper) (h : x.opened = .ok y) : y.IsProper := by
  cases x with
  | number n =>
    obtain rfl := Except.ok.inj h
    exact hx
  | calculation left op right =>
    obtain rfl := Except.ok.inj h
    exact hx
  | phrase p =>
    obtain ⟨e, he, rfl⟩ := exists_of_map_ok h
    exact Expr.isProper_of_ofText he

theorem isProper_of_resolve {n : Number} (hx : x.IsProper) (h : x.resolve = .ok n) : n.IsProper := by
  cases x with
  | number m =>
    obtain rfl := Except.ok.inj h
    exact hx
  | calculation left op right =>
    obtain ⟨a, b, -, -, hresult⟩ := exists_exactFor_of_resolve h
    exact Operation.isProper_of_onExact hresult
  | phrase p =>
    obtain ⟨e, he, hn⟩ := exists_of_bind_ok h
    have hproper := Expr.isProper_of_ofText he
    rw [← Expr.resolve_toOperand] at hn
    cases e with
    | number m =>
      obtain rfl := Except.ok.inj hn
      exact hproper
    | binary left op right =>
      obtain ⟨a, b, -, -, hresult⟩ := exists_exactFor_of_resolve hn
      exact Operation.isProper_of_onExact hresult

theorem reduce_cases (h : reduce x op y = .ok z) :
    z = x ∨ z = y ∨ ∃ n, (calculation x op y).resolve = .ok n ∧ z = number n := by
  obtain ⟨side, -, hside⟩ := exists_of_bind_ok h
  match side with
  | some .left => exact .inl (Except.ok.inj hside).symm
  | some .right => exact .inr (.inl (Except.ok.inj hside).symm)
  | none =>
    obtain ⟨n, hn, hz⟩ := exists_of_bind_ok hside
    exact .inr (.inr ⟨n, hn, (Except.ok.inj hz).symm⟩)

theorem isProper_of_reduce (hx : x.IsProper) (hy : y.IsProper) (h : reduce x op y = .ok z) : z.IsProper := by
  rcases reduce_cases h with rfl | rfl | ⟨n, hn, rfl⟩
  · exact hx
  · exact hy
  · exact isProper_of_resolve (x := calculation x op y) ⟨hx, hy⟩ hn

theorem isProper_of_apply (hx : x.IsProper) (hy : y.IsProper) (h : x.apply op y = .ok z) : z.IsProper := by
  cases x with
  | number n => exact isProper_of_reduce hx hy h
  | calculation left o right => exact isProper_of_reduce hx hy h
  | phrase p =>
    obtain ⟨neutral, -, hz⟩ := exists_of_bind_ok h
    split_ifs at hz
    · obtain rfl := Except.ok.inj hz
      exact hx
    · obtain rfl := Except.ok.inj hz
      exact ⟨hx, hy⟩

theorem isProper_of_abs (hx : x.IsProper) (h : x.abs = .ok z) : z.IsProper := by
  obtain ⟨y, hopened, h⟩ := exists_of_bind_ok h
  have hy := isProper_of_opened hx hopened
  obtain ⟨zero, -, h⟩ := exists_of_bind_ok h
  split_ifs at h
  · obtain rfl := Except.ok.inj h
    exact hy
  · obtain ⟨o, -, h⟩ := exists_of_bind_ok h
    split_ifs at h
    · exact isProper_of_reduce (x := .number .zero) Number.isProper_zero hy h
    · obtain rfl := Except.ok.inj h
      exact hy

theorem isProper_of_ofDocument {d : Document} (h : ofDocument d = .ok x) : x.IsProper := by
  induction d generalizing x with
  | number value =>
    obtain ⟨n, hn, rfl⟩ := exists_of_map_ok h
    exact Number.isProper_of_ofText hn
  | calculation left op right ihl ihr =>
    rw [ofDocument] at h
    obtain ⟨y, hy, h⟩ := exists_of_bind_ok h
    obtain ⟨z, hz, h⟩ := exists_of_bind_ok h
    obtain rfl := Except.ok.inj h
    exact ⟨ihl hy, ihr hz⟩
  | phrase value =>
    obtain rfl := Except.ok.inj h
    trivial

theorem isProper_of_ofJson {s : String} (h : ofJson s = .ok x) : x.IsProper := by
  rw [ofJson] at h
  split at h
  · exact isProper_of_ofDocument h
  · cases h

end Operand

end ExactCalc
