import Mathlib
import ExactCalc.Proofs.Expr.Inorder
import ExactCalc.Proofs.Token.Spelling

/-!
# Reading a formula

The reading of a formula as a function of the stack it starts with: `Formula.reduce`. Reading the tokens of a
formula from the start of an expression leads to its result, whatever is on the stack and whatever follows
(`Reduction.run_symbols`), and every formula is read from an empty stack to an empty one. A text that spells
a formula is therefore read as an expression: `Expr.ofText_eq_toExpr`.
-/

namespace ExactCalc

namespace Reduction

/-- Completes what the innermost parenthesis has interrupted, if it has not been completed yet. -/
def close (stack : List Frame) (e : Expr) : List Frame × Expr :=
  match stack with
  | [] => ([], e)
  | .group :: rest => (rest, e)
  | .pending left op :: rest => (rest, .binary left op e)

def start (stack : List Frame) : Reduction := { stack }

def after (r : List Frame × Expr) : Reduction := { stack := r.1, left := some r.2, mode := .right }

end Reduction

/-- The number that a literal is read as; white space in it does not matter. -/
def numberOf (s : String) : Number :=
  match Number.ofText (String.ofList (Text.dropBlanks s.toList)) with
  | .ok n => n
  | .error _ => .zero

/-- What is left of the stack after a formula, and the expression that has been read by then. -/
def Formula.reduce : Formula → List Frame → List Frame × Expr
  | literal s, stack => (stack, .number (numberOf s))
  | group f, stack =>
    let inner := f.reduce (.group :: stack)
    Reduction.close inner.1 inner.2
  | thenLiteral e op s, stack =>
    let left := e.reduce stack
    Reduction.fold left.1 (.binary left.2 op (.number (numberOf s)))
  | thenGroup e op f, stack =>
    let left := e.reduce stack
    let inner := f.reduce (.pending left.2 op :: left.1)
    Reduction.close inner.1 inner.2

theorem IsNumeral.ofText_eq {s : String} (h : IsNumeral s) :
    Number.ofText (String.ofList (Text.dropBlanks s.toList)) = .ok (numberOf s) := by
  obtain ⟨n, hn⟩ := h.number
  simp [numberOf, hn]

theorem IsLiteral.numberOf_eq {s : String} (h : IsLiteral s) {n : Number} (hn : Number.ofText s = .ok n) :
    numberOf s = n := by
  rw [numberOf, h.dropBlanks_eq, hn]

/-! ## Reading tokens -/

namespace Reduction

variable {source s : String} {t t₁ t₂ : Token} {op : Operation} {ts : List Token}

theorem run_opening (ht : t.symbol = (.opening, "(")) (stack : List Frame) :
    (start stack).run source (t :: ts) = (start (.group :: stack)).run source ts := by
  have hk : t.kind = .opening := congrArg Prod.fst ht
  rw [run, step, hk]
  rfl

theorem run_literal (hs : IsNumeral s) (ht : t.symbol = (.numeric, s)) (stack : List Frame) :
    (start stack).run source (t :: ts) = (after (stack, .number (numberOf s))).run source ts := by
  have hk : t.kind = .numeric := congrArg Prod.fst ht
  have htext : t.text = s := congrArg Prod.snd ht
  rw [run, step, hk]
  simp only [readNumber, htext, hs.ofText_eq]
  rfl

theorem run_closing (ht : t.symbol = (.closing, ")")) (r : List Frame × Expr) :
    (after r).run source (t :: ts) = (after (close r.1 r.2)).run source ts := by
  have hk : t.kind = .closing := congrArg Prod.fst ht
  obtain ⟨stack, e⟩ := r
  rw [run, step, hk]
  cases stack with
  | nil => simp [closeGroup, after, close, bind, Except.bind]
  | cons frame stack => cases frame <;> rfl

theorem run_operation (ht : t.symbol = (.operation, op.text)) (r : List Frame × Expr) :
    (after r).run source (t :: ts) = { after r with operation := some op : Reduction }.run source ts := by
  have hk : t.kind = .operation := congrArg Prod.fst ht
  have htext : t.text = op.text := congrArg Prod.snd ht
  rw [run, step, hk]
  simp only [readOperation, htext, Operation.ofSymbol, Operation.ofSymbol?_text]
  rfl

theorem run_thenLiteral (hs : IsNumeral s) (h₁ : t₁.symbol = (.operation, op.text))
    (h₂ : t₂.symbol = (.numeric, s)) (r : List Frame × Expr) :
    (after r).run source (t₁ :: t₂ :: ts) =
      (after (fold r.1 (.binary r.2 op (.number (numberOf s))))).run source ts := by
  have hk : t₂.kind = .numeric := congrArg Prod.fst h₂
  have htext : t₂.text = s := congrArg Prod.snd h₂
  rw [run_operation h₁, run, step, hk]
  simp only [readNumber, htext, hs.ofText_eq]
  rfl

theorem run_thenOpening (h₁ : t₁.symbol = (.operation, op.text)) (h₂ : t₂.symbol = (.opening, "("))
    (r : List Frame × Expr) :
    (after r).run source (t₁ :: t₂ :: ts) = (start (.pending r.2 op :: r.1)).run source ts := by
  have hk : t₂.kind = .opening := congrArg Prod.fst h₂
  rw [run_operation h₁, run, step, hk]
  rfl

/-- The tokens of a formula are read to its result. -/
theorem run_symbols {f : Formula} (hf : f.HasNumerals) {ts : List Token}
    (hts : ts.map Token.symbol = f.symbols) (source : String) (stack : List Frame) (rest : List Token) :
    (start stack).run source (ts ++ rest) = (after (f.reduce stack)).run source rest := by
  induction f generalizing ts stack rest with
  | literal s =>
    obtain ⟨t, rfl, ht⟩ := List.map_eq_singleton_iff.mp hts
    exact run_literal (hf s (by simp [Formula.literals])) ht stack
  | group f ih =>
    obtain ⟨t, us, rfl, ht, hus⟩ := List.map_eq_cons_iff.mp hts
    obtain ⟨vs, ws, rfl, hvs, hws⟩ := List.map_eq_append_iff.mp hus
    obtain ⟨u, rfl, hu⟩ := List.map_eq_singleton_iff.mp hws
    rw [List.cons_append, run_opening ht, List.append_assoc, ih hf hvs, List.singleton_append, run_closing hu]
    rfl
  | thenLiteral e op s ih =>
    obtain ⟨he, hs⟩ := List.forall_mem_append.mp hf
    obtain ⟨us, vs, rfl, hus, hvs⟩ := List.map_eq_append_iff.mp hts
    obtain ⟨t₁, ws, rfl, h₁, hws⟩ := List.map_eq_cons_iff.mp hvs
    obtain ⟨t₂, rfl, h₂⟩ := List.map_eq_singleton_iff.mp hws
    rw [List.append_assoc, ih he hus, List.cons_append, List.singleton_append,
      run_thenLiteral (hs s (by simp)) h₁ h₂]
    rfl
  | thenGroup e op f ihe ihf =>
    obtain ⟨he, hf⟩ := List.forall_mem_append.mp hf
    obtain ⟨us, vs, rfl, hus, hvs⟩ := List.map_eq_append_iff.mp hts
    obtain ⟨t₁, ws, rfl, h₁, hws⟩ := List.map_eq_cons_iff.mp hvs
    obtain ⟨t₂, xs, rfl, h₂, hxs⟩ := List.map_eq_cons_iff.mp hws
    obtain ⟨ys, zs, rfl, hys, hzs⟩ := List.map_eq_append_iff.mp hxs
    obtain ⟨t₃, rfl, h₃⟩ := List.map_eq_singleton_iff.mp hzs
    rw [List.append_assoc, ihe he hus, List.cons_append, List.cons_append, run_thenOpening h₁ h₂,
      List.append_assoc, ihf hf hys, List.singleton_append, run_closing h₃]
    rfl

theorem length_close_le (stack : List Frame) (e : Expr) : (close stack e).1.length ≤ stack.length - 1 := by
  cases stack with
  | nil => simp [close]
  | cons frame stack => cases frame <;> simp [close]

theorem length_fold_le (stack : List Frame) (e : Expr) : (fold stack e).1.length ≤ stack.length := by
  unfold fold
  split <;> simp

end Reduction

namespace Formula

theorem length_reduce_le (f : Formula) (stack : List Frame) : (f.reduce stack).1.length ≤ stack.length := by
  induction f generalizing stack with
  | literal s => exact le_rfl
  | group f ih =>
    have hinner := ih (.group :: stack)
    rw [List.length_cons] at hinner
    refine (Reduction.length_close_le _ _).trans ?_
    omega
  | thenLiteral e op s ih => exact (Reduction.length_fold_le _ _).trans (ih stack)
  | thenGroup e op f ihe ihf =>
    have hleft := ihe stack
    have hinner := ihf (.pending (e.reduce stack).2 op :: (e.reduce stack).1)
    rw [List.length_cons] at hinner
    refine (Reduction.length_close_le _ _).trans ?_
    omega

def toExpr (f : Formula) : Expr := (f.reduce []).2

theorem reduce_nil (f : Formula) : f.reduce [] = ([], f.toExpr) := by
  have hlen := f.length_reduce_le []
  refine Prod.ext ?_ rfl
  exact List.eq_nil_of_length_eq_zero (Nat.le_zero.mp hlen)

end Formula

theorem Expr.ofText_eq_toExpr {f : Formula} (hf : f.HasNumerals) {s : String} (hs : f.IsWrittenAs s) :
    Expr.ofText s = .ok f.toExpr := by
  obtain ⟨ts, hscan, hts⟩ := f.scan_eq hf hs
  have hrun := Reduction.run_symbols hf hts s [] []
  rw [List.append_nil, f.reduce_nil] at hrun
  unfold ofText tokensOf
  rw [hscan]
  unfold ofTokens
  simp only [Except.mapError, bind, Except.bind]
  rw [show ({} : Reduction) = Reduction.start [] from rfl, hrun]
  rfl

/-- Tokens that are read, from the scanner or not, are those of the expression in order, and every text that
spells a formula is read. -/
theorem Expr.reading_faithful :
    (∀ (source : String) (ts : List Token) (e : Expr), Expr.ofTokens source ts = .ok e →
      Alternating ((ts.filter fun t => !t.isParenthesis).map Token.kind) ∧
        List.Forall₂ Token.Denotes (ts.filter fun t => !t.isParenthesis) e.inorder) ∧
      ∀ (f : Formula) (s : String), f.IsWellFormed → f.IsWrittenAs s → ∃ e, Expr.ofText s = .ok e := by
  constructor
  · intro source ts e h
    exact ⟨ofTokens_alternating h, ofTokens_inorder h⟩
  · intro f s hf hs
    exact ⟨f.toExpr, ofText_eq_toExpr hf.hasNumerals hs⟩

theorem Expr.reading_faithful_sum :
    let ts : List Token := [⟨.numeric, 0, "1"⟩, ⟨.closing, 1, ")"⟩, ⟨.operation, 2, "+"⟩, ⟨.numeric, 3, "2"⟩]
    (Alternating ((ts.filter fun t => !t.isParenthesis).map Token.kind) ∧
      List.Forall₂ Token.Denotes (ts.filter fun t => !t.isParenthesis)
        (Expr.binary (.number (.amount "1")) .plus (.number (.amount "2"))).inorder) ∧
      ∃ e, Expr.ofText "1+2" = .ok e := by
  have h₁ : IsLiteral "1" := isLiteral_digit (c := '1') rfl
  have h₂ : IsLiteral "2" := isLiteral_digit (c := '2') rfl
  refine ⟨Expr.reading_faithful.1 "1)+2" _ _ (by cbv), ?_⟩
  exact Expr.reading_faithful.2 (.thenLiteral (.literal "1") .plus "2") "1+2" ⟨h₁, h₂⟩ (Formula.isWrittenAs_text _)

end ExactCalc
