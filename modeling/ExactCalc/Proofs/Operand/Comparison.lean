import Mathlib
import ExactCalc.Proofs.Expr.Spacing
import ExactCalc.Proofs.Operand.Proper
import ExactCalc.Proofs.Operand.Value

/-!
# Comparison of operands

Operands of all kinds are compared by the exact values of the numbers that they resolve to (`Operand.worth`), if these
can be read, and have no order if not (`Operand.compare_eq_ok_iff`). A phrase that is written as zero or one need not be
read to tell that it is (`Operand.atSight_isZero`).
-/

namespace ExactCalc

theorem Number.isReadable_of_toExact {n : Number} {a : Exact} (h : n.toExact = .ok a) : n.IsReadable := by
  cases n with
  | decimal d | rational r => trivial
  | numeral s | amount s =>
    cases hs : Decimal.ofText? s with
    | none => simp [toExact, toDecimal, readAs, hs, Except.map] at h
    | some d => simp [IsReadable, hs]

namespace Operand

variable {x y : Operand}

/-! ## Order -/

theorem isReadable_of_toExact {a : Exact} (h : x.toExact = .ok a) : x.IsReadable := by
  obtain ⟨n, hn, ha⟩ := exists_of_bind_ok h
  exact ⟨n, hn, Number.isReadable_of_toExact ha⟩

theorem exists_of_compare {o : Ordering} (h : x.compare y = .ok o) :
    ∃ a b, x.toExact = .ok a ∧ y.toExact = .ok b ∧ o = cmp a.toRat b.toRat := by
  obtain ⟨a, ha, h⟩ := exists_of_bind_ok h
  obtain ⟨b, hb, h⟩ := exists_of_bind_ok h
  exact ⟨a, b, ha, hb, by rw [← Except.ok.inj h, Exact.compare_eq]⟩

theorem IsReadable.compare_eq (hx : x.IsReadable) (hy : y.IsReadable) : x.compare y = .ok (cmp x.worth y.worth) := by
  obtain ⟨a, ha, hvalue⟩ := hx.exists_toExact
  obtain ⟨b, hb, hvalue'⟩ := hy.exists_toExact
  rw [compare, ha, hb, ← hvalue, ← hvalue', ← Exact.compare_eq]
  rfl

theorem compare_eq_ok_iff {o : Ordering} :
    x.compare y = .ok o ↔ x.IsReadable ∧ y.IsReadable ∧ o = cmp x.worth y.worth := by
  constructor
  · intro h
    obtain ⟨a, b, ha, hb, -⟩ := exists_of_compare h
    have hx := isReadable_of_toExact ha
    have hy := isReadable_of_toExact hb
    exact ⟨hx, hy, Except.ok.inj (h.symm.trans (hx.compare_eq hy))⟩
  · rintro ⟨hx, hy, rfl⟩
    exact hx.compare_eq hy

/-! ## Answers at sight -/

/-- A question to which a phrase that is written as this literal answers yes without being read. -/
def atSight (literal : String) (ask : Operand → Result Bool) : Operand → Result Bool
  | phrase (.written s) => if Text.trim s = literal then .ok true else ask (phrase (.written s))
  | x => ask x

theorem resolve_of_trim {s w : String} {t : Token} {e : Expr} (h : Text.trim s = w) (hscan : Token.scan w = .ok [t])
    (ht : t.text = w) (he : Expr.ofText w = .ok e) : (phrase (.written s)).resolve = e.resolve := by
  have hpad : Padded ([t].map Token.text) w.toList s.toList := by
    rw [List.map_singleton, ht]
    exact padded_of_trim h
  obtain ⟨ts, hts, hsymbols⟩ := Token.scan_padded hscan hpad
  have hparsed : Phrase.parsed (.written s) = .ok e := (Expr.ofText_iff_of_symbols hscan hts hsymbols e).mpr he
  rw [resolve, hparsed]
  rfl

theorem resolve_of_isWritten {literal : String} {t : Token} {e : Expr} (h : x.isWritten literal = true)
    (hscan : Token.scan literal = .ok [t]) (ht : t.text = literal) (he : Expr.ofText literal = .ok e) :
    x.resolve = e.resolve := by
  cases x with
  | number n | calculation left op right => simp [isWritten] at h
  | phrase p =>
    cases p with
    | extended p op y => simp [isWritten] at h
    | written s => exact resolve_of_trim (by simpa [isWritten] using h) hscan ht he

theorem isZero_of_isWritten (h : x.isWritten "0" = true) : x.isZero = .ok true := by
  have hscan : Token.scan "0" = .ok [⟨.numeric, 0, "0"⟩] := by cbv
  have he : Expr.ofText "0" = .ok (.number .zero) := by cbv
  rw [isZero, resolve_of_isWritten h hscan rfl he]
  cbv

theorem isOne_of_isWritten (h : x.isWritten "1" = true) : x.isOne = .ok true := by
  have hscan : Token.scan "1" = .ok [⟨.numeric, 0, "1"⟩] := by cbv
  have he : Expr.ofText "1" = .ok (.number .one) := by cbv
  rw [isOne, resolve_of_isWritten h hscan rfl he]
  cbv

theorem atSight_eq {literal : String} {ask : Operand → Result Bool}
    (h : ∀ y : Operand, y.isWritten literal = true → ask y = .ok true) (x : Operand) :
    x.atSight literal ask = ask x := by
  unfold atSight
  split
  · split_ifs with hs
    · exact (h _ (by simp [isWritten, hs])).symm
    · rfl
  · rfl

theorem atSight_isZero (x : Operand) : x.atSight "0" isZero = x.isZero := atSight_eq (fun _ => isZero_of_isWritten) x

theorem atSight_isOne (x : Operand) : x.atSight "1" isOne = x.isOne := atSight_eq (fun _ => isOne_of_isWritten) x

end Operand

end ExactCalc
