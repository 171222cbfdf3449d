import Mathlib
import ExactCalc.Entry
import ExactCalc.Proofs.Expr.LeftToRight
import ExactCalc.Proofs.Token.Partition

/-!
# Literals as texts

The grammar of numbers exists twice: for a text that is a number, and for the numbers in a longer text, which the
scanner cuts into pieces and joins again. The two agree on ASCII texts: whatever is accepted as a number is one token,
and the expression of the text is that number (`Expr.ofText_literal`). So it makes no difference that an entry which is
a plain number is not read as an expression.

A text in the digits of another script may be accepted and come in two pieces (`Expr.ofText_leftToRight_ne`).
-/

namespace ExactCalc

open Text

/-! ## Literals -/

/-- An ASCII text that is accepted as a number is a literal: the scanner reads it as one token. -/
theorem isLiteral_of_ofText {s : String} {n : Number} (hascii : ∀ c ∈ s.toList, c.toNat < 128) (hne : s ≠ "")
    (hn : Number.ofText s = .ok n) : IsLiteral s := by
  obtain ⟨w, ps, hw, hs⟩ := Token.exists_unsigned_of_ofText hascii hne hn
  exact isLiteral_of_unsigned hw hs hascii ⟨n, hn⟩

namespace IsLiteral

variable {s : String}

theorem scan_eq (h : IsLiteral s) : Token.scan s = .ok [⟨.numeric, 0, s⟩] := by
  have hnumeral := Formula.IsWellFormed.hasNumerals (f := .literal s) h
  obtain ⟨ts, hscan, hts⟩ := Formula.scan_eq hnumeral (Formula.isWrittenAs_literal s)
  obtain ⟨⟨kind, start, text⟩, rfl, hsymbol⟩ := List.map_eq_singleton_iff.mp hts
  obtain ⟨rfl, rfl⟩ := Prod.mk.inj hsymbol
  obtain ⟨before, after, htext, hstart⟩ := (Token.liesIn_of_scan hscan).exists_split _ (List.mem_singleton_self _)
  have hbefore : before = [] := by
    have hlength := congrArg List.length htext
    simp only [List.length_append] at hlength
    exact List.eq_nil_of_length_eq_zero (by omega)
  subst hbefore
  obtain rfl : start = 0 := hstart
  exact hscan

theorem parsed_eq (h : IsLiteral s) {n : Number} (hn : Number.ofText s = .ok n) :
    (Phrase.written s).parsed = .ok (.number n) := by
  have hnumeral := Formula.IsWellFormed.hasNumerals (f := .literal s) h
  have hparsed := Expr.ofText_eq_toExpr hnumeral (Formula.isWrittenAs_literal s)
  rw [Phrase.parsed, Phrase.text, hparsed, Formula.toExpr, Formula.reduce, h.numberOf_eq hn]

theorem trim_eq (h : IsLiteral s) : trim s = s := trim_eq_self h.isWord.isBlank_eq_false

theorem scientific?_eq (h : IsLiteral s) : Entry.scientific? s.toList = none := by
  obtain ⟨w, ps, hw, hs⟩ := Token.exists_unsigned_of_isLiteral h
  have hmarks : ∀ c ∈ ['.', 'r', '(', ')', '[', ']'], c ≠ 'e' := by simp
  have hbody : ∀ c ∈ w, c ≠ 'e' := by
    intro c hc
    rcases hw.isDigit_or_mem c hc with hdigit | hmem
    · rintro rfl
      have hletter : isDigit 'e' = false := by decide
      rw [hletter] at hdigit
      cases hdigit
    · exact hmarks c hmem
  have hne : ∀ c ∈ s.toList, c ≠ 'e' := by
    rcases hs with hs | hs
    · rwa [hs]
    · rw [hs, List.forall_mem_cons]
      exact ⟨by decide, hbody⟩
  have hdrop : s.toList.dropWhile (· ≠ 'e') = [] :=
    List.dropWhile_eq_nil_iff.mpr fun c hc => by simpa using hne c hc
  rw [Entry.scientific?, hdrop]

/-- As an entry a literal is read as its expression, whether it is recognised as a plain number or not. -/
theorem readTrimmed_eq (h : IsLiteral s) {n : Number} (hn : Number.ofText s = .ok n) :
    Entry.readTrimmed s = (Phrase.written s).parsed.map Expr.toOperand := by
  rw [Entry.readTrimmed, h.scientific?_eq]
  split_ifs
  · rw [hn, h.parsed_eq hn]
    rfl
  · rfl

end IsLiteral

/-- An ASCII text that is accepted as a number is one token, which covers it, and its expression is that number. As an
entry it is read as the expression that it is. -/
theorem Expr.ofText_literal {s : String} {n : Number} (hascii : ∀ c ∈ s.toList, c.toNat < 128) (hne : s ≠ "")
    (hn : Number.create (.text s) = .ok n) :
    Token.scan s = .ok [⟨.numeric, 0, s⟩] ∧ (Phrase.written s).parsed = .ok (.number n) ∧
      Entry.readTrimmed s = (Phrase.written s).parsed.map Expr.toOperand ∧ Entry.read s = .ok (.number n) := by
  have hliteral := isLiteral_of_ofText hascii hne hn
  have hparsed := hliteral.parsed_eq hn
  have hread := hliteral.readTrimmed_eq hn
  refine ⟨hliteral.scan_eq, hparsed, hread, ?_⟩
  rw [Entry.read, hliteral.trim_eq, hread, hparsed]
  rfl

/-- The sign, the digits before the point and those after it are three pieces, and one token. -/
theorem Expr.ofText_literal_decimal :
    Token.scan "-1.5" = .ok [⟨.numeric, 0, "-1.5"⟩] ∧ (Phrase.written "-1.5").parsed = .ok (.number (.numeral "-1.5")) ∧
      Entry.read "-1.5" = .ok (.number (.numeral "-1.5")) := by
  have hn : Number.create (.text "-1.5") = .ok (.numeral "-1.5") := by cbv
  obtain ⟨hscan, hparsed, -, hread⟩ := Expr.ofText_literal (by simp) (by decide) hn
  exact ⟨hscan, hparsed, hread⟩

end ExactCalc
