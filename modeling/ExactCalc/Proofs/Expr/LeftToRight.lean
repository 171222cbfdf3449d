import Mathlib
import ExactCalc.Proofs.Expr.Tree
import ExactCalc.Proofs.Token.Cover

/-!
# From left to right

An operation and a number after an expression are read as the operation with the whole expression as its left
operand, and parentheses around an expression play no part: `Expr.ofText_leftToRight`.

The literals are the words that are accepted as a number and that the scanner leaves in one piece (`IsWord`). A number
in the digits of another script may be accepted and come in two pieces, since only ASCII digits are joined with the
fraction after them; such a text is not read (`Expr.ofText_leftToRight_ne`).
-/

namespace ExactCalc

open Text

/-- A text that is accepted as a number, and that the scanner reads as one token. -/
structure IsWord (s : String) : Prop where
  number : ∃ n, Number.ofText s = .ok n
  token : ∃ t, Token.scan s = .ok [t]

theorem Spelling.eq_of_not_blank {word s : String} (h : Spelling [word] s.toList)
    (hs : ∀ c ∈ s.toList, isBlank c = false) : word = s := by
  have hnil : ∀ {gap : List Char}, (∀ c ∈ gap, isBlank c = true) → (∀ c ∈ gap, isBlank c = false) → gap = [] := by
    intro gap hblank hword
    refine List.eq_nil_iff_forall_not_mem.mpr fun c hc => ?_
    simpa [hblank c hc] using hword c hc
  apply String.toList_injective
  generalize s.toList = cs at h hs
  cases h with
  | cons hgap hrest =>
    cases hrest with
    | nil hend =>
      simp only [List.forall_mem_append] at hs
      rw [hnil hgap hs.1, hnil hend hs.2.2, List.nil_append, List.append_nil]

namespace Token

theorem IsAccepted.exists_digit {w : List Char} (h : IsAccepted w) : ∃ c ∈ w, isDigit c = true := by
  have hfirst : ∀ {ds : List Char}, (∀ c ∈ ds, isDigit c = true) → ds ≠ [] → ∃ c ∈ ds, isDigit c = true := by
    intro ds hd hne
    obtain ⟨d, ds, rfl⟩ := List.exists_cons_of_ne_nil hne
    exact ⟨d, by simp, hd d (by simp)⟩
  rcases h with ⟨most, h⟩ | ⟨ps, h⟩
  · obtain ⟨hne, hd⟩ | ⟨ds, fs, rfl, -, hne, hf⟩ := isPlainNumeral_cases h
    · exact hfirst hd hne
    · obtain ⟨c, hc, hdigit⟩ := hfirst hf hne
      exact ⟨c, by simp [hc], hdigit⟩
  · cases h with
    | whole hd hne => exact hfirst hd hne
    | fraction hf hne =>
      obtain ⟨c, hc, hdigit⟩ := hfirst hf hne
      exact ⟨c, by simp [hc], hdigit⟩
    | decimal hd hne _ _ | lastDigit hd hne _ _ | period hd hne _ _ _ _ _ =>
      obtain ⟨c, hc, hdigit⟩ := hfirst hd.isDigit hne
      exact ⟨c, by simp [hc], hdigit⟩

theorem IsAccepted.isBlank_eq_false {w : List Char} (h : IsAccepted w) : ∀ c ∈ w, isBlank c = false := by
  rcases h with ⟨most, h⟩ | ⟨ps, h⟩
  · obtain ⟨-, hd⟩ | ⟨ds, fs, rfl, hd, -, hf⟩ := isPlainNumeral_cases h
    · exact fun c hc => isBlank_eq_false_of_isDigit (hd c hc)
    · rw [List.forall_mem_append, List.forall_mem_cons]
      exact ⟨fun c hc => isBlank_eq_false_of_isDigit (hd c hc), rfl,
        fun c hc => isBlank_eq_false_of_isDigit (hf c hc)⟩
  · exact h.isBlank_eq_false

end Token

namespace IsWord

variable {s : String}

theorem ne_nil (h : IsWord s) : s.toList ≠ [] := by
  obtain ⟨t, ht⟩ := h.token
  intro hnil
  simp [Token.scan_eq_joined, hnil, Token.pieces, Token.checkCover, Except.map] at ht

theorem exists_isAccepted (h : IsWord s) : ∃ w, Token.IsAccepted w ∧ (s.toList = w ∨ s.toList = '-' :: w) := by
  obtain ⟨n, hn⟩ := h.number
  refine Token.exists_isAccepted_of_ofText h.ne_nil (n := n) ?_
  rwa [String.ofList_toList]

theorem isBlank_eq_false (h : IsWord s) : ∀ c ∈ s.toList, isBlank c = false := by
  obtain ⟨w, hw, hs | hs⟩ := h.exists_isAccepted
  · rw [hs]
    exact hw.isBlank_eq_false
  · rw [hs, List.forall_mem_cons]
    exact ⟨rfl, hw.isBlank_eq_false⟩

theorem exists_token (h : IsWord s) : ∃ t : Token, t.IsScanned ∧ t.text = s ∧ t.kind = .numeric := by
  obtain ⟨t, ht⟩ := h.token
  obtain ⟨hspelling, hscanned⟩ := Token.scan_spells ht
  have hone : t.IsScanned := hscanned t (by simp)
  have htext : t.text = s := hspelling.eq_of_not_blank h.isBlank_eq_false
  refine ⟨t, hone, htext, ?_⟩
  cases hone with
  | numeric hk _ _ => exact hk
  | @symbol c hk hc =>
    -- a sign or a parenthesis has no digit
    obtain ⟨w, hw, hs⟩ := h.exists_isAccepted
    obtain ⟨d, hd, hdigit⟩ := hw.exists_digit
    rw [← htext, hc, String.toList_singleton] at hs
    have hmem : d ∈ [c] := by
      rcases hs with hs | hs
      · rwa [hs]
      · rw [hs]
        exact List.mem_cons_of_mem _ hd
    rw [List.mem_singleton.mp hmem, (Token.symbolKind?_eq_some hk).2.1] at hdigit
    simp at hdigit

theorem isNumeral (h : IsWord s) : IsNumeral s := by
  obtain ⟨t, ht, rfl, hk⟩ := h.exists_token
  refine ht.isNumeral hk ?_
  rw [dropBlanks_eq_self h.isBlank_eq_false, String.ofList_toList]
  exact h.number

theorem ofText_eq (h : IsWord s) : Number.ofText s = .ok (numberOf s) := by
  obtain ⟨n, hn⟩ := h.number
  simp [numberOf, dropBlanks_eq_self h.isBlank_eq_false, hn]

end IsWord

/-- Spellings of `e`, of `e op n` and of `(e)` are read: the second as the operation with the expression of `e` and the
number of `n` as its operands, the third as the expression of `e`. -/
theorem Expr.ofText_leftToRight {e : Formula} (he : ∀ s ∈ e.literals, IsWord s) {n : String} (hn : IsWord n)
    (op : Operation) {s t u : String} (hs : e.IsWrittenAs s) (ht : (Formula.thenLiteral e op n).IsWrittenAs t)
    (hu : (Formula.group e).IsWrittenAs u) :
    ∃ x m, Expr.ofText s = .ok x ∧ Number.ofText n = .ok m ∧
      Expr.ofText t = .ok (.binary x op (.number m)) ∧ Expr.ofText u = .ok x := by
  have hnum : e.HasNumerals := fun l hl => (he l hl).isNumeral
  have hthen : (Formula.thenLiteral e op n).HasNumerals :=
    List.forall_mem_append.mpr ⟨hnum, by simpa using hn.isNumeral⟩
  refine ⟨e.toExpr, numberOf n, ofText_eq_toExpr hnum hs, hn.ofText_eq, ?_, ?_⟩
  · rw [ofText_eq_toExpr hthen ht, Formula.toExpr_thenLiteral]
  · rw [ofText_eq_toExpr (f := .group e) hnum hu, Formula.toExpr_group]

theorem IsLiteral.isWord {s : String} (h : IsLiteral s) : IsWord s := ⟨h.number, h.token⟩

theorem Expr.ofText_leftToRight_product :
    ∃ x m, Expr.ofText "1-(2+3)" = .ok x ∧ Number.ofText "4" = .ok m ∧
      Expr.ofText "1-(2+3)*4" = .ok (.binary x .multiply (.number m)) ∧ Expr.ofText "(1-(2+3))" = .ok x := by
  have hdigit : ∀ c : Char, isAsciiDigit c = true → IsWord (String.ofList [c]) :=
    fun c hc => (isLiteral_digit hc).isWord
  have he : ∀ s ∈ ["1", "2", "3"], IsWord s := by
    simp only [List.forall_mem_cons]
    exact ⟨hdigit '1' rfl, hdigit '2' rfl, hdigit '3' rfl, by simp⟩
  exact Expr.ofText_leftToRight (e := .thenGroup (.literal "1") .minus (.thenLiteral (.literal "2") .plus "3")) he
    (hdigit '4' rfl) .multiply (Formula.isWrittenAs_text _) (Formula.isWrittenAs_text _) (Formula.isWrittenAs_text _)

/-- A number in the digits of another script, with a point, is two tokens. -/
theorem Expr.ofText_leftToRight_ne :
    ¬ ∀ (e : Formula) (n : String) (op : Operation) (s t u : String),
      (∀ l ∈ e.literals, ∃ m, Number.ofText l = .ok m) → (∃ m, Number.ofText n = .ok m) → n.toList.head? ≠ some '-' →
      e.IsWrittenAs s → (Formula.thenLiteral e op n).IsWrittenAs t → (Formula.group e).IsWrittenAs u →
      ∃ x m, Expr.ofText s = .ok x ∧ Number.ofText n = .ok m ∧
        Expr.ofText t = .ok (.binary x op (.number m)) ∧ Expr.ofText u = .ok x := by
  intro h
  have hone : Number.ofText "1" = .ok (.amount "1") := by cbv
  have hother : Number.ofText "٣.٥" = .ok (.amount "٣.٥") := by cbv
  obtain ⟨x, m, -, -, ht, -⟩ := h (.literal "1") "٣.٥" .plus "1" "1+٣.٥" "(1)"
    (by simpa [Formula.literals] using ⟨_, hone⟩) ⟨_, hother⟩ (by simp) (Formula.isWrittenAs_text _)
    (Formula.isWrittenAs_text _) (Formula.isWrittenAs_text _)
  have hread : (Expr.ofText "1+٣.٥").toOption = none := by cbv
  rw [ht] at hread
  simp [Except.toOption] at hread

end ExactCalc
