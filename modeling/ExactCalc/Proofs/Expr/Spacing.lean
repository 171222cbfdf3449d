import Mathlib
import ExactCalc.Proofs.Formula
import ExactCalc.Proofs.Token.Spacing

/-!
# White space does not change an expression

The reading of tokens looks at their kinds and texts only: the text that they come from, and their places in it, are
shown in a message when a token cannot be read, and decide nothing (`Reduction.toOption_step`). So a text with more
white space around its tokens, which are the same then, is read as the same expression: `Expr.ofText_padded`.
-/

namespace ExactCalc

section
variable {α β : Type}

theorem toOption_bind (x : Result α) (f : α → Result β) :
    (x >>= f).toOption = x.toOption.bind fun a => (f a).toOption := by
  cases x <;> rfl

theorem toOption_eq_some_iff {x : Result α} {a : α} : x.toOption = some a ↔ x = .ok a := by
  cases x <;> simp [Except.toOption]

end

namespace Reduction

variable {t t' : Token}

theorem toOption_openGroup (s : Reduction) (source source' : String) (t t' : Token) :
    (s.openGroup source' t').toOption = (s.openGroup source t).toOption := by
  unfold openGroup
  split
  · rfl
  · split
    · split <;> rfl
    · rfl
    · rfl

theorem toOption_closeGroup (s : Reduction) (source source' : String) (t t' : Token) (isLast : Bool) :
    (s.closeGroup source' t' isLast).toOption = (s.closeGroup source t isLast).toOption := by
  unfold closeGroup
  simp only
  split
  · split_ifs <;> rfl
  · split
    · split_ifs <;> rfl
    · rfl
  · split_ifs <;> rfl

theorem toOption_readNumber (s : Reduction) (source source' : String) (h : t'.text = t.text) :
    (s.readNumber source' t').toOption = (s.readNumber source t).toOption := by
  unfold readNumber
  rw [h]
  cases Number.ofText (String.ofList (Text.dropBlanks t.text.toList)) with
  | error e => rfl
  | ok n =>
    simp only [bind, Except.bind]
    split
    · rfl
    · split <;> rfl

theorem toOption_readOperation (s : Reduction) (source source' : String) (h : t'.text = t.text) :
    (s.readOperation source' t').toOption = (s.readOperation source t).toOption := by
  unfold readOperation
  rw [h]
  split_ifs <;> rfl

/-- Whether a token is read, and to which state, is a matter of its kind and text. -/
theorem toOption_step (s : Reduction) (source source' : String) (h : t'.symbol = t.symbol) (isLast : Bool) :
    (s.step source' t' isLast).toOption = (s.step source t isLast).toOption := by
  have hkind : t'.kind = t.kind := congrArg Prod.fst h
  have htext : t'.text = t.text := congrArg Prod.snd h
  unfold step
  rw [hkind]
  cases t.kind with
  | opening => exact s.toOption_openGroup source source' t t'
  | closing => exact s.toOption_closeGroup source source' t t' isLast
  | numeric => exact s.toOption_readNumber source source' htext
  | operation => exact s.toOption_readOperation source source' htext
  | blank => rfl

theorem toOption_run (s : Reduction) (source source' : String) {ts ts' : List Token}
    (h : ts'.map Token.symbol = ts.map Token.symbol) :
    (s.run source' ts').toOption = (s.run source ts).toOption := by
  induction ts generalizing s ts' with
  | nil =>
    obtain rfl := List.map_eq_nil_iff.mp h
    rfl
  | cons t ts ih =>
    obtain ⟨t', ts', rfl, ht, hts⟩ := List.map_eq_cons_iff.mp h
    have hlast : ts'.isEmpty = ts.isEmpty := by
      rw [← List.isEmpty_map (f := Token.symbol), hts, List.isEmpty_map]
    rw [run, run, hlast, toOption_bind, toOption_bind, s.toOption_step source source' ht]
    congr 1
    funext r
    exact ih r hts

end Reduction

namespace Expr

/-- Tokens of the same kinds and texts are read as the same expression, or none of them is. -/
theorem toOption_ofTokens {source source' : String} {ts ts' : List Token}
    (h : ts'.map Token.symbol = ts.map Token.symbol) :
    (ofTokens source' ts').toOption = (ofTokens source ts).toOption := by
  rw [ofTokens, ofTokens, toOption_bind, toOption_bind, Reduction.toOption_run _ source source' h]
  congr 1
  funext r
  unfold Reduction.finish
  split <;> rfl

theorem ofText_eq_ofTokens {s : String} {ts : List Token} (h : Token.scan s = .ok ts) : ofText s = ofTokens s ts := by
  rw [ofText, tokensOf, h]
  rfl

theorem ofText_iff_of_symbols {s s' : String} {ts ts' : List Token} (h : Token.scan s = .ok ts)
    (h' : Token.scan s' = .ok ts') (hts : ts'.map Token.symbol = ts.map Token.symbol) (e : Expr) :
    ofText s' = .ok e ↔ ofText s = .ok e := by
  rw [ofText_eq_ofTokens h, ofText_eq_ofTokens h', ← toOption_eq_some_iff, ← toOption_eq_some_iff,
    toOption_ofTokens hts]

/-- More white space around the tokens of a text changes neither the tokens nor the expression that is read. -/
theorem ofText_padded {s s' : String} {ts : List Token} (h : Token.scan s = .ok ts)
    (hpad : Padded (ts.map Token.text) s.toList s'.toList) :
    ∃ ts', Token.scan s' = .ok ts' ∧ ts'.map Token.symbol = ts.map Token.symbol ∧
      ∀ e, ofText s' = .ok e ↔ ofText s = .ok e := by
  obtain ⟨ts', hscan, hts'⟩ := Token.scan_padded h hpad
  exact ⟨ts', hscan, hts', ofText_iff_of_symbols h hscan hts'⟩

theorem ofText_padded_difference :
    let ts : List Token := [⟨.numeric, 0, "1 .5"⟩, ⟨.operation, 4, "-"⟩, ⟨.numeric, 5, "3"⟩]
    Token.scan "1 .5-3" = .ok ts ∧
      Padded (ts.map Token.text) "1 .5-3".toList "\t1 .5\u3000-\n3".toList ∧
      ∃ ts', Token.scan "\t1 .5\u3000-\n3" = .ok ts' ∧ ts'.map Token.symbol = ts.map Token.symbol ∧
        ∀ e, ofText "\t1 .5\u3000-\n3" = .ok e ↔ ofText "1 .5-3" = .ok e := by
  have hscan : Token.scan "1 .5-3" = .ok [⟨.numeric, 0, "1 .5"⟩, ⟨.operation, 4, "-"⟩, ⟨.numeric, 5, "3"⟩] := by cbv
  have hend : Padded [] [] [] := .nil (.refl _) (by simp)
  have hthree : Padded ["3"] ([] ++ ("3".toList ++ [])) (['\n'] ++ ("3".toList ++ [])) :=
    .cons (by simp) (by simp; rfl) hend
  have hminus : Padded ["-", "3"] ([] ++ ("-".toList ++ "3".toList)) (['\u3000'] ++ ("-".toList ++ "\n3".toList)) :=
    .cons (by simp) (by simp; rfl) hthree
  have hpad : Padded ["1 .5", "-", "3"] ([] ++ ("1 .5".toList ++ "-3".toList))
      (['\t'] ++ ("1 .5".toList ++ "\u3000-\n3".toList)) :=
    .cons (by simp) (by simp; rfl) hminus
  exact ⟨hscan, hpad, ofText_padded hscan hpad⟩

end Expr

end ExactCalc
