import Mathlib
import ExactCalc.Proofs.Expr.Snapshot
import ExactCalc.Proofs.Number.Recurring
import ExactCalc.Proofs.Token.Partition

/-!
# Numbers that are scanned and read

A number of an ASCII text, without its white space, is a plain numeral, or digits with a period that may have none
before the point (`Token.IsScanned.isNumericText_or_spells`). Plain numerals are accepted. Of the others those are
accepted that have a digit before the point and parts after it of a length that a 32-bit word can count; the scanner
takes the rest as well, so a reading of an expression may stop at one of them (`Token.IsUnreadable`).
-/

namespace ExactCalc

open Text

namespace Recurring

variable {t : Recurring}

/-- Digits and a period; there may be none before the point. -/
structure IsPeriodic (t : Recurring) : Prop where
  whole : Digits t.whole
  fixed : Digits t.fixed
  period : Digits t.period
  period_ne : t.period ≠ []

theorem IsPeriodic.isProper (h : t.IsPeriodic) (hne : t.whole ≠ []) : t.IsProper :=
  ⟨h.whole, hne, h.fixed, h.period, h.period_ne⟩

theorem isRecurringText_point (negative : Bool) (cs : List Char) :
    isRecurringText ((if negative then ['-'] else []) ++ '.' :: cs) = false := by
  have hpoint : isDigit '.' = false := by decide
  rw [isRecurringText, unsignedPart_signed negative (by simp)]
  simp [hpoint]

theorem recurringValue?_eq_none {s : String} (hs : t.Spells s.toList) (hw : t.whole = []) :
    recurringValue? s = none := by
  have hnot : isRecurringText s.toList = false := by
    generalize s.toList = cs at hs
    cases hs with
    | enclosed _ _ => rw [hw, List.nil_append, isRecurringText_point]
    | lastDigit _ => rw [hw, List.nil_append, isRecurringText_point]
  rw [recurringValue?, if_neg (by simp [hnot])]

/-- A number with a period is accepted if it has a digit before the point, and parts after it that are not too long. -/
theorem ofText_of_isPeriodic {s : String} (h : t.IsPeriodic) (hs : t.Spells s.toList) :
    Number.ofText s = if t.whole ≠ [] ∧ t.Fits then .ok (.rational t.sum) else .error (.unsupported s) := by
  by_cases hw : t.whole = []
  · rw [ofText_eq_of_spells hs, recurringValue?_eq_none hs hw, if_neg fun hread => hread.1 hw]
    rfl
  · rw [ofText_of_spells (h.isProper hw) hs]
    simp only [hw, ne_eq, not_false_eq_true, true_and]

theorem exists_spells_mark (negative : Bool) {ws fs : List Char} (hw : Digits ws) (hf : Digits fs) (hne : fs ≠ []) :
    ∃ r : Recurring, r.IsPeriodic ∧ r.Spells ((if negative then ['-'] else []) ++ (ws ++ '.' :: (fs ++ ['r']))) := by
  obtain ⟨fixed, d, rfl⟩ := List.eq_nil_or_concat' fs |>.resolve_left hne
  obtain ⟨hfixed, hd⟩ := List.forall_mem_append.mp hf
  refine ⟨⟨negative, ws, fixed, [d]⟩, ⟨hw, hfixed, hd, by simp⟩, ?_⟩
  rw [List.append_assoc, List.singleton_append]
  exact .lastDigit rfl

end Recurring

namespace Token

/-- The text of a token without its white space: what a number is read from. -/
def numberText (t : Token) : String := String.ofList (dropBlanks t.text.toList)

/-- Digits with a period, and none before the point, or more after it than a 32-bit word can count. -/
def IsUnreadable (cs : List Char) : Prop :=
  ∃ r : Recurring, r.IsPeriodic ∧ r.Spells cs ∧ (r.whole = [] ∨ ¬ r.Fits)

/-! ## What the numbers of a text spell -/

/-- An ASCII piece with a sign and digits before it is a plain numeral, or it has a period. -/
theorem NumeralPiece.plain_or_spells {n ds : List Char} (h : NumeralPiece n) (hascii : ∀ c ∈ n, c.toNat < 128)
    (hds : Digits ds) (negative : Bool) :
    (∃ whole fraction, Digits whole ∧ Digits fraction ∧ (whole ≠ [] ∨ fraction ≠ []) ∧
        (if negative then ['-'] else []) ++ (ds ++ n) = plainChars negative whole fraction) ∨
      ∃ r : Recurring, r.IsPeriodic ∧ r.Spells ((if negative then ['-'] else []) ++ (ds ++ n)) := by
  cases h with
  | whole hd hne =>
    have hd' := digits_of_ascii hascii (fun c hc => hc) hd
    refine .inl ⟨ds ++ n, [], List.forall_mem_append.mpr ⟨hds, hd'⟩, by simp [Digits], .inl (by simp [hne]), ?_⟩
    simp [plainChars]
  | @fraction fs mark hf hne hmark =>
    have hf' := digits_of_ascii hascii (by simp) hf
    obtain rfl | rfl := hmark
    · refine .inl ⟨ds, fs, hds, hf', .inr hne, ?_⟩
      simp [plainChars, hne]
    · exact .inr (Recurring.exists_spells_mark negative hds hf' hne)
  | @lastDigit ws fs hw _ hf hne =>
    have hw' := digits_of_ascii hascii (by simp) hw
    have hf' := digits_of_ascii hascii (by intro c hc; simp [hc]) hf
    have hwhole : Digits (ds ++ ws) := List.forall_mem_append.mpr ⟨hds, hw'⟩
    rw [← List.append_assoc ds]
    exact .inr (Recurring.exists_spells_mark negative hwhole hf' hne)
  | @period ws fs ps mark l r hw hf hp hne hb hmark =>
    have hw' := digits_of_ascii hascii (by simp) hw
    have hf' := digits_of_ascii hascii (by intro c hc; simp [hc]) hf
    have hp' := digits_of_ascii hascii (by intro c hc; simp [hc]) hp
    have hwhole : Digits (ds ++ ws) := List.forall_mem_append.mpr ⟨hds, hw'⟩
    rw [← List.append_assoc ds]
    exact .inr ⟨⟨negative, ds ++ ws, fs, ps⟩, ⟨hwhole, hf', hp', hne⟩, .enclosed hb hmark⟩

/-- A number of an ASCII text is a plain numeral, or it has a period. -/
theorem IsScanned.isNumericText_or_spells {t : Token} (h : t.IsScanned) (hk : t.kind = .numeric)
    (hascii : ∀ c ∈ t.text.toList, c.toNat < 128) :
    isNumericText t.numberText = true ∨ ∃ r : Recurring, r.IsPeriodic ∧ r.Spells t.numberText.toList := by
  obtain ⟨negative, w, hw, htext⟩ := h.exists_dropBlanks hk
  obtain ⟨ds, n, hds, hn, hdrop⟩ := hw.exists_dropBlanks
  rw [hdrop] at htext
  have hn' : ∀ c ∈ n, c.toNat < 128 := by
    intro c hc
    have hmem : c ∈ dropBlanks t.text.toList := by simp [htext, hc]
    exact hascii c (List.mem_of_mem_filter hmem)
  have hchars : t.numberText.toList = (if negative then ['-'] else []) ++ (ds ++ n) := by
    rw [numberText, String.toList_ofList, htext]
  obtain ⟨whole, fraction, hwhole, hfraction, hne, hplain⟩ | hspells := hn.plain_or_spells hn' hds negative
  · exact .inl (isNumericText_of_plainChars hwhole hfraction hne (hchars.trans hplain))
  · rw [hchars]
    exact .inr hspells

/-! ## Reading -/

theorem create_of_isUnreadable {s : String} (h : IsUnreadable s.toList) :
    Number.create (.text s) = .error (.unsupported s) := by
  obtain ⟨r, hr, hs, hlong⟩ := h
  rw [Number.create, Recurring.ofText_of_isPeriodic hr hs, if_neg]
  rintro ⟨hw, hfits⟩
  exact hlong.elim hw fun hno => hno hfits

theorem IsScanned.exists_create {t : Token} (h : t.IsScanned) (hk : t.kind = .numeric)
    (hascii : ∀ c ∈ t.text.toList, c.toNat < 128) (hread : ¬ IsUnreadable t.numberText.toList) :
    ∃ n, Number.create (.text t.numberText) = .ok n := by
  obtain hnumeric | ⟨r, hr, hs⟩ := h.isNumericText_or_spells hk hascii
  · obtain hn | hn := Number.ofText_of_isNumericText hnumeric
    · exact ⟨_, hn⟩
    · exact ⟨_, hn⟩
  · have hw : r.whole ≠ [] := fun hw => hread ⟨r, hr, hs, .inl hw⟩
    have hfits : r.Fits := by
      by_contra hno
      exact hread ⟨r, hr, hs, .inr hno⟩
    exact ⟨.rational r.sum, by rw [Number.create, Recurring.ofText_of_isPeriodic hr hs, if_pos ⟨hw, hfits⟩]⟩

theorem ascii_of_scan {s : String} {ts : List Token} (hascii : ∀ c ∈ s.toList, c.toNat < 128) (h : scan s = .ok ts)
    {t : Token} (ht : t ∈ ts) : ∀ c ∈ t.text.toList, c.toNat < 128 := by
  obtain ⟨before, after, hs, -⟩ := (liesIn_of_scan h).exists_split t ht
  intro c hc
  exact hascii c (by simp [hs, hc])

end Token

theorem Reduction.exists_numeric_of_unsupported {source x : String} {ts : List Token}
    (h : Expr.ofTokens source ts = .error (.unsupported x)) :
    ∃ t ∈ ts, t.kind = .numeric ∧ Number.ofText t.numberText = .error (.unsupported x) := by
  obtain ⟨s, t, rest, hs, hstep⟩ | ⟨s, -, hend⟩ := exists_of_ofTokens_error h
  · obtain ⟨fault, hparse, -⟩ | ⟨hk, hnumber⟩ | ⟨e, hscan⟩ := step_error_cases hs.coherent hstep
    · cases hparse
    · exact ⟨t, hs.mem, hk, hnumber⟩
    · cases hscan
  · cases finish_error hend

namespace Token

/-- A number of an ASCII text is accepted unless it is digits with a period, and none before the point or too many
after it. Only such a number makes the text be refused as what is no number. -/
theorem create_numberText {s : String} {ts : List Token} (hascii : ∀ c ∈ s.toList, c.toNat < 128)
    (h : scan s = .ok ts) :
    (∀ t ∈ ts, t.kind = .numeric →
      ((∃ n, Number.create (.text t.numberText) = .ok n) ↔ ¬ IsUnreadable t.numberText.toList) ∧
        (IsUnreadable t.numberText.toList →
          Number.create (.text t.numberText) = .error (.unsupported t.numberText))) ∧
      ∀ x, Expr.ofText s = .error (.unsupported x) →
        ∃ t ∈ ts, t.kind = .numeric ∧ x = t.numberText ∧ IsUnreadable x.toList := by
  have hcreate : ∀ t ∈ ts, t.kind = .numeric → ¬ IsUnreadable t.numberText.toList →
      ∃ n, Number.create (.text t.numberText) = .ok n :=
    fun t ht hk => ((scan_spells h).2 t ht).exists_create hk (ascii_of_scan hascii h ht)
  refine ⟨fun t ht hk => ⟨⟨?_, hcreate t ht hk⟩, create_of_isUnreadable⟩, fun x hx => ?_⟩
  · rintro ⟨n, hn⟩ hunreadable
    rw [create_of_isUnreadable hunreadable] at hn
    cases hn
  · have htokens : Expr.ofTokens s ts = .error (.unsupported x) := by
      rw [← hx, Expr.ofText, Expr.tokensOf, h]
      rfl
    obtain ⟨t, ht, hk, hnumber⟩ := Reduction.exists_numeric_of_unsupported htokens
    obtain rfl : x = t.numberText := CalcError.unsupported.inj (Number.eq_of_ofText_error hnumber)
    refine ⟨t, ht, hk, rfl, ?_⟩
    by_contra hread
    obtain ⟨n, hn⟩ := hcreate t ht hk hread
    rw [Number.create, hnumber] at hn
    cases hn

/-- A number of two pieces is accepted, and one that starts with the point of its period is refused. -/
theorem create_numberText_product :
    let ts : List Token := [⟨.numeric, 0, "1 .5r"⟩, ⟨.operation, 6, "x"⟩, ⟨.numeric, 8, "-.[3]"⟩]
    (∀ c ∈ "1 .5r x -.[3]".toList, c.toNat < 128) ∧ scan "1 .5r x -.[3]" = .ok ts ∧
      ¬ IsUnreadable "1.5r".toList ∧ Number.create (.text "-.[3]") = .error (.unsupported "-.[3]") := by
  intro ts
  have hascii : ∀ c ∈ "1 .5r x -.[3]".toList, c.toNat < 128 := by simp
  have hscan : scan "1 .5r x -.[3]" = .ok ts := by cbv
  have hjoinedText : numberText ⟨.numeric, 0, "1 .5r"⟩ = "1.5r" := by cbv
  have hperiodText : numberText ⟨.numeric, 8, "-.[3]"⟩ = "-.[3]" := by cbv
  obtain ⟨hnumbers, -⟩ := create_numberText hascii hscan
  obtain ⟨hjoined, -⟩ := hnumbers ⟨.numeric, 0, "1 .5r"⟩ (by simp [ts]) rfl
  obtain ⟨-, hperiod⟩ := hnumbers ⟨.numeric, 8, "-.[3]"⟩ (by simp [ts]) rfl
  rw [hjoinedText] at hjoined
  rw [hperiodText] at hperiod
  have hunreadable : IsUnreadable "-.[3]".toList := by
    have hperiodic : Recurring.IsPeriodic ⟨true, [], [], ['3']⟩ :=
      ⟨by simp [Digits], by simp [Digits], digits_singleton rfl, by simp⟩
    exact ⟨_, hperiodic, .enclosed (.inr ⟨rfl, rfl⟩) (.inl rfl), .inl rfl⟩
  have hcreate : Number.create (.text "1.5r") = .ok (.rational (14 / 9)) := by cbv
  exact ⟨hascii, hscan, hjoined.mp ⟨_, hcreate⟩, hperiod hunreadable⟩

/-- A number that starts with the point of its period is scanned and refused, and the expression with it. -/
theorem exists_refused_number :
    Expr.ofText ".5(3)" = .error (.unsupported ".5(3)") ∧
      ¬ ∀ (s : String) (ts : List Token), (∀ c ∈ s.toList, c.toNat < 128) → scan s = .ok ts →
        ∀ t ∈ ts, t.kind = .numeric → ∃ n, Number.create (.text t.numberText) = .ok n := by
  have hscan : scan ".5(3)" = .ok [⟨.numeric, 0, ".5(3)"⟩] := by cbv
  have htext : numberText ⟨.numeric, 0, ".5(3)"⟩ = ".5(3)" := by cbv
  have hunreadable : IsUnreadable ".5(3)".toList := by
    have hperiodic : Recurring.IsPeriodic ⟨false, [], ['5'], ['3']⟩ :=
      ⟨by simp [Digits], digits_singleton rfl, digits_singleton rfl, by simp⟩
    exact ⟨_, hperiodic, .enclosed (.inl ⟨rfl, rfl⟩) (.inl rfl), .inl rfl⟩
  have hrefused : Number.ofText (numberText ⟨.numeric, 0, ".5(3)"⟩) = .error (.unsupported ".5(3)") := by
    rw [htext]
    exact create_of_isUnreadable hunreadable
  refine ⟨?_, fun hall => ?_⟩
  · rw [Expr.ofText, Expr.tokensOf, hscan]
    rw [numberText] at hrefused
    simp only [Except.mapError, bind, Except.bind, Expr.ofTokens, Reduction.run, Reduction.step, Reduction.readNumber,
      hrefused]
  · obtain ⟨n, hn⟩ := hall _ _ (by simp) hscan ⟨.numeric, 0, ".5(3)"⟩ (by simp) rfl
    rw [Number.create, hrefused] at hn
    cases hn

end Token

end ExactCalc
