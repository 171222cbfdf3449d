import Mathlib
import ExactCalc.Proofs.Token.Cover

/-!
# What follows a numeral

The numeral at the head of a text depends on what stands behind it, but only on a part of it: the same numeral is
found if the text is cut short behind the numeral (`numeral?_of_append`), and white space is as good as the end of
the text (`numeral?_append_blank`). So it is found again if the text behind it is broken off by white space
(`Broken.numeral?_eq`).
-/

namespace ExactCalc.Token

open Text

/-! ## White space as an end -/

section
variable {cs rest w : List Char}

theorem takeWhile_append_blank (cs : List Char) (h : ∀ c ∈ rest.head?, isBlank c = true) :
    (cs ++ rest).takeWhile isDigit = cs.takeWhile isDigit := by
  induction cs with
  | nil =>
    cases rest with
    | nil => rfl
    | cons c rest => simp [isDigit_of_isBlank (h c rfl)]
  | cons c cs ih =>
    rw [List.cons_append, List.takeWhile_cons, List.takeWhile_cons, ih]

theorem dropWhile_append_blank (cs : List Char) (h : ∀ c ∈ rest.head?, isBlank c = true) :
    (cs ++ rest).dropWhile isDigit = cs.dropWhile isDigit ++ rest := by
  induction cs with
  | nil =>
    cases rest with
    | nil => rfl
    | cons c rest => simp [isDigit_of_isBlank (h c rfl)]
  | cons c cs ih =>
    rw [List.cons_append, List.dropWhile_cons, List.dropWhile_cons, ih]
    split_ifs <;> rfl

theorem recurringMark_append_blank (cs : List Char) (h : ∀ c ∈ rest.head?, isBlank c = true) :
    recurringMark (cs ++ rest) = recurringMark cs := by
  cases cs with
  | nil =>
    cases rest with
    | nil => rfl
    | cons c rest => simp [recurringMark, ne_of_isBlank (h c rfl) (show isBlank 'r' = false by decide)]
  | cons c cs => rfl

theorem periodUntil?_append_blank {close : Char} (hclose : isBlank close = false) (cs : List Char)
    (h : ∀ c ∈ rest.head?, isBlank c = true) : periodUntil? close (cs ++ rest) = periodUntil? close cs := by
  unfold periodUntil?
  simp only [takeWhile_append_blank cs h, dropWhile_append_blank cs h]
  cases cs.dropWhile isDigit with
  | nil =>
    cases rest with
    | nil => rfl
    | cons c rest => simp [ne_of_isBlank (h c rfl) hclose]
  | cons c tail => simp [recurringMark_append_blank tail h]

theorem period?_append_blank (cs : List Char) (h : ∀ c ∈ rest.head?, isBlank c = true) :
    period? (cs ++ rest) = period? cs := by
  cases cs with
  | nil =>
    refine period?_eq_none fun c hc => ?_
    have hne := blank_endsNumber (h c hc)
    exact ⟨hne.2.2.2.1, hne.2.2.2.2⟩
  | cons c cs =>
    by_cases hround : c = '('
    · subst hround
      simp [period?, periodUntil?_append_blank (show isBlank ')' = false by decide) cs h]
    · by_cases hsquare : c = '['
      · subst hsquare
        simp [period?, periodUntil?_append_blank (show isBlank ']' = false by decide) cs h]
      · have hne : ∀ tail : List Char, ∀ d ∈ (c :: tail).head?, d ≠ '(' ∧ d ≠ '[' := by
          rintro tail d ⟨⟩
          exact ⟨hround, hsquare⟩
        rw [List.cons_append, period?_eq_none (hne _), period?_eq_none (hne _)]

theorem numeral?_append_blank (cs : List Char) (h : ∀ c ∈ rest.head?, isBlank c = true) :
    numeral? (cs ++ rest) = numeral? cs := by
  unfold numeral?
  simp only [takeWhile_append_blank cs h, dropWhile_append_blank cs h]
  cases cs.dropWhile isDigit with
  | nil =>
    cases rest with
    | nil => rfl
    | cons c rest =>
      have hpoint := ne_of_isBlank (h c rfl) (show isBlank '.' = false by decide)
      simp only [List.nil_append]
      split
      · rename_i heq
        exact absurd (List.cons.inj heq).1 hpoint
      · rfl
  | cons c after =>
    by_cases hc : c = '.'
    · subst hc
      have hmark : ((after.dropWhile isDigit ++ rest).head? = some 'r') =
          ((after.dropWhile isDigit).head? = some 'r') := by
        cases after.dropWhile isDigit with
        | nil =>
          cases rest with
          | nil => rfl
          | cons d rest => simp [ne_of_isBlank (h d rfl) (show isBlank 'r' = false by decide)]
        | cons d tail => rfl
      simp only [List.cons_append, takeWhile_append_blank after h, dropWhile_append_blank after h,
        period?_append_blank _ h, recurringMark_append_blank _ h, hmark]
    · simp [hc]

/-! ## Cutting a text short -/

theorem digits_or_stop (cs : List Char) :
    (∀ c ∈ cs, isDigit c = true) ∨
      ∃ ds c tail, cs = ds ++ c :: tail ∧ (∀ d ∈ ds, isDigit d = true) ∧ isDigit c = false := by
  have hsplit := List.takeWhile_append_dropWhile (p := isDigit) (l := cs)
  cases hdrop : cs.dropWhile isDigit with
  | nil => exact .inl (List.dropWhile_eq_nil_iff.mp hdrop)
  | cons c tail =>
    have hhead := List.head_dropWhile_not isDigit (l := cs) (by simp [hdrop])
    simp only [hdrop, List.head_cons] at hhead
    rw [hdrop] at hsplit
    exact .inr ⟨_, c, tail, hsplit.symm, fun d hd => List.mem_takeWhile_imp hd, hhead⟩

theorem digits_stop {ds : List Char} {c : Char} (hds : ∀ d ∈ ds, isDigit d = true) (hc : isDigit c = false)
    (tail : List Char) :
    (ds ++ c :: tail).takeWhile isDigit = ds ∧ (ds ++ c :: tail).dropWhile isDigit = c :: tail := by
  have hstop : ∀ d ∈ (c :: tail).head?, isDigit d = false := by
    rintro d ⟨⟩
    exact hc
  exact ⟨takeWhile_append_stop hds hstop, dropWhile_append_stop hds hstop⟩

theorem recurringMark_of_append (h : recurringMark (cs ++ rest) <+: cs) :
    recurringMark cs = recurringMark (cs ++ rest) := by
  cases cs with
  | nil =>
    rw [List.prefix_nil.mp h]
    rfl
  | cons c cs => rfl

section
variable {close : Char}

theorem periodUntil?_of_append (hclose : isDigit close = false) (h : periodUntil? close (cs ++ rest) = some w)
    (hw : w <+: cs) : periodUntil? close cs = some w := by
  obtain hcs | ⟨ds, c, tail, rfl, hds, hc⟩ := digits_or_stop cs
  · -- the bracket at the end of the period is cut off
    obtain ⟨ps, mark, -, -, rfl, -⟩ := periodUntil?_cases h
    have hdigit := hcs close (hw.subset (by simp))
    rw [hclose] at hdigit
    simp at hdigit
  · rw [List.append_assoc, List.cons_append] at h
    unfold periodUntil? at h ⊢
    simp only [digits_stop hds hc] at h ⊢
    split_ifs at h ⊢ with hif
    obtain rfl := Option.some.inj h
    simp only [Bool.and_eq_true, decide_eq_true_eq] at hif
    rw [hif.1, List.prefix_append_right_inj, List.prefix_cons_inj] at hw
    rw [recurringMark_of_append hw]

theorem periodUntil?_eq_none_of_append (h : periodUntil? close (cs ++ rest) = none) : periodUntil? close cs = none := by
  obtain hcs | ⟨ds, c, tail, rfl, hds, hc⟩ := digits_or_stop cs
  · simp [periodUntil?, List.dropWhile_eq_nil_iff.mpr hcs]
  · rw [List.append_assoc, List.cons_append] at h
    unfold periodUntil? at h ⊢
    simp only [digits_stop hds hc] at h ⊢
    split_ifs at h ⊢
    rfl

end

theorem period?_of_append (h : period? (cs ++ rest) = some w) (hw : w <+: cs) : period? cs = some w := by
  cases cs with
  | nil =>
    obtain ⟨l, r, ps, mark, -, -, rfl, -⟩ := period?_cases h
    exact absurd (List.prefix_nil.mp hw) (by simp)
  | cons c cs =>
    rw [List.cons_append] at h
    by_cases hround : c = '('
    · subst hround
      obtain ⟨m, hm, rfl⟩ := Option.map_eq_some_iff.mp h
      have hcut := periodUntil?_of_append (by decide) hm (List.prefix_cons_inj _ |>.mp hw)
      simp [period?, hcut]
    · by_cases hsquare : c = '['
      · subst hsquare
        obtain ⟨m, hm, rfl⟩ := Option.map_eq_some_iff.mp h
        have hcut := periodUntil?_of_append (by decide) hm (List.prefix_cons_inj _ |>.mp hw)
        simp [period?, hcut]
      · rw [period?_eq_none (by rintro d ⟨⟩; exact ⟨hround, hsquare⟩)] at h
        simp at h

theorem period?_eq_none_of_append (h : period? (cs ++ rest) = none) : period? cs = none := by
  cases cs with
  | nil => rfl
  | cons c cs =>
    rw [List.cons_append] at h
    by_cases hround : c = '('
    · subst hround
      simpa [period?] using periodUntil?_eq_none_of_append (Option.map_eq_none_iff.mp h)
    · by_cases hsquare : c = '['
      · subst hsquare
        simpa [period?] using periodUntil?_eq_none_of_append (Option.map_eq_none_iff.mp h)
      · exact period?_eq_none (by rintro d ⟨⟩; exact ⟨hround, hsquare⟩)

theorem eq_takeWhile_of_numeral? (h : numeral? cs = some w) (hw : ∀ c ∈ w, isDigit c = true) :
    w = cs.takeWhile isDigit ∧ cs.takeWhile isDigit ≠ [] := by
  have hpoint : '.' ∉ w := fun hmem => absurd (hw '.' hmem) (by decide)
  unfold numeral? at h
  simp only at h
  split at h
  · split at h
    · obtain rfl := Option.some.inj h
      simp at hpoint
    · split_ifs at h with hempty hfempty hmark
      · obtain rfl := Option.some.inj h
        simp at hpoint
      · obtain rfl := Option.some.inj h
        simp at hpoint
      · exact ⟨(Option.some.inj h).symm, by simpa using hempty⟩
  · split_ifs at h with hempty
    exact ⟨(Option.some.inj h).symm, by simpa using hempty⟩

theorem numeral?_of_append_digits (hcs : ∀ c ∈ cs, isDigit c = true) (h : numeral? (cs ++ rest) = some w)
    (hw : w <+: cs) : numeral? cs = some w := by
  obtain ⟨heq, hne⟩ := eq_takeWhile_of_numeral? h fun c hc => hcs c (hw.subset hc)
  rw [List.takeWhile_append_of_pos hcs] at heq hne
  rw [heq] at hw
  obtain rfl : w = cs := by
    rw [heq]
    exact hw.eq_of_length_le (by simp)
  have hnil : w.isEmpty = false := by
    rw [List.isEmpty_eq_false_iff]
    rintro rfl
    exact hne (by simpa using heq.symm)
  simp [numeral?, List.takeWhile_eq_self_iff.mpr hcs, List.dropWhile_eq_nil_iff.mpr hcs, hnil]

theorem numeral?_of_append_point {ds fs : List Char} (hds : ∀ c ∈ ds, isDigit c = true)
    (hfs : ∀ c ∈ fs, isDigit c = true) (h : numeral? (ds ++ '.' :: (fs ++ rest)) = some w)
    (hw : w <+: ds ++ '.' :: fs) : numeral? (ds ++ '.' :: fs) = some w := by
  have hpoint : isDigit '.' = false := by decide
  have hchars : ∀ c ∈ w, isDigit c = true ∨ c = '.' := by
    intro c hc
    have hmem := hw.subset hc
    rw [List.mem_append, List.mem_cons] at hmem
    exact hmem.elim (fun hd => .inl (hds c hd)) fun hmem => hmem.elim .inr fun hf => .inl (hfs c hf)
  have hfixed : (fs ++ rest).takeWhile isDigit = fs ++ rest.takeWhile isDigit := List.takeWhile_append_of_pos hfs
  have hcut : numeral? (ds ++ '.' :: fs) =
      if ds.isEmpty then if fs.isEmpty then none else some ('.' :: fs) else some ds := by
    unfold numeral?
    simp only [digits_stop hds hpoint, List.takeWhile_eq_self_iff.mpr hfs, List.dropWhile_eq_nil_iff.mpr hfs]
    simp [period?, recurringMark]
  unfold numeral? at h
  simp only [digits_stop hds hpoint, hfixed] at h
  rw [hcut]
  split at h
  · -- the brackets of a period are cut off
    rename_i period hperiod
    obtain rfl := Option.some.inj h
    obtain ⟨l, r, ps, mark, -, -, rfl, hb, -⟩ := period?_cases hperiod
    have hl := hchars l (by simp)
    rcases hb with ⟨rfl, -⟩ | ⟨rfl, -⟩ <;> exact absurd hl (by decide)
  · split_ifs at h with hempty hfempty hmark
    · -- no digits of the fraction and no mark are cut off
      obtain rfl := Option.some.inj h
      obtain rfl := List.isEmpty_iff.mp hempty
      rw [List.nil_append, List.prefix_cons_inj, List.append_assoc] at hw
      have hnil := List.append_eq_nil_iff.mp (List.append_right_eq_self.mp (hw.eq_of_length_le (by simp)))
      rw [hnil.1, List.append_nil] at hfempty
      simp [hfempty, hnil]
    · -- the mark is cut off
      obtain rfl := Option.some.inj h
      exact absurd (hchars 'r' (by simp)) (by decide)
    · rw [if_neg hempty, h]

theorem numeral?_of_append (h : numeral? (cs ++ rest) = some w) (hw : w <+: cs) : numeral? cs = some w := by
  obtain hcs | ⟨ds, c, after, rfl, hds, hc⟩ := digits_or_stop cs
  · exact numeral?_of_append_digits hcs h hw
  rw [List.append_assoc, List.cons_append] at h
  by_cases hpoint : c = '.'
  swap
  · unfold numeral? at h ⊢
    simp only [digits_stop hds hc] at h ⊢
    simpa [hpoint] using h
  subst hpoint
  obtain hafter | ⟨fs, d, tail, rfl, hfs, hd⟩ := digits_or_stop after
  · exact numeral?_of_append_point hds hafter h hw
  rw [List.append_assoc, List.cons_append] at h
  unfold numeral? at h ⊢
  simp only [digits_stop hds hc, digits_stop hfs hd] at h ⊢
  cases hperiod : period? (d :: (tail ++ rest)) with
  | some period =>
    simp only [hperiod] at h
    obtain rfl := Option.some.inj h
    rw [List.prefix_append_right_inj, List.prefix_cons_inj, List.prefix_append_right_inj] at hw
    simp [period?_of_append hperiod hw]
  | none =>
    simp only [hperiod] at h
    have hcut : period? (d :: tail) = none := by
      rw [← List.cons_append] at hperiod
      exact period?_eq_none_of_append hperiod
    simp only [hcut]
    exact h

/-! ## Breaking a text off -/

/-- A text that is cut short, with nothing or white space behind it. -/
def Broken (rest rest' : List Char) : Prop :=
  ∃ head tail, rest' = head ++ tail ∧ head <+: rest ∧ ∀ c ∈ tail.head?, isBlank c = true

theorem Broken.append {rest rest' : List Char} (h : Broken rest rest') (cs : List Char) :
    Broken (cs ++ rest) (cs ++ rest') := by
  obtain ⟨head, tail, rfl, hhead, htail⟩ := h
  exact ⟨cs ++ head, tail, by simp, List.prefix_append_right_inj cs |>.mpr hhead, htail⟩

theorem broken_of_blank {rest' : List Char} (h : ∀ c ∈ rest'.head?, isBlank c = true) (rest : List Char) :
    Broken rest rest' :=
  ⟨[], rest', rfl, List.nil_prefix, h⟩

/-- The numeral at the head is found again if the text behind it is broken off. -/
theorem Broken.numeral?_eq {rest' : List Char} (hb : Broken rest rest') (h : numeral? (w ++ rest) = some w) :
    numeral? (w ++ rest') = some w := by
  obtain ⟨head, tail, rfl, ⟨more, rfl⟩, htail⟩ := hb
  rw [← List.append_assoc] at h
  rw [← List.append_assoc, numeral?_append_blank _ htail]
  exact numeral?_of_append h (List.prefix_append w head)

end

end ExactCalc.Token
