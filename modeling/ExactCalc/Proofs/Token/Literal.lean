import Mathlib
import ExactCalc.Proofs.Formula
import ExactCalc.Proofs.Number.RecurringText
import ExactCalc.Proofs.Token.Retouch

/-!
# The pieces of a literal

A literal is an unsigned number, with a minus sign before it or not (`exists_unsigned_of_ofText`). The
scanner cuts an unsigned number into one piece, or into two if it is a plain decimal with digits before
the point; `Unsigned` lists the shapes with their pieces, and `pieces_unsigned` says that these are cut out of
any text in which nothing goes on with the number (`EndsNumber`).
-/

namespace ExactCalc

open Text

namespace Token

/-! ## Numerals -/

/-- The text after a number does not go on with it. -/
def EndsNumber (rest : List Char) : Prop :=
  ∀ c ∈ rest.head?, isDigit c = false ∧ c ≠ '.' ∧ c ≠ 'r' ∧ c ≠ '(' ∧ c ≠ '['

theorem EndsNumber.not_digit {rest : List Char} (h : EndsNumber rest) : ∀ c ∈ rest.head?, isDigit c = false :=
  fun c hc => (h c hc).1

theorem EndsNumber.recurringMark_eq {rest : List Char} (h : EndsNumber rest) : recurringMark rest = [] := by
  have hne : rest.head? ≠ some 'r' := fun hr => (h 'r' hr).2.2.1 rfl
  simp [recurringMark, hne]

theorem period?_eq_none {cs : List Char} (h : ∀ c ∈ cs.head?, c ≠ '(' ∧ c ≠ '[') : period? cs = none := by
  unfold period?
  split
  · exact absurd rfl (h '(' rfl).1
  · exact absurd rfl (h '[' rfl).2
  · rfl

theorem EndsNumber.period?_eq {rest : List Char} (h : EndsNumber rest) : period? rest = none :=
  period?_eq_none fun c hc => ⟨(h c hc).2.2.2.1, (h c hc).2.2.2.2⟩

/-- A number without a sign, and the pieces that it is cut into. -/
inductive Unsigned : List Char → List (List Char) → Prop
  | whole {ds : List Char} : (∀ c ∈ ds, isDigit c = true) → ds ≠ [] → Unsigned ds [ds]
  | fraction {fs : List Char} : (∀ c ∈ fs, isDigit c = true) → fs ≠ [] → Unsigned ('.' :: fs) ['.' :: fs]
  | decimal {ds fs : List Char} : Digits ds → ds ≠ [] → (∀ c ∈ fs, isDigit c = true) → fs ≠ [] →
      Unsigned (ds ++ '.' :: fs) [ds, '.' :: fs]
  | lastDigit {ds fs : List Char} : Digits ds → ds ≠ [] → Digits fs → fs ≠ [] →
      Unsigned (ds ++ '.' :: (fs ++ ['r'])) [ds ++ '.' :: (fs ++ ['r'])]
  | period {ds fs ps mark : List Char} {l r : Char} : Digits ds → ds ≠ [] → Digits fs → Digits ps → ps ≠ [] →
      Brackets l r → mark = [] ∨ mark = ['r'] →
      Unsigned (ds ++ '.' :: (fs ++ l :: (ps ++ r :: mark))) [ds ++ '.' :: (fs ++ l :: (ps ++ r :: mark))]

section
variable {ds fs ps rest : List Char}

theorem numeral?_whole (hd : ∀ c ∈ ds, isDigit c = true) (hne : ds ≠ []) (hr : EndsNumber rest) :
    numeral? (ds ++ rest) = some ds := by
  have hne' : ds.isEmpty = false := by simpa using hne
  unfold numeral?
  simp only [takeWhile_append_stop hd hr.not_digit, dropWhile_append_stop hd hr.not_digit]
  split
  · exact absurd rfl (hr '.' rfl).2.1
  · simp [hne']

theorem not_digit_point (cs : List Char) : ∀ c ∈ ('.' :: cs).head?, isDigit c = false :=
  head?_cons_stop (by decide)

theorem numeral?_fraction (hf : ∀ c ∈ fs, isDigit c = true) (hne : fs ≠ []) (hr : EndsNumber rest) :
    numeral? ('.' :: (fs ++ rest)) = some ('.' :: fs) := by
  have hne' : fs.isEmpty = false := by simpa using hne
  have hpoint : isDigit '.' = false := by decide
  unfold numeral?
  simp [hpoint, takeWhile_append_stop hf hr.not_digit, dropWhile_append_stop hf hr.not_digit,
    hr.period?_eq, hr.recurringMark_eq, hne']

theorem numeral?_decimal (hd : Digits ds) (hne : ds ≠ []) (hf : ∀ c ∈ fs, isDigit c = true) (hr : EndsNumber rest) :
    numeral? (ds ++ '.' :: (fs ++ rest)) = some ds := by
  have hne' : ds.isEmpty = false := by simpa using hne
  have hmark : rest.head? ≠ some 'r' := fun h => (hr 'r' h).2.2.1 rfl
  unfold numeral?
  simp only [takeWhile_append_stop hd.isDigit (not_digit_point _),
    dropWhile_append_stop hd.isDigit (not_digit_point _), takeWhile_append_stop hf hr.not_digit,
    dropWhile_append_stop hf hr.not_digit, hr.period?_eq]
  simp [hne', hmark]

theorem numeral?_lastDigit (hd : Digits ds) (hne : ds ≠ []) (hf : Digits fs) (hfne : fs ≠ []) :
    numeral? (ds ++ '.' :: (fs ++ 'r' :: rest)) = some (ds ++ '.' :: (fs ++ ['r'])) := by
  have hne' : ds.isEmpty = false := by simpa using hne
  have hfne' : fs.isEmpty = false := by simpa using hfne
  have hmark : ∀ c ∈ ('r' :: rest).head?, isDigit c = false := head?_cons_stop (by decide)
  have hperiod : period? ('r' :: rest) = none := rfl
  unfold numeral?
  simp only [takeWhile_append_stop hd.isDigit (not_digit_point _),
    dropWhile_append_stop hd.isDigit (not_digit_point _), takeWhile_append_stop hf.isDigit hmark,
    dropWhile_append_stop hf.isDigit hmark, hperiod]
  simp [hne', hfne']

theorem periodUntil?_eq {mark : List Char} {r : Char} (hp : Digits ps) (hne : ps ≠ [])
    (hclose : isDigit r = false) (hmark : recurringMark (mark ++ rest) = mark) :
    periodUntil? r (ps ++ r :: (mark ++ rest)) = some (ps ++ r :: mark) := by
  have hne' : ps.isEmpty = false := by simpa using hne
  unfold periodUntil?
  simp [takeWhile_append_stop hp.isDigit (head?_cons_stop hclose),
    dropWhile_append_stop hp.isDigit (head?_cons_stop hclose), hne', hmark]

theorem numeral?_period {mark : List Char} {l r : Char} (hd : Digits ds) (hf : Digits fs)
    (hp : Digits ps) (hpne : ps ≠ []) (hb : Brackets l r) (hm : mark = [] ∨ mark = ['r']) (hr : EndsNumber rest) :
    numeral? (ds ++ '.' :: (fs ++ l :: (ps ++ r :: (mark ++ rest)))) =
      some (ds ++ '.' :: (fs ++ l :: (ps ++ r :: mark))) := by
  have hmark : recurringMark (mark ++ rest) = mark := by
    rcases hm with rfl | rfl
    · exact hr.recurringMark_eq
    · rfl
  have hstop : ∀ c ∈ (l :: (ps ++ r :: (mark ++ rest))).head?, isDigit c = false := head?_cons_stop hb.isDigit_left
  have hperiod : period? (l :: (ps ++ r :: (mark ++ rest))) = some (l :: (ps ++ r :: mark)) := by
    have hround : isDigit ')' = false := by decide
    have hsquare : isDigit ']' = false := by decide
    rcases hb with ⟨rfl, rfl⟩ | ⟨rfl, rfl⟩
    · simp [period?, periodUntil?_eq hp hpne hround hmark]
    · simp [period?, periodUntil?_eq hp hpne hsquare hmark]
  unfold numeral?
  simp only [takeWhile_append_stop hd.isDigit (not_digit_point _),
    dropWhile_append_stop hd.isDigit (not_digit_point _), takeWhile_append_stop hf.isDigit hstop,
    dropWhile_append_stop hf.isDigit hstop, hperiod]

end

/-! ## Pieces -/

theorem pieces_numeral {pos : Nat} {n rest : List Char} (hn : numeral? (n ++ rest) = some n)
    (hhead : ∃ c cs, n = c :: cs ∧ isBlank c = false) :
    pieces pos (n ++ rest) = ⟨.numeric, pos, String.ofList n⟩ :: pieces (pos + byteLength n) rest := by
  obtain ⟨c, cs, rfl, hc⟩ := hhead
  rw [List.cons_append] at hn ⊢
  rw [pieces]
  simp [hc, hn]

theorem exists_head_digits {ds : List Char} (cs : List Char) (hd : ∀ c ∈ ds, isDigit c = true) (hne : ds ≠ []) :
    ∃ c rest, ds ++ cs = c :: rest ∧ isBlank c = false := by
  obtain ⟨d, ds, rfl⟩ := List.exists_cons_of_ne_nil hne
  exact ⟨d, ds ++ cs, rfl, isBlank_eq_false_of_isDigit (hd d (by simp))⟩

theorem pieces_unsigned {w : List Char} {ps : List (List Char)} (h : Unsigned w ps) (pos : Nat)
    {rest : List Char} (hr : EndsNumber rest) :
    pieces pos (w ++ rest) = laid pos (ps.map (.numeric, ·)) ++ pieces (pos + byteLength w) rest := by
  cases h with
  | whole hd hne =>
    rw [pieces_numeral (numeral?_whole hd hne hr) (by simpa using exists_head_digits [] hd hne)]
    rfl
  | fraction hf hne =>
    rw [pieces_numeral (by simpa using numeral?_fraction hf hne hr) ⟨'.', _, rfl, by decide⟩]
    rfl
  | @decimal ds fs hd hne hf hfne =>
    have hfirst : numeral? (ds ++ ('.' :: fs ++ rest)) = some ds := numeral?_decimal hd hne hf hr
    have hsecond : numeral? ('.' :: fs ++ rest) = some ('.' :: fs) := numeral?_fraction hf hfne hr
    rw [List.append_assoc, pieces_numeral hfirst (by simpa using exists_head_digits [] hd.isDigit hne),
      pieces_numeral hsecond ⟨'.', _, rfl, by decide⟩]
    simp [laid, byteLength_append, Nat.add_assoc]
  | lastDigit hd hne hf hfne =>
    rw [pieces_numeral (by simpa using numeral?_lastDigit hd hne hf hfne) (exists_head_digits _ hd.isDigit hne)]
    rfl
  | period hd hne hf hp hpne hb hm =>
    rw [pieces_numeral (by simpa using numeral?_period hd hf hp hpne hb hm hr)
      (exists_head_digits _ hd.isDigit hne)]
    rfl

/-! ## Literals -/

theorem isPlainNumeral_cases {most : Option Nat} {cs : List Char} (h : isPlainNumeral most cs = true) :
    (cs ≠ [] ∧ ∀ c ∈ cs, isDigit c = true) ∨
      ∃ ds fs, cs = ds ++ '.' :: fs ∧ (∀ c ∈ ds, isDigit c = true) ∧ fs ≠ [] ∧ ∀ c ∈ fs, isDigit c = true := by
  have hsplit := List.takeWhile_append_dropWhile (p := isDigit) (l := cs)
  have hwhole : ∀ c ∈ cs.takeWhile isDigit, isDigit c = true := fun c hc => List.mem_takeWhile_imp hc
  unfold isPlainNumeral at h
  split at h
  · rename_i hrest
    rw [hrest, List.append_nil] at hsplit
    rw [hsplit] at h hwhole
    exact .inl ⟨by simpa using h, hwhole⟩
  · rename_i fs hrest
    simp only [Bool.and_eq_true, List.all_eq_true, Bool.not_eq_true', List.isEmpty_eq_false_iff] at h
    exact .inr ⟨_, fs, by rw [← hrest, hsplit], hwhole, h.1.1, h.1.2⟩
  · simp at h

theorem exists_unsigned_of_isPlainNumeral {most : Option Nat} {cs : List Char}
    (hascii : ∀ c ∈ cs, c.toNat < 128) (h : isPlainNumeral most cs = true) : ∃ ps, Unsigned cs ps := by
  obtain ⟨hne, hd⟩ | ⟨ds, fs, rfl, hd, hfne, hf⟩ := isPlainNumeral_cases h
  · exact ⟨_, .whole hd hne⟩
  · have hds : Digits ds := digits_of_ascii hascii (by simp) hd
    by_cases hne : ds = []
    · subst hne
      exact ⟨_, .fraction hf hfne⟩
    · exact ⟨_, .decimal hds hne hf hfne⟩

theorem exists_unsigned_of_recurringValue? {s : String} {v : Rat} (h : recurringValue? s = some v) :
    ∃ w ps, Unsigned w ps ∧ (s.toList = w ∨ s.toList = '-' :: w) := by
  obtain ⟨t, ht, hs⟩ := Recurring.exists_spells_of_recurringValue? h
  have hsign : ∀ w : List Char, (if t.negative then ['-'] else []) ++ w = w ∨
      (if t.negative then ['-'] else []) ++ w = '-' :: w := fun w => by cases t.negative <;> simp
  generalize s.toList = cs at hs ⊢
  cases hs with
  | enclosed hb hmark =>
    exact ⟨_, _, .period ht.whole ht.whole_ne ht.fixed ht.period ht.period_ne hb hmark, hsign _⟩
  | @lastDigit d hd =>
    have hfixed : Digits (t.fixed ++ [d]) := List.forall_mem_append.mpr ⟨ht.fixed, hd ▸ ht.period⟩
    have hw := Unsigned.lastDigit ht.whole ht.whole_ne hfixed (by simp)
    rw [List.append_assoc] at hw
    exact ⟨_, _, hw, hsign _⟩

theorem scan_empty : scan "" = .error .noTokens := by cbv

/-- An ASCII text that is a number is an unsigned number, or a minus sign and one. -/
theorem exists_unsigned_of_ofText {s : String} {n : Number} (hascii : ∀ c ∈ s.toList, c.toNat < 128) (hne : s ≠ "")
    (hn : Number.ofText s = .ok n) : ∃ w ps, Unsigned w ps ∧ (s.toList = w ∨ s.toList = '-' :: w) := by
  have hempty : s.isEmpty = false := by simpa using hne
  unfold Number.ofText at hn
  rw [hempty] at hn
  simp only [Bool.false_eq_true, if_false] at hn
  split_ifs at hn with hamount hnumeric
  · obtain ⟨ps, hps⟩ := exists_unsigned_of_isPlainNumeral hascii hamount
    exact ⟨_, ps, hps, .inl rfl⟩
  · simp only [isNumericText, hamount, Bool.false_or] at hnumeric
    split at hnumeric
    · rename_i cs hcs
      rw [hcs] at hascii ⊢
      obtain ⟨ps, hps⟩ := exists_unsigned_of_isPlainNumeral (fun c hc => hascii c (by simp [hc])) hnumeric
      exact ⟨cs, ps, hps, .inr rfl⟩
    · obtain ⟨ps, hps⟩ := exists_unsigned_of_isPlainNumeral hascii hnumeric
      exact ⟨_, ps, hps, .inl rfl⟩
  · cases hr : recurringValue? s with
    | none => simp [hr] at hn
    | some r => exact exists_unsigned_of_recurringValue? hr

theorem exists_unsigned_of_isLiteral {s : String} (h : IsLiteral s) :
    ∃ w ps, Unsigned w ps ∧ (s.toList = w ∨ s.toList = '-' :: w) := by
  obtain ⟨hascii, ⟨n, hn⟩, ⟨t, ht⟩⟩ := h
  refine exists_unsigned_of_ofText hascii ?_ hn
  rintro rfl
  rw [scan_empty] at ht
  cases ht

end Token

end ExactCalc
