import Mathlib
import ExactCalc.Number.Literal
import ExactCalc.Proofs.Token.Pieces

/-!
# Texts with a period

A number with a period has several spellings: the period stands in parentheses or in brackets, with a final `r`
or without, and if it is one digit a final `r` alone will do (`Recurring.Spells`). The recurring literals are
the spellings with digits before the point (`Recurring.exists_spells_of_isRecurringText`), of whatever script.
Normalizing brings all of them to the one with parentheses and no `r` (`Recurring.normalized_of_spells`), which
has a value if the digits are ASCII digits: `Recurring.recurringValue?_of_spells` and
`Recurring.exists_spells_of_recurringValue?`.
-/

namespace ExactCalc

open Text

/-! ## Signs -/

theorem unsignedPart_signed (negative : Bool) {body : List Char} (h : body.head? ≠ some '-') :
    unsignedPart ((if negative then ['-'] else []) ++ body) = body := by
  cases negative <;> simp [unsignedPart, h]

theorem exists_sign (cs : List Char) :
    ∃ negative : Bool, cs = (if negative then ['-'] else []) ++ unsignedPart cs := by
  by_cases h : cs.head? = some '-'
  · obtain ⟨rest, rfl⟩ := List.head?_eq_some_iff.mp h
    exact ⟨true, by simp [unsignedPart]⟩
  · exact ⟨false, by simp [unsignedPart, h]⟩

theorem ne_of_isDigit {c d : Char} (hc : isDigit c = true) (hd : isDigit d = false) : c ≠ d := by
  rintro rfl
  rw [hc] at hd
  cases hd

namespace Recurring

variable {t : Recurring} {cs : List Char}

/-- The texts of a number with a period. -/
inductive Spells (t : Recurring) : List Char → Prop
  | enclosed {l r : Char} {mark : List Char} : Token.Brackets l r → mark = [] ∨ mark = ['r'] →
      Spells t ((if t.negative then ['-'] else []) ++ (t.whole ++ '.' :: (t.fixed ++ l :: (t.period ++ r :: mark))))
  | lastDigit {d : Char} : t.period = [d] →
      Spells t ((if t.negative then ['-'] else []) ++ (t.whole ++ '.' :: (t.fixed ++ [d, 'r'])))

/-- Digits on both sides of the point or before it only, and a period. -/
structure IsProper (t : Recurring) : Prop where
  whole : Digits t.whole
  whole_ne : t.whole ≠ []
  fixed : Digits t.fixed
  period : Digits t.period
  period_ne : t.period ≠ []

/-- Digits as in a proper number, but of any script. -/
structure IsLoose (t : Recurring) : Prop where
  whole : ∀ c ∈ t.whole, isDigit c = true
  whole_ne : t.whole ≠ []
  fixed : ∀ c ∈ t.fixed, isDigit c = true
  period : ∀ c ∈ t.period, isDigit c = true
  period_ne : t.period ≠ []

theorem IsProper.isLoose (h : t.IsProper) : t.IsLoose :=
  ⟨h.whole.isDigit, h.whole_ne, h.fixed.isDigit, h.period.isDigit, h.period_ne⟩

/-! ## Recognizing -/

theorem isPeriodUntil_eq {ps mark : List Char} {r : Char} (hp : ∀ c ∈ ps, isDigit c = true) (hne : ps ≠ [])
    (hr : isDigit r = false) (hmark : mark = [] ∨ mark = ['r']) : isPeriodUntil r (ps ++ r :: mark) = true := by
  simp only [isPeriodUntil, takeWhile_append_stop hp (head?_cons_stop hr),
    dropWhile_append_stop hp (head?_cons_stop hr)]
  rcases hmark with rfl | rfl <;> simp [hne]

theorem isPeriodUntil_cases {r : Char} {cs : List Char} (h : isPeriodUntil r cs = true) :
    ∃ ps mark, cs = ps ++ r :: mark ∧ (∀ c ∈ ps, isDigit c = true) ∧ ps ≠ [] ∧ (mark = [] ∨ mark = ['r']) := by
  have hsplit := List.takeWhile_append_dropWhile (p := isDigit) (l := cs)
  simp only [isPeriodUntil, Bool.and_eq_true, Bool.or_eq_true, beq_iff_eq, Bool.not_eq_true',
    List.isEmpty_eq_false_iff] at h
  obtain ⟨hne, hmark | hmark⟩ := h
  · exact ⟨_, [], by rw [← hmark, hsplit], fun c hc => List.mem_takeWhile_imp hc, hne, .inl rfl⟩
  · exact ⟨_, ['r'], by rw [← hmark, hsplit], fun c hc => List.mem_takeWhile_imp hc, hne, .inr rfl⟩

theorem exists_spells_of_isRecurringText (h : isRecurringText cs = true) :
    ∃ t : Recurring, t.IsLoose ∧ t.Spells cs := by
  obtain ⟨negative, hsign⟩ := exists_sign cs
  unfold isRecurringText at h
  simp only at h
  generalize unsignedPart cs = body at h hsign
  have hbody := List.takeWhile_append_dropWhile (p := isDigit) (l := body)
  have hwhole : ∀ c ∈ body.takeWhile isDigit, isDigit c = true := fun c hc => List.mem_takeWhile_imp hc
  generalize body.takeWhile isDigit = ws at h hbody hwhole
  split at h
  swap
  · cases h
  rename_i after hafter
  rw [hafter] at hbody
  obtain ⟨hne, h⟩ := (Bool.and_eq_true _ _).mp h
  replace hne : ws ≠ [] := by simpa using hne
  have hrest := List.takeWhile_append_dropWhile (p := isDigit) (l := after)
  have hfixed : ∀ c ∈ after.takeWhile isDigit, isDigit c = true := fun c hc => List.mem_takeWhile_imp hc
  generalize after.takeWhile isDigit = fs at h hrest hfixed
  split at h
  · rename_i hmark
    rw [hmark] at hrest
    -- the last digit before the mark is the period
    obtain ⟨gs, d, rfl⟩ := (List.eq_nil_or_concat fs).resolve_left (by simpa using h)
    simp only [List.concat_eq_append, List.forall_mem_append] at hfixed
    refine ⟨⟨negative, ws, gs, [d]⟩, ⟨hwhole, hne, hfixed.1, hfixed.2, by simp⟩, ?_⟩
    have hspells : Spells ⟨negative, ws, gs, [d]⟩ _ := .lastDigit rfl
    rw [hsign, ← hbody, ← hrest]
    simpa using hspells
  · rename_i rest hopen
    obtain ⟨ps, mark, rfl, hp, hpne, hmark⟩ := isPeriodUntil_cases h
    rw [hsign, ← hbody, ← hrest, hopen]
    exact ⟨⟨negative, ws, fs, ps⟩, ⟨hwhole, hne, hfixed, hp, hpne⟩, .enclosed (.inr ⟨rfl, rfl⟩) hmark⟩
  · rename_i rest hopen
    obtain ⟨ps, mark, rfl, hp, hpne, hmark⟩ := isPeriodUntil_cases h
    rw [hsign, ← hbody, ← hrest, hopen]
    exact ⟨⟨negative, ws, fs, ps⟩, ⟨hwhole, hne, hfixed, hp, hpne⟩, .enclosed (.inl ⟨rfl, rfl⟩) hmark⟩
  · cases h

theorem IsLoose.head?_ne (h : t.IsLoose) (rest : List Char) : (t.whole ++ rest).head? ≠ some '-' := by
  obtain ⟨c, ws, hws⟩ := List.exists_cons_of_ne_nil h.whole_ne
  have hc := h.whole c (by simp [hws])
  simpa [hws] using ne_of_isDigit hc (by decide)

theorem IsLoose.digits_eq (h : t.IsLoose) {l : Char} (hl : isDigit l = false) (rest : List Char) :
    (t.whole ++ '.' :: (t.fixed ++ l :: rest)).takeWhile isDigit = t.whole ∧
      (t.whole ++ '.' :: (t.fixed ++ l :: rest)).dropWhile isDigit = '.' :: (t.fixed ++ l :: rest) ∧
      (t.fixed ++ l :: rest).takeWhile isDigit = t.fixed ∧ (t.fixed ++ l :: rest).dropWhile isDigit = l :: rest := by
  have hpoint : ∀ c ∈ ('.' :: (t.fixed ++ l :: rest)).head?, isDigit c = false := head?_cons_stop (by decide)
  exact ⟨takeWhile_append_stop h.whole hpoint, dropWhile_append_stop h.whole hpoint,
    takeWhile_append_stop h.fixed (head?_cons_stop hl), dropWhile_append_stop h.fixed (head?_cons_stop hl)⟩

/-- The last digit before a mark goes with the digits before it. -/
theorem IsLoose.lastDigit_eq (h : t.IsLoose) {d : Char} (hd : t.period = [d]) :
    (t.whole ++ '.' :: (t.fixed ++ [d, 'r'])).takeWhile isDigit = t.whole ∧
      (t.whole ++ '.' :: (t.fixed ++ [d, 'r'])).dropWhile isDigit = '.' :: (t.fixed ++ [d, 'r']) ∧
      (t.fixed ++ [d, 'r']).takeWhile isDigit = t.fixed ++ [d] ∧ (t.fixed ++ [d, 'r']).dropWhile isDigit = ['r'] := by
  have hfixed : ∀ c ∈ t.fixed ++ [d], isDigit c = true :=
    List.forall_mem_append.mpr ⟨h.fixed, hd ▸ h.period⟩
  have hloose : IsLoose ⟨t.negative, t.whole, t.fixed ++ [d], [d]⟩ :=
    ⟨h.whole, h.whole_ne, hfixed, hd ▸ h.period, by simp⟩
  have hdigits := hloose.digits_eq (show isDigit 'r' = false by decide) []
  simpa only [List.append_assoc, List.cons_append, List.nil_append] using hdigits

theorem isRecurringText_of_spells (h : t.IsLoose) (hs : t.Spells cs) : isRecurringText cs = true := by
  cases hs with
  | @enclosed l r mark hb hmark =>
    have hperiod := isPeriodUntil_eq h.period h.period_ne hb.isDigit_right hmark
    obtain ⟨htake, hdrop, -, hrest⟩ := h.digits_eq hb.isDigit_left (t.period ++ r :: mark)
    simp only [isRecurringText, unsignedPart_signed _ (h.head?_ne _), htake, hdrop, hrest]
    rcases hb with ⟨rfl, rfl⟩ | ⟨rfl, rfl⟩ <;> simp [hperiod, h.whole_ne]
  | lastDigit hd =>
    obtain ⟨htake, hdrop, hfixed, hrest⟩ := h.lastDigit_eq hd
    simp only [isRecurringText, unsignedPart_signed _ (h.head?_ne _), htake, hdrop, hfixed, hrest]
    simp [h.whole_ne]

/-! ## Normalizing -/

def toChars (t : Recurring) : List Char :=
  (if t.negative then ['-'] else []) ++ (t.whole ++ '.' :: (t.fixed ++ '(' :: (t.period ++ [')'])))

theorem dropMark_append (cs : List Char) : dropMark (cs ++ ['r']) = cs := by simp [dropMark]

theorem dropMark_of_ne {c : Char} (h : c ≠ 'r') (cs : List Char) : dropMark (cs ++ [c]) = cs ++ [c] := by
  simp [dropMark, h]

theorem encloseLast_append (cs : List Char) (d : Char) : encloseLast (cs ++ [d]) = cs ++ ['(', d, ')'] := by
  simp [encloseLast]

theorem replaceBrackets_append {cs : List Char} (h : '[' ∉ cs) (rest : List Char) :
    replaceBrackets (cs ++ rest) = cs ++ replaceBrackets rest := by
  induction cs with
  | nil => rfl
  | cons c cs ih =>
    obtain ⟨hc, hcs⟩ := not_or.mp (List.mem_cons.not.mp h)
    rw [List.cons_append, replaceBrackets]
    simp only [ih hcs]
    split <;> simp [Ne.symm hc]

theorem replaceBrackets_period {ps : List Char} (hp : ∀ c ∈ ps, isDigit c = true) (hne : ps ≠ []) :
    replaceBrackets ('[' :: (ps ++ [']'])) = '(' :: (ps ++ [')']) := by
  have hstop : ∀ c ∈ [']'].head?, isDigit c = false := head?_cons_stop (by decide)
  rw [replaceBrackets]
  simp only [takeWhile_append_stop hp hstop, dropWhile_append_stop hp hstop]
  simp [hne]

theorem not_mem_of_isDigit {ds : List Char} (h : ∀ c ∈ ds, isDigit c = true) {c : Char} (hc : isDigit c = false) :
    c ∉ ds := fun hmem => ne_of_isDigit (h c hmem) hc rfl

/-- Normalizing leaves one of the spellings. -/
theorem normalized_of_spells (h : t.IsLoose) (hs : t.Spells cs) : normalized cs = t.toChars := by
  cases hs with
  | @enclosed l r mark hb hmark =>
    have hr : r ≠ 'r' := by rcases hb with ⟨-, rfl⟩ | ⟨-, rfl⟩ <;> decide
    obtain ⟨-, hdrop, -, hrest⟩ := h.digits_eq hb.isDigit_left (t.period ++ r :: mark)
    have hdigit : hasRecurringDigit
        ((if t.negative then ['-'] else []) ++ (t.whole ++ '.' :: (t.fixed ++ l :: (t.period ++ r :: mark)))) =
          false := by
      simp only [hasRecurringDigit, unsignedPart_signed _ (h.head?_ne _), hdrop, hrest]
      rcases hb with ⟨rfl, -⟩ | ⟨rfl, -⟩ <;> simp
    have hunmarked : dropMark
        ((if t.negative then ['-'] else []) ++ (t.whole ++ '.' :: (t.fixed ++ l :: (t.period ++ r :: mark)))) =
          (if t.negative then ['-'] else []) ++ (t.whole ++ '.' :: t.fixed) ++ l :: (t.period ++ [r]) := by
      rcases hmark with rfl | rfl
      · simpa using
          dropMark_of_ne hr ((if t.negative then ['-'] else []) ++ (t.whole ++ '.' :: t.fixed) ++ l :: t.period)
      · simpa using dropMark_append
          ((if t.negative then ['-'] else []) ++ (t.whole ++ '.' :: t.fixed) ++ l :: (t.period ++ [r]))
    have hplain : '[' ∉ (if t.negative then ['-'] else []) ++ (t.whole ++ '.' :: t.fixed) := by
      have hwhole := not_mem_of_isDigit h.whole (show isDigit '[' = false by decide)
      have hfixed := not_mem_of_isDigit h.fixed (show isDigit '[' = false by decide)
      cases t.negative <;> simp [hwhole, hfixed]
    have hperiod := not_mem_of_isDigit h.period (show isDigit '[' = false by decide)
    rw [normalized, hdigit, hunmarked, if_neg Bool.false_ne_true, toChars]
    rcases hb with ⟨rfl, rfl⟩ | ⟨rfl, rfl⟩
    · rw [if_neg (by simpa [hperiod] using hplain)]
      simp
    · rw [if_pos (by simp), replaceBrackets_append hplain, replaceBrackets_period h.period h.period_ne]
      simp
  | @lastDigit d hd =>
    obtain ⟨-, hdrop, hfixed, hrest⟩ := h.lastDigit_eq hd
    have hdigit : hasRecurringDigit
        ((if t.negative then ['-'] else []) ++ (t.whole ++ '.' :: (t.fixed ++ [d, 'r']))) = true := by
      simp only [hasRecurringDigit, unsignedPart_signed _ (h.head?_ne _), hdrop, hfixed, hrest]
      simp
    have hsplit : (if t.negative then ['-'] else []) ++ (t.whole ++ '.' :: (t.fixed ++ [d, 'r'])) =
        (if t.negative then ['-'] else []) ++ (t.whole ++ '.' :: t.fixed) ++ [d] ++ ['r'] := by simp
    rw [normalized, hdigit, if_pos rfl, hsplit, dropMark_append, encloseLast_append, toChars, hd]
    simp

/-! ## Values -/

theorem ofChars?_toChars (h : t.IsProper) : ofChars? t.toChars = some t := by
  have hpoint : ∀ c ∈ ('.' :: (t.fixed ++ '(' :: (t.period ++ [')']))).head?, isAsciiDigit c = false :=
    head?_cons_stop (by decide)
  have hopen : ∀ c ∈ ('(' :: (t.period ++ [')'])).head?, isAsciiDigit c = false := head?_cons_stop (by decide)
  have hclose : ∀ c ∈ [')'].head?, isAsciiDigit c = false := head?_cons_stop (by decide)
  rw [ofChars?, toChars, head?_signed (h.isLoose.head?_ne _), body_signed]
  simp only [takeWhile_append_stop h.whole hpoint, dropWhile_append_stop h.whole hpoint,
    takeWhile_append_stop h.fixed hopen, dropWhile_append_stop h.fixed hopen, takeWhile_append_stop h.period hclose,
    dropWhile_append_stop h.period hclose]
  simp [h.period_ne]

theorem isAsciiDigit_or_mem_of_ofChars? (h : ofChars? cs = some t) :
    ∀ c ∈ cs, isAsciiDigit c = true ∨ c ∈ ['-', '.', '(', ')'] := by
  have hdigits : ∀ ds : List Char, ∀ c ∈ ds.takeWhile isAsciiDigit, isAsciiDigit c = true ∨ c ∈ ['-', '.', '(', ')'] :=
    fun ds c hc => .inl (List.mem_takeWhile_imp hc)
  have hsign : ∀ c ∈ cs, c = '-' ∨ c ∈ if cs.head? == some '-' then cs.tail else cs := by
    cases cs with
    | nil => simp
    | cons c cs => by_cases hc : c = '-' <;> simp +contextual [hc]
  unfold ofChars? at h
  simp only at h
  generalize (if cs.head? == some '-' then cs.tail else cs) = body at h hsign
  suffices hbody : ∀ c ∈ body, isAsciiDigit c = true ∨ c ∈ ['-', '.', '(', ')'] from fun c hc =>
    (hsign c hc).elim (fun h => .inr (by simp [h])) (hbody c)
  rw [← List.takeWhile_append_dropWhile (p := isAsciiDigit) (l := body), List.forall_mem_append]
  refine ⟨hdigits body, ?_⟩
  split at h
  · rename_i hrest
    simp [hrest]
  · rename_i after hafter
    rw [hafter, List.forall_mem_cons, ← List.takeWhile_append_dropWhile (p := isAsciiDigit) (l := after),
      List.forall_mem_append]
    refine ⟨.inr (by simp), hdigits after, ?_⟩
    split at h
    · rename_i hrest
      simp [hrest]
    · rename_i inner hinner
      split_ifs at h with hclose
      rw [Bool.and_eq_true, decide_eq_true_eq] at hclose
      rw [hinner, List.forall_mem_cons, ← List.takeWhile_append_dropWhile (p := isAsciiDigit) (l := inner),
        List.forall_mem_append, hclose.1]
      exact ⟨.inr (by simp), hdigits inner, by simp⟩
    · cases h
  · cases h

theorem IsLoose.isProper_of_toChars (h : t.IsLoose) {r : Recurring} (hr : ofChars? t.toChars = some r) :
    t.IsProper := by
  have hdigit : ∀ c, isDigit c = true → c ∈ t.toChars → isAsciiDigit c = true := by
    intro c hc hmem
    obtain hascii | hmarks := isAsciiDigit_or_mem_of_ofChars? hr c hmem
    · exact hascii
    · have hnone : ∀ d ∈ ['-', '.', '(', ')'], isDigit d = false := by
        simp only [List.forall_mem_cons]
        exact ⟨rfl, rfl, rfl, rfl, by simp⟩
      exact absurd hc (Bool.eq_false_iff.mp (hnone c hmarks))
  exact ⟨fun c hc => hdigit c (h.whole c hc) (by simp [toChars, hc]), h.whole_ne,
    fun c hc => hdigit c (h.fixed c hc) (by simp [toChars, hc]),
    fun c hc => hdigit c (h.period c hc) (by simp [toChars, hc]), h.period_ne⟩

/-- All spellings of a number have its value. -/
theorem recurringValue?_of_spells {s : String} (h : t.IsProper) (hs : t.Spells s.toList) :
    recurringValue? s = t.value? := by
  rw [recurringValue?, if_pos (isRecurringText_of_spells h.isLoose hs), normalized_of_spells h.isLoose hs, ratOfText?,
    String.toList_ofList, ofChars?_toChars h, Option.bind_some]

theorem exists_spells_of_recurringValue? {s : String} {v : Rat} (h : recurringValue? s = some v) :
    ∃ t : Recurring, t.IsProper ∧ t.Spells s.toList := by
  unfold recurringValue? at h
  split_ifs at h with hrecurring
  obtain ⟨t, hloose, hs⟩ := exists_spells_of_isRecurringText hrecurring
  rw [normalized_of_spells hloose hs, ratOfText?, String.toList_ofList] at h
  obtain ⟨r, hr, -⟩ := Option.bind_eq_some_iff.mp h
  exact ⟨t, hloose.isProper_of_toChars hr, hs⟩

end Recurring

end ExactCalc
