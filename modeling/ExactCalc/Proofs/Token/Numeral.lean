import Mathlib
import ExactCalc.Proofs.Token.Literal

/-!
# Numbers as tokens

The scanner forgets white space before it joins neighbours, so a number that is one token may have white space
in two places: after its sign, and before its point if there are digits before the point. `IsNumeral` are the
texts that are a number without this white space; a literal is one (`IsLiteral.isNumeral`).

* `Token.Body` is such a number without its sign, with the pieces that it is cut into (`Token.pieces_body`).
* `Token.joinFractions_body`: the pieces are joined to one token again.
-/

namespace ExactCalc

open Text

namespace Token

/-! ## White space as a piece -/

def gapPiece (gap : List Char) : List (TokenKind × List Char) := if gap = [] then [] else [(.blank, gap)]

theorem flatMap_gapPiece (gap : List Char) : (gapPiece gap).flatMap Prod.snd = gap := by
  unfold gapPiece
  split_ifs with h <;> simp [h]

theorem countP_gapPiece {k : TokenKind} (hk : k ≠ .blank) (gap : List Char) :
    (gapPiece gap).countP (·.1 == k) = 0 := by
  unfold gapPiece
  split_ifs
  · rfl
  · simp [hk.symm]

theorem pieces_gap {gap rest : List Char} (hgap : ∀ c ∈ gap, isBlank c = true)
    (hrest : ∀ c ∈ rest.head?, isBlank c = false) (pos : Nat) :
    pieces pos (gap ++ rest) = laid pos (gapPiece gap) ++ pieces (pos + byteLength gap) rest := by
  cases gap with
  | nil => simp [gapPiece, laid, byteLength]
  | cons b gap =>
    have hb : isBlank b = true := hgap b (by simp)
    have hmore : ∀ c ∈ gap, isBlank c = true := fun c hc => hgap c (by simp [hc])
    rw [List.cons_append, pieces]
    simp [hb, gapPiece, laid, takeWhile_append_stop hmore hrest, dropWhile_append_stop hmore hrest]

theorem pieces_symbol {c : Char} {k : TokenKind} (h : symbolKind? c = some k) (pos : Nat) (rest : List Char) :
    pieces pos (c :: rest) = ⟨k, pos, String.ofList [c]⟩ :: pieces (pos + byteLength [c]) rest := by
  obtain ⟨hb, hd, hpoint, -, -⟩ := symbolKind?_eq_some h
  have hnone : numeral? (c :: rest) = none := by
    simp only [numeral?, List.takeWhile_cons, List.dropWhile_cons, hd]
    simp only [Bool.false_eq_true, if_false]
    split
    · rename_i heq
      exact absurd (List.cons.inj heq).1 hpoint
    · rfl
  rw [pieces]
  simp [hb, hnone, h, byteLength]

theorem symbolKind?_operation (op : Operation) : symbolKind? op.symbol = some .operation := by
  cases op <;> rfl

theorem text_eq_ofList (op : Operation) : op.text = String.ofList [op.symbol] := by
  cases op <;> rfl

theorem blank_endsNumber {c : Char} (hc : isBlank c = true) :
    isDigit c = false ∧ c ≠ '.' ∧ c ≠ 'r' ∧ c ≠ '(' ∧ c ≠ '[' := by
  refine ⟨isDigit_of_isBlank hc, ?_, ?_, ?_, ?_⟩ <;> (rintro rfl; revert hc; decide)

/-! ## White space in a number -/

/-- What stands after a point that starts a piece of its own. -/
inductive Fraction : List Char → Prop
  | plain {fs : List Char} : (∀ c ∈ fs, isDigit c = true) → fs ≠ [] → Fraction fs
  | lastDigit {fs : List Char} : Digits fs → fs ≠ [] → Fraction (fs ++ ['r'])
  | period {fs ps mark : List Char} {l r : Char} : Digits fs → Digits ps → ps ≠ [] → Brackets l r →
      mark = [] ∨ mark = ['r'] → Fraction (fs ++ l :: (ps ++ r :: mark))

/-- A number without a sign, with white space before its point or not, and its pieces. -/
inductive Body : List Char → List (TokenKind × List Char) → Prop
  | tight {w : List Char} {ps : List (List Char)} : Unsigned w ps → Body w (ps.map (.numeric, ·))
  | spaced {ds gap tail : List Char} {ps : List (List Char)} : Digits ds → ds ≠ [] → gap ≠ [] →
      (∀ c ∈ gap, isBlank c = true) → Unsigned (ds ++ '.' :: tail) ps →
      Body (ds ++ (gap ++ '.' :: tail)) [(.numeric, ds), (.blank, gap), (.numeric, '.' :: tail)]

theorem digits_point_inj {ds ds' tail tail' : List Char} (hd : ∀ c ∈ ds, isDigit c = true)
    (hd' : ∀ c ∈ ds', isDigit c = true) (h : ds ++ '.' :: tail = ds' ++ '.' :: tail') : ds = ds' ∧ tail = tail' := by
  obtain ⟨rfl, htail⟩ := append_inj_of_stop hd hd' (not_digit_point _) (not_digit_point _) h
  exact ⟨rfl, (List.cons.inj htail).2⟩

theorem Unsigned.fraction_of_point {ds tail : List Char} {ps : List (List Char)}
    (h : Unsigned (ds ++ '.' :: tail) ps) (hd : Digits ds) : Fraction tail := by
  generalize hw : ds ++ '.' :: tail = w at h
  cases h with
  | whole hw' hne =>
    have hpoint : isDigit '.' = true := hw' '.' (by rw [← hw]; simp)
    exact absurd hpoint (by decide)
  | @fraction fs hf hne =>
    have hnil : ∀ c ∈ ([] : List Char), isDigit c = true := by simp
    obtain ⟨-, rfl⟩ := digits_point_inj hd.isDigit hnil hw
    exact .plain hf hne
  | decimal hd' _ hf hne =>
    obtain ⟨-, rfl⟩ := digits_point_inj hd.isDigit hd'.isDigit hw
    exact .plain hf hne
  | lastDigit hd' _ hf hne =>
    obtain ⟨-, rfl⟩ := digits_point_inj hd.isDigit hd'.isDigit hw
    exact .lastDigit hf hne
  | period hd' _ hf hp hpne hb hm =>
    obtain ⟨-, rfl⟩ := digits_point_inj hd.isDigit hd'.isDigit hw
    exact .period hf hp hpne hb hm

theorem numeral?_fractionMark {fs rest : List Char} (hf : Digits fs) (hne : fs ≠ []) :
    numeral? ('.' :: (fs ++ 'r' :: rest)) = some ('.' :: (fs ++ ['r'])) := by
  have hne' : fs.isEmpty = false := by simpa using hne
  have hpoint : isDigit '.' = false := by decide
  have hstop : ∀ c ∈ ('r' :: rest).head?, isDigit c = false := head?_cons_stop (by decide)
  have hperiod : period? ('r' :: rest) = none := rfl
  have hmark : recurringMark ('r' :: rest) = ['r'] := rfl
  unfold numeral?
  simp [hpoint, takeWhile_append_stop hf.isDigit hstop, dropWhile_append_stop hf.isDigit hstop, hperiod, hmark, hne']

theorem Fraction.numeral?_eq {tail rest : List Char} (h : Fraction tail) (hr : EndsNumber rest) :
    numeral? ('.' :: tail ++ rest) = some ('.' :: tail) := by
  have hnil : Digits [] := by
    intro c hc
    simp at hc
  cases h with
  | plain hf hne => exact numeral?_fraction hf hne hr
  | @lastDigit fs hf hne =>
    have hmark : numeral? ('.' :: (fs ++ 'r' :: rest)) = some ('.' :: (fs ++ ['r'])) := numeral?_fractionMark hf hne
    simpa using hmark
  | period hf hp hpne hb hm => simpa using numeral?_period hnil hf hp hpne hb hm hr

theorem pieces_body {w : List Char} {ws : List (TokenKind × List Char)} (h : Body w ws) (pos : Nat)
    {rest : List Char} (hr : EndsNumber rest) :
    pieces pos (w ++ rest) = laid pos ws ++ pieces (pos + byteLength w) rest := by
  cases h with
  | tight hw => exact pieces_unsigned hw pos hr
  | @spaced ds gap tail ps hd hne hgne hgap hw =>
    have hfirst : EndsNumber (gap ++ ('.' :: tail ++ rest)) := by
      obtain ⟨b, gap, rfl⟩ := List.exists_cons_of_ne_nil hgne
      rintro c ⟨⟩
      exact blank_endsNumber (hgap b (by simp))
    have hpoint : ∀ c ∈ ('.' :: tail ++ rest).head?, isBlank c = false := head?_cons_stop (by decide)
    have hone : gapPiece gap = [(.blank, gap)] := if_neg hgne
    have hsecond := (hw.fraction_of_point hd).numeral?_eq hr
    rw [List.append_assoc, List.append_assoc, pieces_numeral (numeral?_whole hd.isDigit hne hfirst)
        (by simpa using exists_head_digits [] hd.isDigit hne), pieces_gap hgap hpoint, hone,
      pieces_numeral hsecond ⟨'.', _, rfl, by decide⟩]
    simp [laid, byteLength_append, Nat.add_assoc]

theorem Body.flatMap_eq {w : List Char} {ws : List (TokenKind × List Char)} (h : Body w ws) :
    ws.flatMap Prod.snd = w := by
  cases h with
  | tight hw => cases hw <;> simp
  | spaced _ _ _ _ _ => simp

theorem Body.countP_eq {w : List Char} {ws : List (TokenKind × List Char)} (h : Body w ws) {k : TokenKind}
    (hk : k = .opening ∨ k = .closing) : ws.countP (·.1 == k) = 0 := by
  rw [List.countP_eq_zero]
  intro v hv
  have hkind : v.1 = .numeric ∨ v.1 = .blank := by
    cases h with
    | tight hw =>
      obtain ⟨p, -, rfl⟩ := List.mem_map.mp hv
      exact .inl rfl
    | spaced _ _ _ _ _ =>
      simp only [List.mem_cons, List.not_mem_nil, or_false] at hv
      obtain rfl | rfl | rfl := hv
      · exact .inl rfl
      · exact .inr rfl
      · exact .inl rfl
  rcases hk with rfl | rfl <;> rcases hkind with h | h <;> simp [h]

theorem Body.exists_head {w : List Char} {ws : List (TokenKind × List Char)} (h : Body w ws) :
    ∃ c rest, w = c :: rest ∧ isBlank c = false := by
  cases h with
  | tight hw =>
    cases hw with
    | whole hd hne => simpa using exists_head_digits [] hd hne
    | fraction _ _ => exact ⟨'.', _, rfl, by decide⟩
    | decimal hd hne _ _ => exact exists_head_digits _ hd.isDigit hne
    | lastDigit hd hne _ _ => exact exists_head_digits _ hd.isDigit hne
    | period hd hne _ _ _ _ _ => exact exists_head_digits _ hd.isDigit hne
  | spaced hd hne _ _ _ => exact exists_head_digits _ hd.isDigit hne

/-! ## Joining -/

theorem lexemes_laid_gap (lead : String) (pos : Nat) (gap : List Char) (ws : List (TokenKind × List Char)) :
    lexemes lead (laid pos (gapPiece gap ++ ws)) =
      lexemes (lead ++ String.ofList gap) (laid (pos + byteLength gap) ws) := by
  unfold gapPiece
  split_ifs with h
  · simp [h, byteLength]
  · simp [laid, lexemes]

theorem lexemes_laid_cons {k : TokenKind} (hk : k ≠ .blank) (lead : String) (pos : Nat) (w : List Char)
    (ws : List (TokenKind × List Char)) :
    lexemes lead (laid pos ((k, w) :: ws)) =
      ⟨lead, ⟨k, pos, String.ofList w⟩⟩ :: lexemes "" (laid (pos + byteLength w) ws) := by
  simp [laid, lexemes, hk]

def NoFraction (ls : List Lexeme) : Prop := ∀ l ∈ ls.head?, l.token.isFraction = false

theorem joinFractions_cons {a : Lexeme} {ls : List Lexeme} (h : a.token.isInteger = false ∨ NoFraction ls) :
    joinFractions (a :: ls) = a :: joinFractions ls := by
  cases ls with
  | nil => simp [joinFractions]
  | cons b ls =>
    have hif : (a.token.isInteger && b.token.isFraction) = false := by
      rcases h with h | h
      · simp [h]
      · simp [h b rfl]
    simp [joinFractions, hif]

theorem joinFractions_join {a b : Lexeme} (ha : a.token.isInteger = true) (hb : b.token.isFraction = true)
    (ls : List Lexeme) : joinFractions (a :: b :: ls) = a.join b :: joinFractions ls := by
  simp [joinFractions, ha, hb]

theorem joinSigns_cons {free : Bool} {a : Lexeme} (h : (free && a.token.isMinus) = false) (ls : List Lexeme) :
    joinSigns free (a :: ls) = a :: joinSigns a.token.expectsOperand ls := by
  cases ls with
  | nil => simp [joinSigns]
  | cons b ls => simp [joinSigns, h]

theorem joinSigns_minus {a b : Lexeme} (ha : a.token.isMinus = true) (hb : b.token.kind = .numeric)
    (ls : List Lexeme) : joinSigns true (a :: b :: ls) = a.join b :: joinSigns false ls := by
  simp [joinSigns, ha, hb]

/-- An integer and the fraction after it are joined, with the white space between them. -/
theorem joinFractions_split {ds : List Char} (hd : Digits ds) (tail : List Char) (lead gap : String) (pos pos' : Nat)
    (ls : List Lexeme) :
    ∃ x : Lexeme, x.lead = lead ∧ x.token.symbol = (.numeric, String.ofList ds ++ gap ++ String.ofList ('.' :: tail)) ∧
      joinFractions (⟨lead, ⟨.numeric, pos, String.ofList ds⟩⟩ ::
        ⟨gap, ⟨.numeric, pos', String.ofList ('.' :: tail)⟩⟩ :: ls) = x :: joinFractions ls := by
  refine ⟨Lexeme.join ⟨lead, ⟨.numeric, pos, String.ofList ds⟩⟩
    ⟨gap, ⟨.numeric, pos', String.ofList ('.' :: tail)⟩⟩, rfl, rfl, joinFractions_join ?_ ?_ ls⟩
  · simp [isInteger, hd.areAsciiDigits]
  · simp [isFraction]

/-- The pieces of a number without a sign are joined to one token. -/
theorem joinFractions_body {w : List Char} {ws : List (TokenKind × List Char)} (h : Body w ws) (lead : String)
    (pos : Nat) (vs : List (TokenKind × List Char))
    (hvs : NoFraction (lexemes "" (laid (pos + byteLength w) vs))) :
    ∃ x : Lexeme, x.lead = lead ∧ x.token.symbol = (.numeric, String.ofList w) ∧
      joinFractions (lexemes lead (laid pos (ws ++ vs))) =
        x :: joinFractions (lexemes "" (laid (pos + byteLength w) vs)) := by
  have hnumeric : TokenKind.numeric ≠ .blank := by decide
  have hone : ∃ x : Lexeme, x.lead = lead ∧ x.token.symbol = (.numeric, String.ofList w) ∧
      joinFractions (lexemes lead (laid pos ([w].map (.numeric, ·) ++ vs))) =
        x :: joinFractions (lexemes "" (laid (pos + byteLength w) vs)) := by
    refine ⟨⟨lead, ⟨.numeric, pos, String.ofList w⟩⟩, rfl, rfl, ?_⟩
    rw [List.map_singleton, List.singleton_append, lexemes_laid_cons hnumeric, joinFractions_cons (.inr hvs)]
  cases h with
  | tight hw =>
    cases hw with
    | whole _ _ => exact hone
    | fraction _ _ => exact hone
    | lastDigit _ _ _ _ => exact hone
    | period _ _ _ _ _ _ _ => exact hone
    | @decimal ds fs hd _ _ _ =>
      obtain ⟨x, hlead, hx, hjoin⟩ := joinFractions_split hd fs lead "" pos (pos + byteLength ds)
        (lexemes "" (laid (pos + byteLength (ds ++ '.' :: fs)) vs))
      refine ⟨x, hlead, by simpa using hx, ?_⟩
      simp only [List.map_cons, List.map_nil, List.cons_append, List.nil_append]
      rw [lexemes_laid_cons hnumeric, lexemes_laid_cons hnumeric, Nat.add_assoc, ← byteLength_append]
      exact hjoin
  | @spaced ds gap tail ps hd _ hgne _ _ =>
    obtain ⟨x, hlead, hx, hjoin⟩ := joinFractions_split hd tail lead (String.ofList gap) pos
      (pos + byteLength ds + byteLength gap) (lexemes "" (laid (pos + byteLength (ds ++ (gap ++ '.' :: tail))) vs))
    refine ⟨x, hlead, by simpa [String.ofList_append, String.append_assoc] using hx, ?_⟩
    have hone : [(TokenKind.blank, gap), (.numeric, '.' :: tail)] ++ vs =
        gapPiece gap ++ (.numeric, '.' :: tail) :: vs := by
      rw [gapPiece, if_neg hgne]
      rfl
    rw [List.cons_append, lexemes_laid_cons hnumeric, hone, lexemes_laid_gap, lexemes_laid_cons hnumeric,
      String.empty_append]
    rw [byteLength_append, byteLength_append, ← Nat.add_assoc, ← Nat.add_assoc] at hjoin ⊢
    exact hjoin

end Token

/-! ## Numerals -/

/-- A number as it may stand in a text: with white space after its sign and before its point or not. -/
structure IsNumeral (s : String) : Prop where
  number : ∃ n, Number.ofText (String.ofList (dropBlanks s.toList)) = .ok n
  shape : ∃ w ws, Token.Body w ws ∧
    (s.toList = w ∨ ∃ gap, (∀ c ∈ gap, isBlank c = true) ∧ s.toList = '-' :: (gap ++ w))

theorem Token.Unsigned.flatten_eq {w : List Char} {ps : List (List Char)} (h : Unsigned w ps) : ps.flatten = w := by
  cases h <;> simp

theorem Token.Unsigned.numeralPiece {w : List Char} {ps : List (List Char)} (h : Unsigned w ps) :
    ∀ n ∈ ps, NumeralPiece n := by
  cases h with
  | whole hd hne => simpa using NumeralPiece.whole hd hne
  | fraction hf hne => simpa using NumeralPiece.fraction hf hne (.inl rfl)
  | @decimal ds fs hd hne hf hfne =>
    have hfraction : NumeralPiece ('.' :: fs) := by simpa using NumeralPiece.fraction hf hfne (.inl rfl)
    simpa using ⟨NumeralPiece.whole hd.isDigit hne, hfraction⟩
  | lastDigit hd hne hf hfne => simpa using NumeralPiece.lastDigit hd.isDigit hne hf.isDigit hfne
  | period hd _ hf hp hpne hb hm => simpa using NumeralPiece.period hd.isDigit hf.isDigit hp.isDigit hpne hb hm

theorem Token.Unsigned.isDigit_or_mem {w : List Char} {ps : List (List Char)} (h : Unsigned w ps) :
    ∀ c ∈ w, isDigit c = true ∨ c ∈ ['.', 'r', '(', ')', '[', ']'] := by
  intro c hc
  rw [← h.flatten_eq] at hc
  obtain ⟨n, hn, hmem⟩ := List.mem_flatten.mp hc
  exact (h.numeralPiece n hn).isDigit_or_mem c hmem

theorem Token.Unsigned.isBlank_eq_false {w : List Char} {ps : List (List Char)} (h : Unsigned w ps) :
    ∀ c ∈ w, isBlank c = false :=
  fun c hc => isBlank_eq_false_of_isDigit_or_mem (h.isDigit_or_mem c hc)

theorem Text.dropBlanks_eq_self {cs : List Char} (h : ∀ c ∈ cs, isBlank c = false) : dropBlanks cs = cs := by
  refine List.filter_eq_self.mpr fun c hc => ?_
  rw [h c hc]
  rfl

theorem Text.dropBlanks_eq_nil {cs : List Char} (h : ∀ c ∈ cs, isBlank c = true) : dropBlanks cs = [] :=
  List.filter_eq_nil_iff.mpr fun c hc => by simp [h c hc]

theorem Text.dropBlanks_append (cs ds : List Char) : dropBlanks (cs ++ ds) = dropBlanks cs ++ dropBlanks ds :=
  List.filter_append cs ds

theorem Text.dropBlanks_minus {gap cs : List Char} (hgap : ∀ c ∈ gap, isBlank c = true) :
    dropBlanks ('-' :: (gap ++ cs)) = '-' :: dropBlanks cs := by
  have hminus : dropBlanks ['-'] = ['-'] := rfl
  rw [← List.singleton_append, dropBlanks_append, dropBlanks_append, hminus, dropBlanks_eq_nil hgap]
  rfl

theorem Token.Body.exists_dropBlanks {w : List Char} {ws : List (TokenKind × List Char)} (h : Body w ws) :
    ∃ ps, Unsigned (dropBlanks w) ps := by
  cases h with
  | tight hw => exact ⟨_, by rwa [dropBlanks_eq_self hw.isBlank_eq_false]⟩
  | @spaced ds gap tail ps hd _ _ hgap hw =>
    have hblank := hw.isBlank_eq_false
    have hds := dropBlanks_eq_self fun c hc => hblank c (List.mem_append_left _ hc)
    have htail := dropBlanks_eq_self fun c hc => hblank c (List.mem_append_right _ hc)
    rw [dropBlanks_append, dropBlanks_append, hds, dropBlanks_eq_nil hgap, htail, List.nil_append]
    exact ⟨ps, hw⟩

theorem Text.dropBlanks_dropBlanks (cs : List Char) : dropBlanks (dropBlanks cs) = dropBlanks cs := by
  simp [dropBlanks, List.filter_filter]

theorem IsNumeral.dropBlanks {s : String} (h : IsNumeral s) : IsNumeral (String.ofList (dropBlanks s.toList)) := by
  refine ⟨?_, ?_⟩
  · rw [String.toList_ofList, dropBlanks_dropBlanks]
    exact h.number
  · obtain ⟨w, ws, hw, hs⟩ := h.shape
    obtain ⟨ps, hps⟩ := hw.exists_dropBlanks
    refine ⟨_, _, .tight hps, ?_⟩
    rw [String.toList_ofList]
    rcases hs with hs | ⟨gap, hgap, hs⟩
    · exact .inl (by rw [hs])
    · refine .inr ⟨[], by simp, ?_⟩
      rw [hs, dropBlanks_minus hgap, List.nil_append]

theorem Token.Unsigned.dropBlanks_eq {s : String} {w : List Char} {ps : List (List Char)} (hw : Unsigned w ps)
    (hs : s.toList = w ∨ s.toList = '-' :: w) : String.ofList (dropBlanks s.toList) = s := by
  have hblank : ∀ c ∈ s.toList, isBlank c = false := by
    rcases hs with hs | hs
    · rw [hs]
      exact hw.isBlank_eq_false
    · rw [hs, List.forall_mem_cons]
      exact ⟨by decide, hw.isBlank_eq_false⟩
  rw [dropBlanks_eq_self hblank, String.ofList_toList]

/-- A signed or unsigned number without white space is a numeral, if it is accepted as a number. -/
theorem isNumeral_of_unsigned {s : String} {w : List Char} {ps : List (List Char)} (hw : Token.Unsigned w ps)
    (hs : s.toList = w ∨ s.toList = '-' :: w) (hnumber : ∃ n, Number.ofText s = .ok n) : IsNumeral s := by
  refine ⟨?_, w, _, .tight hw, ?_⟩
  · rwa [hw.dropBlanks_eq hs]
  · rcases hs with hs | hs
    · exact .inl hs
    · exact .inr ⟨[], by simp, hs⟩

theorem IsLiteral.dropBlanks_eq {s : String} (h : IsLiteral s) : String.ofList (dropBlanks s.toList) = s := by
  obtain ⟨w, ps, hw, hs⟩ := Token.exists_unsigned_of_isLiteral h
  exact hw.dropBlanks_eq hs

theorem IsLiteral.isNumeral {s : String} (h : IsLiteral s) : IsNumeral s := by
  obtain ⟨w, ps, hw, hs⟩ := Token.exists_unsigned_of_isLiteral h
  exact isNumeral_of_unsigned hw hs h.number

namespace Formula

def literals : Formula → List String
  | literal s => [s]
  | group f => f.literals
  | thenLiteral e _ s => e.literals ++ [s]
  | thenGroup e _ f => e.literals ++ f.literals

def HasNumerals (f : Formula) : Prop := ∀ s ∈ f.literals, IsNumeral s

theorem IsWellFormed.hasNumerals {f : Formula} (hf : f.IsWellFormed) : f.HasNumerals := by
  induction f with
  | literal s => simpa [HasNumerals, literals] using IsLiteral.isNumeral hf
  | group f ih => exact ih hf
  | thenLiteral e op s ih =>
    refine List.forall_mem_append.mpr ⟨ih hf.1, ?_⟩
    simpa using IsLiteral.isNumeral hf.2
  | thenGroup e op f ihe ihf => exact List.forall_mem_append.mpr ⟨ihe hf.1, ihf hf.2⟩

end Formula

end ExactCalc
