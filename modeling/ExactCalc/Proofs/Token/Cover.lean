import Mathlib
import ExactCalc.Proofs.Token.Spelling

/-!
# What the scanner accepts

The tokens of a text spell it, with white space around them only (`scan_spells`): nothing is passed over and
nothing is added. Each of them is a sign, a parenthesis, or a numeral of the scanner, to which a sign and an
integer before its point may have been joined across white space (`IsScanned`).
-/

namespace ExactCalc

open Text

namespace Token

/-! ## Spellings -/

theorem spelling_lexemes {ls : List Lexeme} {trail : List Char} (hls : ∀ l ∈ ls, ∀ c ∈ l.lead.toList, isBlank c = true)
    (htrail : ∀ c ∈ trail, isBlank c = true) :
    Spelling (ls.map (·.token.text)) (ls.flatMap Lexeme.chars ++ trail) := by
  induction ls with
  | nil => exact .nil htrail
  | cons l ls ih =>
    obtain ⟨hl, hrest⟩ := List.forall_mem_cons.mp hls
    rw [List.flatMap_cons, Lexeme.chars, List.append_assoc, List.append_assoc]
    exact .cons hl (ih hrest)

/-! ## Shapes of tokens -/

/-- A number without its sign, as the scanner makes it: one piece, or an integer and a fraction. -/
inductive ScannedBody : List Char → Prop
  | piece {n : List Char} : NumeralPiece n → ScannedBody n
  | joined {ds gap tail : List Char} : Digits ds → ds ≠ [] → (∀ c ∈ gap, isBlank c = true) →
      NumeralPiece ('.' :: tail) → ScannedBody (ds ++ (gap ++ '.' :: tail))

/-- What a token of a text is. -/
inductive IsScanned (t : Token) : Prop
  | symbol {c : Char} : symbolKind? c = some t.kind → t.text = String.singleton c → IsScanned t
  | numeric {w : List Char} : t.kind = .numeric → ScannedBody w →
      (t.text.toList = w ∨ ∃ gap, (∀ c ∈ gap, isBlank c = true) ∧ t.text.toList = '-' :: (gap ++ w)) → IsScanned t

/-- A token before its sign is joined to it, with white space before it. -/
structure Unsignified (l : Lexeme) : Prop where
  lead : ∀ c ∈ l.lead.toList, isBlank c = true
  shape : (∃ c, symbolKind? c = some l.token.kind ∧ l.token.text = String.singleton c) ∨
    l.token.kind = .numeric ∧ ScannedBody l.token.text.toList

theorem unsignified_of_isPiece {l : Lexeme} (hlead : ∀ c ∈ l.lead.toList, isBlank c = true) (hk : l.token.kind ≠ .blank)
    (h : IsPiece l.token) : Unsignified l := by
  refine ⟨hlead, ?_⟩
  cases h with
  | blank hb _ => exact absurd hb hk
  | numeric hn hp => exact .inr ⟨hn, .piece hp⟩
  | symbol hs ht => exact .inl ⟨_, hs, ht⟩

theorem NumeralPiece.digits {n : List Char} (h : areAsciiDigits n = true) : Digits n :=
  fun c hc => List.all_eq_true.mp h c hc

theorem kind_eq_of_isFraction {t : Token} (ht : IsPiece t) (hk : t.kind ≠ .blank) (h : t.isFraction = true) :
    t.kind = .numeric := by
  obtain ⟨tail, htail⟩ := List.head?_eq_some_iff.mp (beq_iff_eq.mp h)
  cases ht with
  | blank hb _ => exact absurd hb hk
  | numeric hn _ => exact hn
  | symbol hs ht =>
    rw [ht] at htail
    simp at htail
    exact absurd htail.1 (symbolKind?_eq_some hs).2.2.1

theorem numeralPiece_of_isFraction {t : Token} (ht : IsPiece t) (hk : t.kind ≠ .blank) (h : t.isFraction = true) :
    ∃ tail, t.text.toList = '.' :: tail ∧ NumeralPiece ('.' :: tail) := by
  obtain ⟨tail, htail⟩ := List.head?_eq_some_iff.mp (beq_iff_eq.mp h)
  have hn := kind_eq_of_isFraction ht hk h
  cases ht with
  | blank hb _ => exact absurd hb hk
  | numeric _ hp => exact ⟨tail, htail, htail ▸ hp⟩
  | symbol hs _ => exact absurd hn (symbolKind?_eq_some hs).2.2.2.2

theorem unsignified_joinFractions {ls : List Lexeme}
    (h : ∀ l ∈ ls, (∀ c ∈ l.lead.toList, isBlank c = true) ∧ l.token.kind ≠ .blank ∧ IsPiece l.token) :
    ∀ l ∈ joinFractions ls, Unsignified l := by
  fun_induction joinFractions ls with
  | case1 a b rest hjoin ih =>
    simp only [List.forall_mem_cons] at h
    obtain ⟨⟨halead, hak, hap⟩, ⟨hblead, hbk, hbp⟩, hrest⟩ := h
    simp only [Bool.and_eq_true, isInteger, beq_iff_eq] at hjoin
    refine List.forall_mem_cons.mpr ⟨⟨halead, .inr ⟨rfl, ?_⟩⟩, ih hrest⟩
    obtain ⟨tail, htail, hpiece⟩ := numeralPiece_of_isFraction hbp hbk hjoin.2
    have hne : a.token.text.toList ≠ [] := by
      cases hap with
      | blank hb _ => exact absurd hb hak
      | numeric _ hp => exact hp.ne_nil
      | symbol hs ht => simp [ht]
    have htext : (a.join b).token.text.toList = a.token.text.toList ++ (b.lead.toList ++ '.' :: tail) := by
      simp [Lexeme.join, htail]
    rw [htext]
    exact .joined (NumeralPiece.digits hjoin.1.2) hne hblead hpiece
  | case2 a b rest hjoin ih =>
    obtain ⟨⟨halead, hak, hap⟩, hrest⟩ := List.forall_mem_cons.mp h
    exact List.forall_mem_cons.mpr ⟨unsignified_of_isPiece halead hak hap, ih hrest⟩
  | case3 ls hls =>
    intro l hl
    obtain ⟨hlead, hk, hp⟩ := h l hl
    exact unsignified_of_isPiece hlead hk hp

theorem Unsignified.isScanned {l : Lexeme} (h : Unsignified l) : IsScanned l.token := by
  obtain ⟨-, ⟨c, hs, ht⟩ | ⟨hk, hw⟩⟩ := h
  · exact .symbol hs ht
  · exact .numeric hk hw (.inl rfl)

theorem isScanned_joinSigns {free : Bool} {ls : List Lexeme} (h : ∀ l ∈ ls, Unsignified l) :
    ∀ l ∈ joinSigns free ls, (∀ c ∈ l.lead.toList, isBlank c = true) ∧ IsScanned l.token := by
  fun_induction joinSigns free ls with
  | case1 free a b rest hjoin ih =>
    simp only [List.forall_mem_cons] at h
    obtain ⟨ha, hb, hrest⟩ := h
    simp only [Bool.and_eq_true, isMinus, beq_iff_eq] at hjoin
    refine List.forall_mem_cons.mpr ⟨⟨ha.lead, ?_⟩, ih hrest⟩
    have hbody : ScannedBody b.token.text.toList := by
      rcases hb.shape with ⟨c, hs, -⟩ | ⟨-, hw⟩
      · exact absurd hjoin.2 (symbolKind?_eq_some hs).2.2.2.2
      · exact hw
    refine .numeric rfl hbody (.inr ⟨b.lead.toList, hb.lead, ?_⟩)
    simp [Lexeme.join, hjoin.1.2.2]
  | case2 free a b rest hjoin ih =>
    obtain ⟨ha, hrest⟩ := List.forall_mem_cons.mp h
    exact List.forall_mem_cons.mpr ⟨⟨ha.lead, ha.isScanned⟩, ih hrest⟩
  | case3 free ls hls => exact fun l hl => ⟨(h l hl).lead, (h l hl).isScanned⟩

/-! ## Parentheses -/

def count (k : TokenKind) (ts : List Token) : Nat := (ts.map Token.kind).count k

theorem count_cons (k : TokenKind) (t : Token) (ts : List Token) :
    count k (t :: ts) = count k ts + if t.kind = k then 1 else 0 := by
  simp [count, List.count_cons]

theorem count_eq_countP (k : TokenKind) (ts : List Token) : count k ts = ts.countP (·.kind == k) := by
  rw [count, List.count, List.countP_map]
  rfl

theorem count_lexemes {k : TokenKind} (hk : k ≠ .blank) (lead : String) (ts : List Token) :
    count k ((lexemes lead ts).map (·.token)) = count k ts := by
  fun_induction lexemes lead ts with
  | case1 => rfl
  | case2 lead t ts ht ih => rw [ih, count_cons, ht, if_neg hk.symm, Nat.add_zero]
  | case3 lead t ts ht ih => rw [List.map_cons, count_cons, count_cons, ih]

theorem count_join {k : TokenKind} {a b : Lexeme} (ha : a.token.kind ≠ k) (hb : b.token.kind ≠ k)
    (hk : k ≠ .numeric) (ls : List Lexeme) :
    count k ((a.join b :: ls).map (·.token)) = count k ((a :: b :: ls).map (·.token)) := by
  have hjoin : (a.join b).token.kind ≠ k := hk.symm
  simp only [List.map_cons, count_cons, if_neg ha, if_neg hb, if_neg hjoin]

theorem count_joinFractions {k : TokenKind} (hk : k = .opening ∨ k = .closing) {ls : List Lexeme}
    (h : ∀ l ∈ ls, l.token.kind ≠ .blank ∧ IsPiece l.token) :
    count k ((joinFractions ls).map (·.token)) = count k (ls.map (·.token)) := by
  have hkn : k ≠ .numeric := by rcases hk with rfl | rfl <;> decide
  fun_induction joinFractions ls with
  | case1 a b rest hjoin ih =>
    simp only [List.forall_mem_cons] at h
    obtain ⟨-, ⟨hbk, hbp⟩, hrest⟩ := h
    simp only [Bool.and_eq_true, isInteger, beq_iff_eq] at hjoin
    have hb := kind_eq_of_isFraction hbp hbk hjoin.2
    rw [← count_join (by rw [hjoin.1.1]; exact hkn.symm) (by rw [hb]; exact hkn.symm) hkn]
    simp only [List.map_cons, count_cons, ih hrest]
  | case2 a b rest hjoin ih =>
    obtain ⟨-, hrest⟩ := List.forall_mem_cons.mp h
    rw [List.map_cons, List.map_cons, count_cons, count_cons, ih hrest]
  | case3 => rfl

theorem count_joinSigns {k : TokenKind} (hk : k = .opening ∨ k = .closing) (free : Bool) (ls : List Lexeme) :
    count k ((joinSigns free ls).map (·.token)) = count k (ls.map (·.token)) := by
  have hkn : k ≠ .numeric := by rcases hk with rfl | rfl <;> decide
  have hko : k ≠ .operation := by rcases hk with rfl | rfl <;> decide
  fun_induction joinSigns free ls with
  | case1 free a b rest hjoin ih =>
    simp only [Bool.and_eq_true, isMinus, beq_iff_eq] at hjoin
    rw [← count_join (by rw [hjoin.1.2.1]; exact hko.symm) (by rw [hjoin.2]; exact hkn.symm) hkn]
    simp only [List.map_cons, count_cons, ih]
  | case2 free a b rest hjoin ih => rw [List.map_cons, List.map_cons, count_cons, count_cons, ih]
  | case3 => rfl

/-- The pieces that a text is scanned from cover it, and their joining gives the tokens. -/
theorem checkCover_of_scan {s : String} {ts : List Token} (h : scan s = .ok ts) :
    checkCover s.utf8ByteSize (pieces 0 s.toList) = .ok () ∧ ts = joined (pieces 0 s.toList) := by
  rw [scan_eq_joined] at h
  cases hcheck : checkCover s.utf8ByteSize (pieces 0 s.toList) with
  | error e =>
    rw [hcheck] at h
    cases h
  | ok u =>
    rw [hcheck] at h
    exact ⟨rfl, (Except.ok.inj h).symm⟩

theorem lexemes_pieces (s : String) :
    ∀ l ∈ lexemes "" (pieces 0 s.toList), (∀ c ∈ l.lead.toList, isBlank c = true) ∧ l.token.kind ≠ .blank ∧
      IsPiece l.token :=
  (exists_trail_lexemes (isPiece_of_mem_pieces 0 s.toList) (by simp)).2

theorem count_of_scan {s : String} {ts : List Token} (h : scan s = .ok ts) : count .opening ts = count .closing ts := by
  obtain ⟨hcheck, rfl⟩ := checkCover_of_scan h
  have hpieces : ∀ l ∈ lexemes "" (pieces 0 s.toList), l.token.kind ≠ .blank ∧ IsPiece l.token :=
    fun l hl => (lexemes_pieces s l hl).2
  have hcount : ∀ k : TokenKind, k = .opening ∨ k = .closing →
      count k (joined (pieces 0 s.toList)) = count k (pieces 0 s.toList) := by
    intro k hk
    have hkb : k ≠ .blank := by rcases hk with rfl | rfl <;> decide
    rw [joined, count_joinSigns hk, count_joinFractions hk hpieces, count_lexemes hkb]
  rw [hcount _ (.inl rfl), hcount _ (.inr rfl), count_eq_countP, count_eq_countP]
  exact (chars_pieces_of_checkCover hcheck).2

theorem isScanned_joined (s : String) :
    ∀ l ∈ joinSigns true (joinFractions (lexemes "" (pieces 0 s.toList))),
      (∀ c ∈ l.lead.toList, isBlank c = true) ∧ IsScanned l.token :=
  isScanned_joinSigns (unsignified_joinFractions (lexemes_pieces s))

/-- A text that passes the check is its joined lexemes, with white space behind them. -/
theorem exists_trail_joined {s : String} (h : checkCover s.utf8ByteSize (pieces 0 s.toList) = .ok ()) :
    ∃ trail, (∀ c ∈ trail, isBlank c = true) ∧ s.toList =
      (joinSigns true (joinFractions (lexemes "" (pieces 0 s.toList)))).flatMap Lexeme.chars ++ trail := by
  have hblank : ∀ c ∈ "".toList, isBlank c = true := by simp
  obtain ⟨⟨trail, htrail, htext⟩, -⟩ := exists_trail_lexemes (isPiece_of_mem_pieces 0 s.toList) hblank
  rw [String.toList_empty, List.nil_append, (chars_pieces_of_checkCover h).1, ← flatMap_joinFractions,
    ← flatMap_joinSigns true] at htext
  exact ⟨trail, htrail, htext⟩

theorem scan_spells {s : String} {ts : List Token} (h : scan s = .ok ts) :
    Spelling (ts.map Token.text) s.toList ∧ ∀ t ∈ ts, IsScanned t := by
  obtain ⟨hcheck, rfl⟩ := checkCover_of_scan h
  obtain ⟨trail, htrail, htext⟩ := exists_trail_joined hcheck
  constructor
  · have hspelled := spelling_lexemes (fun l hl => (isScanned_joined s l hl).1) htrail
    rw [← htext] at hspelled
    rwa [joined, List.map_map]
  · intro t ht
    obtain ⟨l, hl, rfl⟩ := List.mem_map.mp ht
    exact (isScanned_joined s l hl).2

/-! ## Numbers that are accepted -/

/-- What is accepted as a number without a sign. -/
def IsAccepted (cs : List Char) : Prop := (∃ most, isPlainNumeral most cs = true) ∨ ∃ ps, Unsigned cs ps

theorem exists_isAccepted_of_ofText {cs : List Char} {n : Number} (hne : cs ≠ [])
    (h : Number.ofText (String.ofList cs) = .ok n) : ∃ w, IsAccepted w ∧ (cs = w ∨ cs = '-' :: w) := by
  unfold Number.ofText at h
  have hempty : (String.ofList cs).isEmpty = false := by simpa using hne
  rw [hempty] at h
  simp only [Bool.false_eq_true, if_false] at h
  split_ifs at h with hamount hnumeric
  · rw [isAmountText, String.toList_ofList] at hamount
    exact ⟨cs, .inl ⟨_, hamount⟩, .inl rfl⟩
  · simp only [isNumericText, hamount, Bool.false_or, String.toList_ofList] at hnumeric
    split at hnumeric
    · rename_i w
      exact ⟨w, .inl ⟨_, hnumeric⟩, .inr rfl⟩
    · exact ⟨_, .inl ⟨_, hnumeric⟩, .inl rfl⟩
  · cases hr : recurringValue? (String.ofList cs) with
    | none => simp [hr] at h
    | some r =>
      obtain ⟨w, ps, hw, hcs⟩ := exists_unsigned_of_recurringValue? hr
      rw [String.toList_ofList] at hcs
      exact ⟨w, .inr ⟨ps, hw⟩, hcs⟩

theorem IsAccepted.head_ne_minus {w : List Char} (h : IsAccepted w) : '-' ∉ w.head? := by
  have hdigit : isDigit '-' = false := by decide
  rintro hhead
  obtain ⟨cs, rfl⟩ := List.head?_eq_some_iff.mp hhead
  rcases h with ⟨most, h⟩ | ⟨ps, h⟩
  · simp [isPlainNumeral, hdigit] at h
  · generalize hw : '-' :: cs = w at h
    have hfirst : ∀ {ds : List Char} {rest : List Char}, (∀ c ∈ ds, isDigit c = true) → ds ≠ [] →
        '-' :: cs ≠ ds ++ rest := by
      intro ds rest hd hne heq
      obtain ⟨d, ds, rfl⟩ := List.exists_cons_of_ne_nil hne
      obtain ⟨rfl, -⟩ := List.cons.inj heq
      rw [hd '-' (by simp)] at hdigit
      simp at hdigit
    cases h with
    | whole hd hne => exact @hfirst _ [] hd hne (by simpa using hw)
    | fraction _ _ => simp at hw
    | decimal hd hne _ _ => exact hfirst hd.isDigit hne hw
    | lastDigit hd hne _ _ => exact hfirst hd.isDigit hne hw
    | period hd hne _ _ _ _ _ => exact hfirst hd.isDigit hne hw

theorem NumeralPiece.ne_decimal {ds fs : List Char} (h : NumeralPiece (ds ++ '.' :: fs))
    (hd : ∀ c ∈ ds, isDigit c = true) (hf : ∀ c ∈ fs, isDigit c = true) : ds = [] := by
  generalize hw : ds ++ '.' :: fs = w at h
  have hpoint : isDigit '.' = false := rfl
  have hr : isDigit 'r' = false := rfl
  cases h with
  | whole hw' _ =>
    have hdigit := hw' '.' (by rw [← hw]; simp)
    rw [hpoint] at hdigit
    simp at hdigit
  | fraction _ _ _ =>
    have hnil : ∀ c ∈ ([] : List Char), isDigit c = true := by simp
    exact (digits_point_inj hd hnil hw).1
  | lastDigit hd' _ _ _ =>
    obtain ⟨-, rfl⟩ := digits_point_inj hd hd' hw
    rw [hf 'r' (by simp)] at hr
    simp at hr
  | @period _ _ _ _ l r hd' _ _ _ hb _ =>
    obtain ⟨-, rfl⟩ := digits_point_inj hd hd' hw
    have hl := hb.isDigit_left
    rw [hf l (by simp)] at hl
    simp at hl

theorem dropBlanks_joined {ds gap n : List Char} (hd : Digits ds) (hgap : ∀ c ∈ gap, isBlank c = true)
    (hn : NumeralPiece n) : dropBlanks (ds ++ (gap ++ n)) = ds ++ n := by
  have hds := dropBlanks_eq_self fun c hc => isBlank_eq_false_of_isDigit (hd.isDigit c hc)
  rw [dropBlanks_append, dropBlanks_append, hds, dropBlanks_eq_nil hgap, dropBlanks_eq_self hn.isBlank_eq_false,
    List.nil_append]

theorem ScannedBody.exists_dropBlanks {w : List Char} (h : ScannedBody w) :
    ∃ ds n, Digits ds ∧ NumeralPiece n ∧ dropBlanks w = ds ++ n := by
  cases h with
  | piece hn => exact ⟨[], w, by simp [Digits], hn, dropBlanks_eq_self hn.isBlank_eq_false⟩
  | @joined ds gap tail hd _ hgap hn => exact ⟨ds, '.' :: tail, hd, hn, dropBlanks_joined hd hgap hn⟩

theorem IsScanned.exists_dropBlanks {t : Token} (h : t.IsScanned) (hk : t.kind = .numeric) :
    ∃ (negative : Bool) (w : List Char), ScannedBody w ∧
      dropBlanks t.text.toList = (if negative then ['-'] else []) ++ dropBlanks w := by
  cases h with
  | symbol hs _ => exact absurd hk (symbolKind?_eq_some hs).2.2.2.2
  | @numeric w _ hw ht =>
    obtain ht | ⟨gap, hgap, ht⟩ := ht
    · exact ⟨false, w, hw, by rw [ht]; rfl⟩
    · exact ⟨true, w, hw, by rw [ht, dropBlanks_minus hgap]; rfl⟩

/-- A number as the scanner makes it, if it is accepted, is one that is scanned. -/
theorem ScannedBody.exists_body {w : List Char} (h : ScannedBody w) (haccepted : IsAccepted (dropBlanks w)) :
    ∃ ws, Body w ws := by
  cases h with
  | piece hn =>
    rw [dropBlanks_eq_self hn.isBlank_eq_false] at haccepted
    rcases haccepted with ⟨most, hplain⟩ | ⟨ps, hw⟩
    · obtain ⟨hne, hd⟩ | ⟨ds, fs, rfl, hd, hfne, hf⟩ := isPlainNumeral_cases hplain
      · exact ⟨_, .tight (.whole hd hne)⟩
      · obtain rfl := hn.ne_decimal hd hf
        exact ⟨_, .tight (.fraction hf hfne)⟩
    · exact ⟨_, .tight hw⟩
  | @joined ds gap tail hd hne hgap hn =>
    have hw : ∃ ps, Unsigned (ds ++ '.' :: tail) ps := by
      rw [dropBlanks_joined hd hgap hn] at haccepted
      rcases haccepted with ⟨most, hplain⟩ | hw
      · obtain ⟨-, hall⟩ | ⟨ds', fs, heq, hd', hfne, hf⟩ := isPlainNumeral_cases hplain
        · exact absurd (hall '.' (by simp)) (by decide)
        · obtain ⟨-, rfl⟩ := digits_point_inj hd.isDigit hd' heq
          exact ⟨_, .decimal hd hne hf hfne⟩
      · exact hw
    obtain ⟨ps, hw⟩ := hw
    by_cases hgne : gap = []
    · subst hgne
      exact ⟨_, .tight hw⟩
    · exact ⟨_, .spaced hd hne hgne hgap hw⟩

theorem ScannedBody.head_ne {w : List Char} (h : ScannedBody w) :
    ∃ c cs, w = c :: cs ∧ isBlank c = false ∧ c ≠ '-' := by
  have hdigits : ∀ {ds : List Char} {rest : List Char}, (∀ c ∈ ds, isDigit c = true) → ds ≠ [] →
      ∃ c cs, ds ++ rest = c :: cs ∧ isBlank c = false ∧ c ≠ '-' := by
    intro ds rest hd hne
    obtain ⟨d, ds, rfl⟩ := List.exists_cons_of_ne_nil hne
    refine ⟨d, ds ++ rest, rfl, isBlank_eq_false_of_isDigit (hd d (by simp)), ?_⟩
    rintro rfl
    exact absurd (hd '-' (by simp)) (by decide)
  cases h with
  | piece hn =>
    cases hn with
    | whole hd hne => simpa using @hdigits _ [] hd hne
    | fraction _ _ _ => exact ⟨'.', _, rfl, rfl, by decide⟩
    | lastDigit hd hne _ _ => exact hdigits hd hne
    | @period ds _ _ _ _ _ hd _ _ _ _ _ =>
      by_cases hne : ds = []
      · subst hne
        exact ⟨'.', _, rfl, rfl, by decide⟩
      · exact hdigits hd hne
  | joined hd hne _ _ => exact hdigits hd.isDigit hne

theorem IsScanned.exists_head {t : Token} (h : t.IsScanned) : ∃ c cs, t.text.toList = c :: cs ∧ isBlank c = false := by
  cases h with
  | @symbol c hk ht => exact ⟨c, [], by simp [ht], (symbolKind?_eq_some hk).1⟩
  | @numeric w _ hw ht =>
    rcases ht with ht | ⟨gap, -, ht⟩
    · obtain ⟨c, cs, rfl, hc, -⟩ := hw.head_ne
      exact ⟨c, cs, ht, hc⟩
    · exact ⟨'-', gap ++ w, ht, rfl⟩

end Token

theorem Token.IsScanned.isNumeral {t : Token} (h : t.IsScanned) (hk : t.kind = .numeric)
    (hnumber : ∃ n, Number.ofText (String.ofList (dropBlanks t.text.toList)) = .ok n) : IsNumeral t.text := by
  refine ⟨hnumber, ?_⟩
  obtain ⟨n, hn⟩ := hnumber
  cases h with
  | symbol hs _ => exact absurd hk (symbolKind?_eq_some hs).2.2.2.2
  | @numeric w _ hw ht =>
    obtain ⟨c, cs, rfl, hc, hminus⟩ := hw.head_ne
    have hdrop : dropBlanks (c :: cs) = c :: dropBlanks cs := by simp [dropBlanks, hc]
    rcases ht with ht | ⟨gap, hgap, ht⟩
    · rw [ht] at hn
      obtain ⟨w, haccepted, hw' | hw'⟩ := exists_isAccepted_of_ofText (by simp [hdrop]) hn
      · obtain ⟨ws, hbody⟩ := hw.exists_body (hw' ▸ haccepted)
        exact ⟨_, ws, hbody, .inl ht⟩
      · rw [hdrop] at hw'
        exact absurd (List.cons.inj hw').1 hminus
    · rw [ht, dropBlanks_minus hgap] at hn
      obtain ⟨w, haccepted, hw' | hw'⟩ := exists_isAccepted_of_ofText (by simp) hn
      · exact absurd (by rw [← hw']; rfl) haccepted.head_ne_minus
      · obtain rfl := (List.cons.inj hw').2
        obtain ⟨ws, hbody⟩ := hw.exists_body haccepted
        exact ⟨_, ws, hbody, .inr ⟨gap, hgap, ht⟩⟩

end ExactCalc
