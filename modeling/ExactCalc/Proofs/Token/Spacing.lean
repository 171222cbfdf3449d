import Mathlib
import ExactCalc.Proofs.Token.Context

/-!
# White space between tokens

More white space around the tokens of a text leaves them as they are: `scan_padded`.

The pieces of a text that is scanned leave nothing out, so that the text is sliced into lexemes (`Sliced`). White
space that is put in before a lexeme breaks the text off behind the one before it, and the slices stay the same
(`Sliced.widen`). Joining neighbours does not look at the white space; it only keeps what stands between the two,
where nothing has been put in (`exists_widens_joinFractions`, `exists_widens_joinSigns`).
-/

namespace ExactCalc

open Text

/-- A text that has words in order with white space around them, and the same words with more white space. -/
inductive Padded : List String → List Char → List Char → Prop
  | nil {gap gap' : List Char} : gap.Sublist gap' → (∀ c ∈ gap', isBlank c = true) → Padded [] gap gap'
  | cons {gap gap' cs cs' : List Char} {word : String} {words : List String} : gap.Sublist gap' →
      (∀ c ∈ gap', isBlank c = true) → Padded words cs cs' →
      Padded (word :: words) (gap ++ (word.toList ++ cs)) (gap' ++ (word.toList ++ cs'))

theorem padded_of_trim {s w : String} (h : Text.trim s = w) : Padded [w] w.toList s.toList := by
  have hlead := List.takeWhile_append_dropWhile (p := isBlank) (l := s.toList)
  have htrail := List.takeWhile_append_dropWhile (p := isBlank) (l := (s.toList.dropWhile isBlank).reverse)
  have hw : w.toList = ((s.toList.dropWhile isBlank).reverse.dropWhile isBlank).reverse := by
    rw [← h, trim, String.toList_ofList, trimBlanks]
  have hrest : s.toList.dropWhile isBlank =
      w.toList ++ ((s.toList.dropWhile isBlank).reverse.takeWhile isBlank).reverse := by
    rw [hw, ← List.reverse_append, htrail, List.reverse_reverse]
  have hpadded : Padded [w] ([] ++ (w.toList ++ [])) (s.toList.takeWhile isBlank ++ s.toList.dropWhile isBlank) := by
    rw [hrest]
    refine .cons (List.nil_sublist _) (fun c hc => List.mem_takeWhile_imp hc) (.nil (List.nil_sublist _) fun c hc => ?_)
    exact List.mem_takeWhile_imp (List.mem_reverse.mp hc)
  rwa [hlead, List.nil_append, List.append_nil] at hpadded

theorem Padded.sublist {words : List String} {cs cs' : List Char} (h : Padded words cs cs') : cs.Sublist cs' := by
  induction h with
  | nil hsub _ => exact hsub
  | cons hsub _ _ ih => exact hsub.append ((List.Sublist.refl _).append ih)

namespace Token

/-! ## Slices -/

/-- A token that is cut out at the head of a text with `rest` behind it. -/
inductive IsNext (t : Token) (rest : List Char) : Prop
  | symbol {c : Char} : symbolKind? c = some t.kind → t.text = String.singleton c → IsNext t rest
  | numeral : t.kind = .numeric → numeral? (t.text.toList ++ rest) = some t.text.toList → IsNext t rest

section
variable {t : Token} {rest rest' : List Char}

theorem IsNext.exists_head (h : IsNext t rest) : ∃ c cs, t.text.toList = c :: cs ∧ isBlank c = false := by
  cases h with
  | @symbol c hk ht => exact ⟨c, [], by simp [ht], (symbolKind?_eq_some hk).1⟩
  | numeral _ hn =>
    obtain ⟨hpiece, -⟩ := numeral?_cases hn
    obtain ⟨c, cs, hcs⟩ := List.exists_cons_of_ne_nil hpiece.ne_nil
    exact ⟨c, cs, hcs, hpiece.isBlank_eq_false c (by simp [hcs])⟩

theorem IsNext.kind_ne_blank (h : IsNext t rest) : t.kind ≠ .blank := by
  cases h with
  | symbol hk _ => exact (symbolKind?_eq_some hk).2.2.2.1
  | numeral hk _ => simp [hk]

theorem IsNext.of_broken (h : IsNext t rest) (hb : Broken rest rest') : IsNext t rest' := by
  cases h with
  | symbol hk ht => exact .symbol hk ht
  | numeral hk hn => exact .numeral hk (hb.numeral?_eq hn)

theorem IsNext.pieces_eq (h : IsNext t rest) (pos : Nat) :
    pieces pos (t.text.toList ++ rest) =
      ⟨t.kind, pos, t.text⟩ :: pieces (pos + byteLength t.text.toList) rest := by
  have hhead := h.exists_head
  cases h with
  | symbol hk ht =>
    rw [ht]
    simpa using pieces_symbol hk pos rest
  | numeral hk hn => rw [pieces_numeral hn hhead, hk, String.ofList_toList]

end

/-- A text that is cut into these lexemes, with white space at the end. -/
inductive Sliced : List Lexeme → List Char → Prop
  | nil {trail : List Char} : (∀ c ∈ trail, isBlank c = true) → Sliced [] trail
  | cons {l : Lexeme} {ls : List Lexeme} {cs : List Char} : (∀ c ∈ l.lead.toList, isBlank c = true) →
      IsNext l.token cs → Sliced ls cs → Sliced (l :: ls) (l.lead.toList ++ (l.token.text.toList ++ cs))

theorem Sliced.cons_lexemes {t : Token} {ts : List Token} {lead : String} {cs : List Char}
    (h : Sliced (lexemes "" ts) cs) (ht : IsNext t cs) (hlead : ∀ c ∈ lead.toList, isBlank c = true) :
    Sliced (lexemes lead (t :: ts)) (lead.toList ++ (t.text.toList ++ cs)) := by
  have hlex : lexemes lead (t :: ts) = ⟨lead, t⟩ :: lexemes "" ts := by simp [lexemes, ht.kind_ne_blank]
  rw [hlex]
  exact .cons hlead ht h

theorem sliced_lexemes {pos : Nat} {cs : List Char} (h : chars (pieces pos cs) = cs) {lead : String}
    (hlead : ∀ c ∈ lead.toList, isBlank c = true) : Sliced (lexemes lead (pieces pos cs)) (lead.toList ++ cs) := by
  fun_induction pieces pos cs generalizing lead with
  | case1 => simpa [lexemes] using Sliced.nil hlead
  | case2 pos c cs hc run ih =>
    have hrun : ∀ d ∈ run, isBlank d = true := isBlank_of_mem_run hc cs
    have hcs := eq_append_of_run c cs
    rw [chars, List.flatMap_cons, String.toList_ofList, hcs, List.append_right_inj] at h
    have hlead' : ∀ d ∈ (lead ++ String.ofList run).toList, isBlank d = true := by
      rw [String.toList_append, String.toList_ofList]
      exact List.forall_mem_append.mpr ⟨hlead, hrun⟩
    have hsliced := ih h hlead'
    rw [String.toList_append, String.toList_ofList, List.append_assoc, ← hcs] at hsliced
    simpa [lexemes] using hsliced
  | case3 pos c cs hc n hn ih =>
    have hrest := eq_append_of_numeral? hn
    rw [chars, List.flatMap_cons, String.toList_ofList, hrest, List.append_right_inj] at h
    have hnext : IsNext ⟨.numeric, pos, String.ofList n⟩ (cs.drop (n.length - 1)) := by
      refine .numeral rfl ?_
      rwa [String.toList_ofList, ← hrest]
    have hsliced := (ih h (by simp)).cons_lexemes hnext hlead
    rw [String.toList_ofList, String.toList_empty, List.nil_append, ← hrest] at hsliced
    exact hsliced
  | case4 pos c cs hc hn k hk ih =>
    rw [chars, List.flatMap_cons, String.toList_singleton, List.singleton_append, List.cons_inj_right] at h
    have hnext : IsNext ⟨k, pos, String.singleton c⟩ cs := .symbol hk rfl
    simpa using (ih h (by simp)).cons_lexemes hnext hlead
  | case5 pos c cs hc hn hk ih =>
    have hlen := (pieces_sublist (pos + c.utf8Size) cs).length_le
    rw [h] at hlen
    simp at hlen

def Lexeme.unplaced (l : Lexeme) : Lexeme := ⟨l.lead, { l.token with start := 0 }⟩

/-- A text that is sliced is cut into pieces that leave nothing out, which are its slices again. -/
theorem Sliced.exists_laid {ls : List Lexeme} {cs : List Char} (h : Sliced ls cs) :
    ∃ ws, ws.flatMap Prod.snd = cs ∧ (∀ pos, pieces pos cs = laid pos ws) ∧
      ∀ pos, (lexemes "" (laid pos ws)).map Lexeme.unplaced = ls.map Lexeme.unplaced := by
  induction h with
  | @nil trail htrail =>
    refine ⟨gapPiece trail, flatMap_gapPiece trail, fun pos => ?_, fun pos => ?_⟩
    · have hend : ∀ c ∈ ([] : List Char).head?, isBlank c = false := by simp
      simpa [pieces] using pieces_gap htrail hend pos
    · have hlex := lexemes_laid_gap "" pos trail []
      rw [List.append_nil] at hlex
      simp [hlex, laid, lexemes]
  | @cons l ls cs hlead hnext _ ih =>
    obtain ⟨ws, hcovers, hpieces, hlex⟩ := ih
    have hhead : ∀ c ∈ (l.token.text.toList ++ cs).head?, isBlank c = false := by
      obtain ⟨c, rest, hrest, hc⟩ := hnext.exists_head
      rw [hrest]
      rintro d ⟨⟩
      exact hc
    refine ⟨gapPiece l.lead.toList ++ (l.token.kind, l.token.text.toList) :: ws, ?_, fun pos => ?_, fun pos => ?_⟩
    · rw [List.flatMap_append, flatMap_gapPiece, List.flatMap_cons, hcovers]
    · rw [pieces_gap hlead hhead, hnext.pieces_eq, hpieces, laid_append, flatMap_gapPiece, laid, String.ofList_toList]
    · rw [lexemes_laid_gap, lexemes_laid_cons hnext.kind_ne_blank, List.map_cons, hlex, List.map_cons]
      simp [Lexeme.unplaced, String.ofList_toList]

/-! ## More white space -/

/-- The same token with other white space before it, some of it where there was some. -/
structure Widens (a b : Lexeme) : Prop where
  token_eq : b.token = a.token
  blank : ∀ c ∈ b.lead.toList, isBlank c = true
  lead_eq : b.lead = "" → a.lead = ""

/-- More white space before the lexemes breaks the text off, and the lexemes are its slices again. -/
theorem Sliced.widen {ls ls' : List Lexeme} {cs trail : List Char} (h : Sliced ls cs)
    (hls : List.Forall₂ Widens ls ls') (htrail : ∀ c ∈ trail, isBlank c = true) :
    Sliced ls' (ls'.flatMap Lexeme.chars ++ trail) ∧ Broken cs (ls'.flatMap Lexeme.chars ++ trail) := by
  induction hls generalizing cs with
  | nil => exact ⟨.nil htrail, broken_of_blank (fun c hc => htrail c (List.mem_of_mem_head? hc)) cs⟩
  | @cons l l' ls ls' hl _ ih =>
    cases h with
    | @cons _ _ cs hlead hnext hsliced =>
      obtain ⟨hsliced', hbroken⟩ := ih hsliced
      rw [List.flatMap_cons, Lexeme.chars, hl.token_eq, List.append_assoc, List.append_assoc]
      constructor
      · have hnext' := hnext.of_broken hbroken
        rw [← hl.token_eq] at hnext' ⊢
        exact .cons hl.blank hnext' hsliced'
      · by_cases hempty : l'.lead = ""
        · rw [hempty, hl.lead_eq hempty]
          exact hbroken.append l.token.text.toList
        · obtain ⟨c, gap, hgap⟩ : ∃ c gap, l'.lead.toList = c :: gap :=
            List.exists_cons_of_ne_nil (by simpa using hempty)
          refine broken_of_blank ?_ _
          rw [hgap]
          rintro d ⟨⟩
          exact hl.blank c (by simp [hgap])

/-! ## Joining -/

theorem Widens.exists_join {a b x : Lexeme} (h : Widens (a.join b) x) (hb : ∀ c ∈ b.lead.toList, isBlank c = true) :
    ∃ a', Widens a a' ∧ Widens b b ∧ a'.join b = x := by
  obtain ⟨lead, token⟩ := x
  have htoken : token = (a.join b).token := h.token_eq
  refine ⟨⟨lead, a.token⟩, ⟨rfl, h.blank, h.lead_eq⟩, ⟨rfl, hb, id⟩, ?_⟩
  rw [htoken]
  rfl

section
variable {ls ms : List Lexeme}

theorem joinFractions_eq_self (h : ls.length ≤ 1) : joinFractions ls = ls := by
  cases ls with
  | nil => rfl
  | cons a ls =>
    obtain rfl : ls = [] := by simpa using h
    rfl

theorem joinSigns_eq_self (free : Bool) (h : ls.length ≤ 1) : joinSigns free ls = ls := by
  cases ls with
  | nil => simp [joinSigns]
  | cons a ls =>
    obtain rfl : ls = [] := by simpa using h
    simp [joinSigns]

/-- More white space around the tokens, some of which have been joined, is more white space before they are. -/
theorem exists_widens_joinFractions (hls : ∀ l ∈ ls, ∀ c ∈ l.lead.toList, isBlank c = true)
    (h : List.Forall₂ Widens (joinFractions ls) ms) :
    ∃ ls', List.Forall₂ Widens ls ls' ∧ joinFractions ls' = ms := by
  fun_induction joinFractions ls generalizing ms with
  | case1 a b rest hjoin ih =>
    simp only [List.forall_mem_cons] at hls
    obtain ⟨x, xs, hx, hxs, rfl⟩ := List.forall₂_cons_left_iff.mp h
    obtain ⟨rest', hrest, rfl⟩ := ih hls.2.2 hxs
    obtain ⟨a', ha, hb, rfl⟩ := hx.exists_join hls.2.1
    refine ⟨a' :: b :: rest', .cons ha (.cons hb hrest), ?_⟩
    simp [joinFractions, ha.token_eq, hjoin]
  | case2 a b rest hjoin ih =>
    obtain ⟨x, xs, hx, hxs, rfl⟩ := List.forall₂_cons_left_iff.mp h
    obtain ⟨us, hus, rfl⟩ := ih (List.forall_mem_cons.mp hls).2 hxs
    obtain ⟨b', rest', hb, hrest, rfl⟩ := List.forall₂_cons_left_iff.mp hus
    refine ⟨x :: b' :: rest', .cons hx (.cons hb hrest), ?_⟩
    simp [joinFractions, hx.token_eq, hb.token_eq, hjoin]
  | case3 ls hshort => exact ⟨ms, h, joinFractions_eq_self (h.length_eq ▸ length_le_one_of_ne hshort)⟩

theorem exists_widens_joinSigns {free : Bool} (hls : ∀ l ∈ ls, ∀ c ∈ l.lead.toList, isBlank c = true)
    (h : List.Forall₂ Widens (joinSigns free ls) ms) :
    ∃ ls', List.Forall₂ Widens ls ls' ∧ joinSigns free ls' = ms := by
  fun_induction joinSigns free ls generalizing ms with
  | case1 free a b rest hjoin ih =>
    simp only [List.forall_mem_cons] at hls
    obtain ⟨x, xs, hx, hxs, rfl⟩ := List.forall₂_cons_left_iff.mp h
    obtain ⟨rest', hrest, rfl⟩ := ih hls.2.2 hxs
    obtain ⟨a', ha, hb, rfl⟩ := hx.exists_join hls.2.1
    refine ⟨a' :: b :: rest', .cons ha (.cons hb hrest), ?_⟩
    simp [joinSigns, ha.token_eq, hjoin]
  | case2 free a b rest hjoin ih =>
    obtain ⟨x, xs, hx, hxs, rfl⟩ := List.forall₂_cons_left_iff.mp h
    obtain ⟨us, hus, rfl⟩ := ih (List.forall_mem_cons.mp hls).2 hxs
    obtain ⟨b', rest', hb, hrest, rfl⟩ := List.forall₂_cons_left_iff.mp hus
    refine ⟨x :: b' :: rest', .cons hx (.cons hb hrest), ?_⟩
    simp [joinSigns, hx.token_eq, hb.token_eq, hjoin]
  | case3 free ls hshort => exact ⟨ms, h, joinSigns_eq_self free (h.length_eq ▸ length_le_one_of_ne hshort)⟩

end

theorem joinFractions_map_unplaced (ls : List Lexeme) :
    joinFractions (ls.map Lexeme.unplaced) = (joinFractions ls).map Lexeme.unplaced := by
  fun_induction joinFractions ls with
  | case1 a b rest hjoin ih =>
    have hjoin' : (a.unplaced.token.isInteger && b.unplaced.token.isFraction) = true := hjoin
    rw [List.map_cons, List.map_cons, joinFractions, if_pos hjoin', ih]
    rfl
  | case2 a b rest hjoin ih =>
    have hjoin' : ¬(a.unplaced.token.isInteger && b.unplaced.token.isFraction) = true := hjoin
    rw [List.map_cons, List.map_cons, joinFractions, if_neg hjoin', ← List.map_cons, ih]
    rfl
  | case3 ls hshort => exact joinFractions_eq_self (by simpa using length_le_one_of_ne hshort)

theorem joinSigns_map_unplaced (free : Bool) (ls : List Lexeme) :
    joinSigns free (ls.map Lexeme.unplaced) = (joinSigns free ls).map Lexeme.unplaced := by
  fun_induction joinSigns free ls with
  | case1 free a b rest hjoin ih =>
    have hjoin' : (free && a.unplaced.token.isMinus && b.unplaced.token.kind == .numeric) = true := hjoin
    rw [List.map_cons, List.map_cons, joinSigns, if_pos hjoin', ih]
    rfl
  | case2 free a b rest hjoin ih =>
    have hjoin' : ¬(free && a.unplaced.token.isMinus && b.unplaced.token.kind == .numeric) = true := hjoin
    have hnext : a.unplaced.token.expectsOperand = a.token.expectsOperand := rfl
    rw [List.map_cons, List.map_cons, joinSigns, if_neg hjoin', ← List.map_cons, hnext, ih]
    rfl
  | case3 free ls hshort => exact joinSigns_eq_self free (by simpa using length_le_one_of_ne hshort)

/-- Lexemes that differ in their places only are joined to the same tokens. -/
theorem symbol_joined_of_unplaced {ls ms : List Lexeme} (h : ls.map Lexeme.unplaced = ms.map Lexeme.unplaced) :
    (joinSigns true (joinFractions ls)).map (·.token.symbol) =
      (joinSigns true (joinFractions ms)).map (·.token.symbol) := by
  have hsymbols : ∀ ls : List Lexeme, (ls.map Lexeme.unplaced).map (·.token.symbol) = ls.map (·.token.symbol) := by
    intro ls
    rw [List.map_map]
    rfl
  rw [← hsymbols, ← joinSigns_map_unplaced, ← joinFractions_map_unplaced, h, joinFractions_map_unplaced,
    joinSigns_map_unplaced, hsymbols]

/-! ## Scanning -/

/-- The words of a text are its lexemes, so that more white space around the words is more before the lexemes. -/
theorem exists_widens_of_padded {ls : List Lexeme} {trail cs cs' : List Char}
    (hls : ∀ l ∈ ls, (∀ c ∈ l.lead.toList, isBlank c = true) ∧ IsScanned l.token)
    (hcs : cs = ls.flatMap Lexeme.chars ++ trail) (h : Padded (ls.map (·.token.text)) cs cs') :
    ∃ ls' trail', List.Forall₂ Widens ls ls' ∧ (∀ c ∈ trail', isBlank c = true) ∧
      cs' = ls'.flatMap Lexeme.chars ++ trail' := by
  induction ls generalizing cs cs' with
  | nil =>
    cases h with
    | nil _ hblank => exact ⟨[], cs', .nil, hblank, rfl⟩
  | cons l ls ih =>
    obtain ⟨⟨hlead, hl⟩, hls⟩ := List.forall_mem_cons.mp hls
    cases h with
    | @cons gap gap' ds ds' _ _ hsub hblank hpad =>
      have hhead : ∀ rest, ∀ c ∈ (l.token.text.toList ++ rest).head?, isBlank c = false := by
        obtain ⟨c, w, hw, hc⟩ := hl.exists_head
        rw [hw]
        rintro rest d ⟨⟩
        exact hc
      rw [List.flatMap_cons, Lexeme.chars, List.append_assoc, List.append_assoc] at hcs
      obtain ⟨rfl, hrest⟩ :=
        append_inj_of_stop (fun c hc => hblank c (hsub.subset hc)) hlead (hhead _) (hhead _) hcs
      obtain ⟨ls', trail', hwiden, htrail', rfl⟩ := ih hls (List.append_cancel_left hrest) hpad
      refine ⟨⟨String.ofList gap', l.token⟩ :: ls', trail', .cons ⟨rfl, ?_, ?_⟩ hwiden, htrail', ?_⟩
      · rwa [String.toList_ofList]
      · intro hempty
        have hnil : gap' = [] := by simpa using hempty
        rw [hnil, List.sublist_nil] at hsub
        simpa using hsub
      · rw [List.flatMap_cons, Lexeme.chars, String.toList_ofList, List.append_assoc, List.append_assoc]

theorem count_map_unplaced (k : TokenKind) (ls : List Lexeme) :
    count k ((ls.map Lexeme.unplaced).map (·.token)) = count k (ls.map (·.token)) := by
  rw [List.map_map, count, count, List.map_map, List.map_map]
  rfl

theorem map_token_of_widens {ls ls' : List Lexeme} (h : List.Forall₂ Widens ls ls') :
    ls'.map (·.token) = ls.map (·.token) := by
  induction h with
  | nil => rfl
  | cons hl _ ih => rw [List.map_cons, List.map_cons, hl.token_eq, ih]

/-- Slices with as many opening as closing parentheses are scanned as the tokens that they are joined to. -/
theorem Sliced.scan_eq {ls : List Lexeme} {s : String} (h : Sliced ls s.toList) (hne : s.toList ≠ [])
    (hcount : count .opening (ls.map (·.token)) = count .closing (ls.map (·.token))) :
    ∃ ts, scan s = .ok ts ∧
      ts.map Token.symbol = (joinSigns true (joinFractions ls)).map (·.token.symbol) := by
  obtain ⟨ws, hcovers, hpieces, hlex⟩ := h.exists_laid
  have hcountP : ∀ k : TokenKind, k ≠ .blank → ws.countP (·.1 == k) = count k (ls.map (·.token)) := by
    intro k hk
    rw [← count_map_unplaced, ← hlex 0, count_map_unplaced, count_lexemes hk, count_eq_countP, countP_laid]
  have hwne : ws ≠ [] := by
    rintro rfl
    exact hne hcovers.symm
  have hcheck := checkCover_laid hwne (by rw [hcountP _ (by decide), hcountP _ (by decide), hcount])
  have hsize : s.utf8ByteSize = byteLength (ws.flatMap Prod.snd) := by rw [utf8ByteSize_eq, hcovers]
  refine ⟨joined (laid 0 ws), ?_, ?_⟩
  · rw [scan_eq_joined, hpieces, hsize, hcheck]
    rfl
  · rw [← symbol_joined_of_unplaced (hlex 0), joined, List.map_map]
    rfl

/-- More white space around the tokens of a text leaves them as they are. -/
theorem scan_padded {s s' : String} {ts : List Token} (h : scan s = .ok ts)
    (hpad : Padded (ts.map Token.text) s.toList s'.toList) :
    ∃ ts', scan s' = .ok ts' ∧ ts'.map Token.symbol = ts.map Token.symbol := by
  obtain ⟨hcheck, rfl⟩ := checkCover_of_scan h
  have hchars := (chars_pieces_of_checkCover hcheck).1
  have hblank : ∀ c ∈ "".toList, isBlank c = true := by simp
  have hunsigned := unsignified_joinFractions (lexemes_pieces s)
  obtain ⟨trail, -, htext⟩ := exists_trail_joined hcheck
  rw [joined, List.map_map] at hpad
  obtain ⟨fs, trail', hfs, htrail', hs'⟩ := exists_widens_of_padded (isScanned_joined s) htext hpad
  obtain ⟨ms, hms, rfl⟩ := exists_widens_joinSigns (fun l hl => (hunsigned l hl).lead) hfs
  obtain ⟨ls, hls, rfl⟩ := exists_widens_joinFractions (fun l hl => (lexemes_pieces s l hl).1) hms
  have hsliced := ((sliced_lexemes hchars hblank).widen hls htrail').1
  rw [flatMap_joinSigns, flatMap_joinFractions] at hs'
  rw [← hs'] at hsliced
  have hne : s'.toList ≠ [] := by
    intro hnil
    have hempty := hpad.sublist
    rw [hnil, List.sublist_nil] at hempty
    simp [hempty, pieces, checkCover] at hcheck
  have hcount : count .opening (ls.map (·.token)) = count .closing (ls.map (·.token)) := by
    rw [map_token_of_widens hls, count_lexemes (by decide), count_lexemes (by decide), count_eq_countP,
      count_eq_countP]
    exact (chars_pieces_of_checkCover hcheck).2
  obtain ⟨ts', hscan, hts'⟩ := hsliced.scan_eq hne hcount
  refine ⟨ts', hscan, ?_⟩
  have htokens := congrArg (List.map Token.symbol) (map_token_of_widens hfs)
  rw [List.map_map] at htokens
  exact hts'.trans htokens

end Token

end ExactCalc
