import Mathlib
import ExactCalc.Proofs.Token.Pieces

/-!
# The passes over a text

What the passes find, in order and without the parentheses of periods, are the pieces of the text
(`raw_eq_pieces`). Each pass finds the pieces of its kind: the white space (`findAll_blanks`), the numerals
(`findAll_numerals`), and the signs and parentheses, of which those within a numeral are dropped
(`filter_findAll_symbols`). No two pieces start at the same place (`pairwise_pieces`), so there is one way to
put them in order.
-/

namespace ExactCalc

open Text

namespace Token

/-! ## Looking for a pattern -/

section
variable {kind : TokenKind} {pattern : List Char → Option (List Char)} {pos : Nat} {c : Char} {cs w : List Char}

theorem findAll_of_some (h : pattern (c :: cs) = some w) : findAll kind pattern pos (c :: cs) =
    ⟨kind, pos, String.ofList w⟩ :: findAll kind pattern (pos + byteLength w) (cs.drop (w.length - 1)) := by
  rw [findAll, h]

theorem findAll_of_none (h : pattern (c :: cs) = none) :
    findAll kind pattern pos (c :: cs) = findAll kind pattern (pos + c.utf8Size) cs := by
  rw [findAll, h]

theorem findAll_append (h : ∀ c ∈ w, ∀ rest, pattern (c :: rest) = none) (pos : Nat) (rest : List Char) :
    findAll kind pattern pos (w ++ rest) = findAll kind pattern (pos + byteLength w) rest := by
  induction w generalizing pos with
  | nil => rfl
  | cons c w ih =>
    obtain ⟨hc, hw⟩ := List.forall_mem_cons.mp h
    rw [List.cons_append, findAll_of_none (hc _), ih hw, byteLength, Nat.add_assoc]

theorem kind_of_mem_findAll {t : Token} (h : t ∈ findAll kind pattern pos cs) : t.kind = kind := by
  fun_induction findAll kind pattern pos cs with
  | case1 => cases h
  | case2 pos c cs w hw ih =>
    obtain rfl | h := List.mem_cons.mp h
    · rfl
    · exact ih h
  | case3 pos c cs hnone ih => exact ih h

end

/-! ## Where pieces start -/

theorem numeral?_eq_none {c : Char} (hd : isDigit c = false) (hp : c ≠ '.') (cs : List Char) :
    numeral? (c :: cs) = none := by
  simp [numeral?, hd, hp]

theorem le_start_of_mem_pieces {pos : Nat} {cs : List Char} {t : Token} (h : t ∈ pieces pos cs) : pos ≤ t.start := by
  fun_induction pieces pos cs with
  | case1 => cases h
  | case2 pos c cs hc run ih =>
    obtain rfl | h := List.mem_cons.mp h
    · exact le_rfl
    · exact (Nat.le_add_right _ _).trans (ih h)
  | case3 pos c cs hc n hn ih =>
    obtain rfl | h := List.mem_cons.mp h
    · exact le_rfl
    · exact (Nat.le_add_right _ _).trans (ih h)
  | case4 pos c cs hc hn k hk ih =>
    obtain rfl | h := List.mem_cons.mp h
    · exact le_rfl
    · exact (Nat.le_add_right _ _).trans (ih h)
  | case5 pos c cs hc hn hk ih => exact (Nat.le_add_right _ _).trans (ih h)

theorem pairwise_pieces (pos : Nat) (cs : List Char) : (pieces pos cs).Pairwise (·.start < ·.start) := by
  have hlt : ∀ {pos : Nat} {w cs : List Char}, w ≠ [] → ∀ t ∈ pieces (pos + byteLength w) cs, pos < t.start := by
    intro pos w cs hne t ht
    have hle := le_start_of_mem_pieces ht
    obtain ⟨c, w, rfl⟩ := List.exists_cons_of_ne_nil hne
    have hpos := Char.utf8Size_pos c
    rw [byteLength] at hle
    omega
  fun_induction pieces pos cs with
  | case1 => exact .nil
  | case2 pos c cs hc run ih => exact .cons (hlt (List.cons_ne_nil _ _)) ih
  | case3 pos c cs hc n hn ih => exact .cons (hlt (numeral?_cases hn).1.ne_nil) ih
  | case4 pos c cs hc hn k hk ih => exact .cons (by simpa [byteLength] using @hlt pos [c] cs (by simp)) ih
  | case5 pos c cs hc hn hk ih => exact ih

/-! ## What the passes find -/

theorem blanks?_of_not {c : Char} (h : isBlank c = false) (cs : List Char) : blanks? (c :: cs) = none := by
  simp [blanks?, h]

theorem findAll_blanks (pos : Nat) (cs : List Char) :
    findAll .blank blanks? pos cs = (pieces pos cs).filter (·.kind == .blank) := by
  fun_induction pieces pos cs with
  | case1 => rw [findAll]; rfl
  | case2 pos c cs hc run ih =>
    have hrun : blanks? (c :: cs) = some run := by simp [blanks?, hc, run]
    have hdrop : cs.drop (run.length - 1) = cs.dropWhile isBlank := by
      have hsplit := List.takeWhile_append_dropWhile (p := isBlank) (l := cs)
      nth_rewrite 1 [← hsplit]
      exact List.drop_left
    rw [findAll_of_some hrun, hdrop, ih]
    rfl
  | case3 pos c cs hc n hn ih =>
    have hskip : ∀ d ∈ n, ∀ rest, blanks? (d :: rest) = none := fun d hd =>
      blanks?_of_not ((numeral?_cases hn).1.isBlank_eq_false d hd)
    rw [eq_append_of_numeral? hn, findAll_append hskip, ih]
    rfl
  | case4 pos c cs hc hn k hk ih =>
    rw [findAll_of_none (blanks?_of_not (by simpa using hc) cs), ih,
      List.filter_cons_of_neg (by simp [(symbolKind?_eq_some hk).2.2.2.1])]
  | case5 pos c cs hc hn hk ih => rw [findAll_of_none (blanks?_of_not (by simpa using hc) cs), ih]

theorem findAll_numerals (pos : Nat) (cs : List Char) :
    findAll .numeric numeral? pos cs = (pieces pos cs).filter (·.kind == .numeric) := by
  fun_induction pieces pos cs with
  | case1 => rw [findAll]; rfl
  | case2 pos c cs hc run ih =>
    have hskip : ∀ d ∈ run, ∀ rest, numeral? (d :: rest) = none := by
      intro d hd
      have hblank := isBlank_of_mem_run hc cs d hd
      exact numeral?_eq_none (isDigit_of_isBlank hblank) (ne_of_isBlank hblank (by decide))
    rw [eq_append_of_run c cs, findAll_append hskip, ih]
    rfl
  | case3 pos c cs hc n hn ih =>
    rw [findAll_of_some hn, ih]
    rfl
  | case4 pos c cs hc hn k hk ih =>
    rw [findAll_of_none hn, ih, List.filter_cons_of_neg (by simp [(symbolKind?_eq_some hk).2.2.2.2])]
  | case5 pos c cs hc hn hk ih => rw [findAll_of_none hn, ih]

section
variable {k : TokenKind} {symbols : List Char}

theorem oneOf?_of_mem {c : Char} (h : c ∈ symbols) (cs : List Char) : oneOf? symbols (c :: cs) = some [c] := by
  rw [oneOf?, if_pos h]

theorem oneOf?_of_not_mem {c : Char} (h : c ∉ symbols) (cs : List Char) : oneOf? symbols (c :: cs) = none := by
  rw [oneOf?, if_neg h]

theorem findAll_of_mem {c : Char} (h : c ∈ symbols) (pos : Nat) (cs : List Char) :
    findAll k (oneOf? symbols) pos (c :: cs) =
      ⟨k, pos, String.singleton c⟩ :: findAll k (oneOf? symbols) (pos + c.utf8Size) cs := by
  rw [findAll_of_some (oneOf?_of_mem h cs)]
  simp [byteLength]

theorem findAll_oneOf?_append (pos : Nat) (w rest : List Char) :
    findAll k (oneOf? symbols) pos (w ++ rest) =
      findAll k (oneOf? symbols) pos w ++ findAll k (oneOf? symbols) (pos + byteLength w) rest := by
  induction w generalizing pos with
  | nil =>
    rw [findAll]
    rfl
  | cons c w ih =>
    rw [List.cons_append, byteLength, ← Nat.add_assoc]
    by_cases hc : c ∈ symbols
    · rw [findAll_of_mem hc, findAll_of_mem hc, ih, List.cons_append]
    · rw [findAll_of_none (oneOf?_of_not_mem hc _), findAll_of_none (oneOf?_of_not_mem hc _), ih]

theorem bounds_of_mem_findAll {pos : Nat} {w : List Char} {t : Token} (h : t ∈ findAll k (oneOf? symbols) pos w) :
    (∃ c ∈ w, c ∈ symbols) ∧ pos ≤ t.start ∧ t.start < t.stop ∧ t.stop ≤ pos + byteLength w := by
  induction w generalizing pos with
  | nil => simp [findAll] at h
  | cons c w ih =>
    have hpos := Char.utf8Size_pos c
    rw [byteLength]
    by_cases hc : c ∈ symbols
    · rw [findAll_of_mem hc] at h
      obtain rfl | h := List.mem_cons.mp h
      · refine ⟨⟨c, by simp, hc⟩, le_rfl, ?_, ?_⟩
        · simpa [stop] using hpos
        · simp [stop]
      · obtain ⟨⟨d, hd, hmem⟩, hstart, hstop, hend⟩ := ih h
        exact ⟨⟨d, by simp [hd], hmem⟩, by omega, hstop, by omega⟩
    · rw [findAll_of_none (oneOf?_of_not_mem hc w)] at h
      obtain ⟨⟨d, hd, hmem⟩, hstart, hstop, hend⟩ := ih h
      exact ⟨⟨d, by simp [hd], hmem⟩, by omega, hstop, by omega⟩

/-- The characters that are tokens of this kind. -/
structure AreSymbols (k : TokenKind) (symbols : List Char) : Prop where
  mem_iff : ∀ c, c ∈ symbols ↔ symbolKind? c = some k
  ne_blank : k ≠ .blank
  ne_numeric : k ≠ .numeric

theorem areSymbols_operation : AreSymbols .operation operationSymbols := by
  refine ⟨fun c => ⟨fun h => ?_, fun h => ?_⟩, by decide, by decide⟩
  · simp only [operationSymbols, List.mem_cons, List.not_mem_nil, or_false] at h
    rcases h with rfl | rfl | rfl | rfl | rfl | rfl <;> rfl
  · obtain ⟨hk, -⟩ | ⟨hk, -⟩ | ⟨-, hmem⟩ := symbolKind?_cases h
    · cases hk
    · cases hk
    · simp only [List.mem_cons, List.not_mem_nil, or_false] at hmem
      rcases hmem with rfl | rfl | rfl | rfl | rfl | rfl <;> decide

theorem areSymbols_opening : AreSymbols .opening ['('] := by
  refine ⟨fun c => ⟨fun h => ?_, fun h => ?_⟩, by decide, by decide⟩
  · obtain rfl := List.mem_singleton.mp h
    rfl
  · obtain ⟨-, rfl⟩ | ⟨hk, -⟩ | ⟨hk, -⟩ := symbolKind?_cases h
    · exact List.mem_singleton_self _
    · cases hk
    · cases hk

theorem areSymbols_closing : AreSymbols .closing [')'] := by
  refine ⟨fun c => ⟨fun h => ?_, fun h => ?_⟩, by decide, by decide⟩
  · obtain rfl := List.mem_singleton.mp h
    rfl
  · obtain ⟨hk, -⟩ | ⟨-, rfl⟩ | ⟨hk, -⟩ := symbolKind?_cases h
    · cases hk
    · exact List.mem_singleton_self _
    · cases hk

theorem isWithin_iff {t u : Token} : t.isWithin u = true ↔ u.start ≤ t.start ∧ t.stop ≤ u.stop := by
  simp [isWithin]

theorem stop_ofList (k : TokenKind) (pos : Nat) (w : List Char) :
    stop ⟨k, pos, String.ofList w⟩ = pos + byteLength w := by
  rw [stop, utf8ByteSize_ofList]

theorem belongsTo_cons_of_not_isWithin {t n : Token} {ps : List Token} (h : t.isWithin n = false) :
    t.belongsTo (n :: ps) = t.belongsTo ps := by
  simp [belongsTo, h]

/-- What is found within a numeral are the parentheses of its period. -/
theorem belongsTo_of_mem_findAll (h : AreSymbols k symbols) {pos : Nat} {n : List Char} (hn : NumeralPiece n)
    {t : Token} (ht : t ∈ findAll k (oneOf? symbols) pos n) (ps : List Token) :
    t.belongsTo ((⟨.numeric, pos, String.ofList n⟩ :: ps : List Token).filter isPeriodic) = true := by
  obtain ⟨⟨d, hd, hmem⟩, hstart, -, hend⟩ := bounds_of_mem_findAll ht
  have hsymbol := (h.mem_iff d).mp hmem
  have hbracket : d = '(' ∧ k = .opening ∨ d = ')' ∧ k = .closing := by
    obtain hdigit | hmarks := hn.isDigit_or_mem d hd
    · rw [(symbolKind?_eq_some hsymbol).2.1] at hdigit
      cases hdigit
    · simp only [List.mem_cons, List.not_mem_nil, or_false] at hmarks
      rcases hmarks with rfl | rfl | rfl | rfl | rfl | rfl <;> simp [symbolKind?] at hsymbol <;> simp [hsymbol]
  have hperiodic : isPeriodic ⟨.numeric, pos, String.ofList n⟩ = true := by
    have hany : (n.any fun c => c == '(' || c == ')') = true := by
      rw [List.any_eq_true]
      exact ⟨d, hd, by rcases hbracket with ⟨rfl, -⟩ | ⟨rfl, -⟩ <;> rfl⟩
    simpa [isPeriodic] using hany
  have hparenthesis : t.isParenthesis = true := by
    rw [isParenthesis, kind_of_mem_findAll ht]
    rcases hbracket with ⟨-, rfl⟩ | ⟨-, rfl⟩ <;> rfl
  have hwithin : t.isWithin ⟨.numeric, pos, String.ofList n⟩ = true := by
    rw [isWithin_iff, stop_ofList]
    exact ⟨hstart, hend⟩
  rw [List.filter_cons_of_pos hperiodic, belongsTo, List.any_cons, hparenthesis, hwithin]
  rfl

theorem belongsTo_of_behind {pos : Nat} {n cs : List Char} {t : Token}
    (ht : t ∈ findAll k (oneOf? symbols) (pos + byteLength n) cs) (ps : List Token) :
    t.belongsTo ((⟨.numeric, pos, String.ofList n⟩ :: ps : List Token).filter isPeriodic) =
      t.belongsTo (ps.filter isPeriodic) := by
  rw [List.filter_cons]
  split_ifs
  · refine belongsTo_cons_of_not_isWithin (Bool.eq_false_iff.mpr fun hwithin => ?_)
    obtain ⟨-, hstart, hlt, -⟩ := bounds_of_mem_findAll ht
    have hend := (isWithin_iff.mp hwithin).2
    rw [stop_ofList] at hend
    omega
  · rfl

theorem belongsTo_pieces_of_before {t : Token} {pos : Nat} (h : t.start < pos) (cs : List Char) :
    t.belongsTo ((pieces pos cs).filter isPeriodic) = false := by
  refine Bool.eq_false_iff.mpr fun hbelongs => ?_
  obtain ⟨n, hmem, hwithin⟩ := List.any_eq_true.mp (Bool.and_eq_true _ _ ▸ hbelongs).2
  have hle := le_start_of_mem_pieces (List.mem_of_mem_filter hmem)
  have hstart := (isWithin_iff.mp hwithin).1
  omega

/-- The symbols of one kind, without those within a numeral. -/
theorem filter_findAll_symbols (h : AreSymbols k symbols) (pos : Nat) (cs : List Char) :
    (findAll k (oneOf? symbols) pos cs).filter (fun t => !t.belongsTo ((pieces pos cs).filter isPeriodic)) =
      (pieces pos cs).filter (·.kind == k) := by
  have hnot : ∀ {c : Char}, symbolKind? c ≠ some k → ∀ rest, oneOf? symbols (c :: rest) = none := fun hc =>
    oneOf?_of_not_mem (mt (h.mem_iff _).mp hc)
  fun_induction pieces pos cs with
  | case1 => rw [findAll]; rfl
  | case2 pos c cs hc run ih =>
    have hskip : ∀ d ∈ run, ∀ rest, oneOf? symbols (d :: rest) = none := by
      refine fun d hd => hnot fun hsymbol => ?_
      have hblank := isBlank_of_mem_run hc cs d hd
      rw [(symbolKind?_eq_some hsymbol).1] at hblank
      cases hblank
    have hperiodic : isPeriodic ⟨.blank, pos, String.ofList run⟩ = false := rfl
    rw [eq_append_of_run c cs, findAll_append hskip, List.filter_cons_of_neg (by simp [hperiodic]), ih,
      List.filter_cons_of_neg (by simpa using h.ne_blank.symm)]
  | case3 pos c cs hc n hn ih =>
    have hwithin : (findAll k (oneOf? symbols) pos n).filter (fun t => !t.belongsTo
        ((⟨.numeric, pos, String.ofList n⟩ :: pieces (pos + byteLength n)
          (cs.drop (n.length - 1))).filter isPeriodic)) = [] := by
      refine List.filter_eq_nil_iff.mpr fun t ht => ?_
      simp [belongsTo_of_mem_findAll h (numeral?_cases hn).1 ht]
    rw [eq_append_of_numeral? hn, findAll_oneOf?_append, List.filter_append, hwithin, List.nil_append,
      List.filter_congr fun t ht => by rw [belongsTo_of_behind ht], ih,
      List.filter_cons_of_neg (by simpa using h.ne_numeric.symm)]
  | case4 pos c cs hc hn k' hk ih =>
    have hperiodic : isPeriodic ⟨k', pos, String.singleton c⟩ = false := by
      simp [isPeriodic, (symbolKind?_eq_some hk).2.2.2.2]
    rw [List.filter_cons_of_neg (by simp [hperiodic])]
    by_cases hkind : k' = k
    · subst hkind
      have hkept := belongsTo_pieces_of_before (t := ⟨k', pos, String.singleton c⟩)
        (Nat.lt_add_of_pos_right (Char.utf8Size_pos c)) cs
      rw [findAll_of_mem ((h.mem_iff c).mpr hk), List.filter_cons_of_pos (by simp [hkept]), ih,
        List.filter_cons_of_pos (by simp)]
    · rw [findAll_of_none (hnot (by simp [hk, hkind]) cs), ih, List.filter_cons_of_neg (by simp [hkind])]
  | case5 pos c cs hc hn hk ih => rw [findAll_of_none (hnot (by simp [hk]) cs), ih]

end

/-! ## Putting in order -/

theorem belongsTo_of_kind {t : Token} (ho : t.kind ≠ .opening) (hc : t.kind ≠ .closing) (ps : List Token) :
    t.belongsTo ps = false := by
  simp [belongsTo, isParenthesis, ho, hc]

theorem filter_findAll_of_kind {k : TokenKind} (ho : k ≠ .opening) (hc : k ≠ .closing)
    (pattern : List Char → Option (List Char)) (cs : List Char) (ps : List Token) :
    (findAll k pattern 0 cs).filter (fun t => !t.belongsTo ps) = findAll k pattern 0 cs := by
  refine List.filter_eq_self.mpr fun t ht => ?_
  have hk := kind_of_mem_findAll ht
  rw [belongsTo_of_kind (hk ▸ ho) (hk ▸ hc)]
  rfl

theorem filter_isPeriodic_of_kind {k : TokenKind} (hk : k ≠ .numeric) (pattern : List Char → Option (List Char))
    (cs : List Char) : (findAll k pattern 0 cs).filter isPeriodic = [] := by
  refine List.filter_eq_nil_iff.mpr fun t ht => ?_
  simp [isPeriodic, kind_of_mem_findAll ht, hk]

theorem belongsTo_congr {ps qs : List Token} (h : ps.Perm qs) (t : Token) : t.belongsTo ps = t.belongsTo qs := by
  rw [belongsTo, belongsTo, h.any_eq]

theorem perm_filter_kind (ts : List Token) :
    (ts.filter (·.kind == .blank) ++ ts.filter (·.kind == .numeric) ++ ts.filter (·.kind == .operation) ++
      ts.filter (·.kind == .opening) ++ ts.filter (·.kind == .closing)).Perm ts := by
  refine List.perm_iff_count.mpr fun t => ?_
  simp only [List.count_append]
  have hcount : ∀ k : TokenKind, (ts.filter (·.kind == k)).count t = if t.kind = k then ts.count t else 0 := by
    intro k
    split_ifs with hk
    · exact List.count_filter (by simpa using hk)
    · exact List.count_eq_zero.mpr fun hmem => hk (by simpa using List.of_mem_filter hmem)
  simp only [hcount]
  cases t.kind <;> simp

theorem eq_of_start_eq {pos : Nat} {cs : List Char} {t u : Token} (ht : t ∈ pieces pos cs) (hu : u ∈ pieces pos cs)
    (h : t.start = u.start) : t = u := by
  have hnodup : ((pieces pos cs).map Token.start).Nodup :=
    List.pairwise_map.mpr ((pairwise_pieces pos cs).imp Nat.ne_of_lt)
  exact List.inj_on_of_nodup_map hnodup ht hu h

/-- The passes find the pieces of a text. -/
theorem raw_eq_pieces (s : String) : raw s = pieces 0 s.toList := by
  unfold raw
  extract_lets cs found sorted periodics
  have hperm : sorted.Perm found := List.mergeSort_perm found _
  have hsorted : sorted.Pairwise (·.start ≤ ·.start) :=
    List.pairwise_mergeSort' (fun t u : Token => t.start ≤ u.start) found
  have hperiodics : periodics.Perm ((pieces 0 cs).filter isPeriodic) := by
    have hnumerals : ((pieces 0 cs).filter (·.kind == .numeric)).filter isPeriodic =
      (pieces 0 cs).filter isPeriodic := by
      rw [List.filter_filter]
      exact List.filter_congr fun t _ => by simp [isPeriodic, Bool.and_comm]
    have hfound : found.filter isPeriodic = (pieces 0 cs).filter isPeriodic := by
      simp only [found, List.filter_append, findAll_numerals, hnumerals]
      rw [filter_isPeriodic_of_kind (by decide), filter_isPeriodic_of_kind (by decide),
        filter_isPeriodic_of_kind (by decide), filter_isPeriodic_of_kind (by decide)]
      simp
    exact hfound ▸ hperm.filter isPeriodic
  have hfound : found.filter (fun t => !t.belongsTo ((pieces 0 cs).filter isPeriodic)) =
      (pieces 0 cs).filter (·.kind == .blank) ++ (pieces 0 cs).filter (·.kind == .numeric) ++
        (pieces 0 cs).filter (·.kind == .operation) ++ (pieces 0 cs).filter (·.kind == .opening) ++
        (pieces 0 cs).filter (·.kind == .closing) := by
    simp only [found, List.filter_append]
    rw [filter_findAll_of_kind (by decide) (by decide), filter_findAll_of_kind (by decide) (by decide),
      filter_findAll_symbols areSymbols_operation, filter_findAll_symbols areSymbols_opening,
      filter_findAll_symbols areSymbols_closing, findAll_blanks, findAll_numerals]
  have hkept : (sorted.filter fun t => !t.belongsTo periodics).Perm (pieces 0 cs) := by
    simp only [belongsTo_congr hperiodics]
    exact (hperm.filter _).trans (hfound ▸ perm_filter_kind (pieces 0 cs))
  refine hkept.eq_of_pairwise ?_ (hsorted.filter _) ((pairwise_pieces 0 cs).imp Nat.le_of_lt)
  exact fun t u ht hu htu hut => eq_of_start_eq (hkept.mem_iff.mp ht) hu (Nat.le_antisymm htu hut)

end Token

end ExactCalc
