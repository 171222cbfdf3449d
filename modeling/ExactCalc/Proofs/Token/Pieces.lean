import Mathlib
import ExactCalc.Token.Scan
import ExactCalc.Proofs.Text.Digits

/-!
# The pieces of a text

`pieces` cuts a text into white space, numerals and single characters in one go from left to right, and passes over
the characters that belong to none. A numeral at the head of a text has one of four shapes (`numeral?_cases`), so every
piece is of one of three sorts (`IsPiece`), and the pieces never hold more than the text (`pieces_sublist`). The
check of the pieces counts bytes, and a part of a text with as many bytes as the text is the text.

* `laid pos ws` lays the words `ws` out as tokens from the offset `pos` on, each directly after the one before.
-/

namespace ExactCalc

open Text

namespace Token

def symbolKind? : Char → Option TokenKind
  | '(' => some .opening
  | ')' => some .closing
  | '+' | '-' | '*' | '/' | 'x' | '%' => some .operation
  | _ => none

/-- The pieces of the characters from byte offset `pos` on. -/
def pieces (pos : Nat) : List Char → List Token
  | [] => []
  | c :: cs =>
    if isBlank c then
      let run := c :: cs.takeWhile isBlank
      ⟨.blank, pos, String.ofList run⟩ :: pieces (pos + byteLength run) (cs.dropWhile isBlank)
    else
      match numeral? (c :: cs) with
      | some n => ⟨.numeric, pos, String.ofList n⟩ :: pieces (pos + byteLength n) (cs.drop (n.length - 1))
      | none =>
        match symbolKind? c with
        | some k => ⟨k, pos, String.singleton c⟩ :: pieces (pos + c.utf8Size) cs
        | none => pieces (pos + c.utf8Size) cs
termination_by cs => cs.length
decreasing_by
  · exact Nat.lt_succ_of_le (List.dropWhile_sublist _).length_le
  · rw [List.length_drop, List.length_cons]; omega
  · exact Nat.lt_succ_self _
  · exact Nat.lt_succ_self _

theorem symbolKind?_eq_some {c : Char} {k : TokenKind} (h : symbolKind? c = some k) :
    isBlank c = false ∧ isDigit c = false ∧ c ≠ '.' ∧ k ≠ .blank ∧ k ≠ .numeric := by
  unfold symbolKind? at h
  split at h <;> first | (obtain rfl := Option.some.inj h; decide) | simp at h

theorem symbolKind?_cases {c : Char} {k : TokenKind} (h : symbolKind? c = some k) :
    k = .opening ∧ c = '(' ∨ k = .closing ∧ c = ')' ∨
      k = .operation ∧ c ∈ ['+', '-', '*', '/', 'x', '%'] := by
  unfold symbolKind? at h
  split at h <;> first | (obtain rfl := Option.some.inj h; decide) | simp at h

/-! ## Laying out words -/

def laid (pos : Nat) : List (TokenKind × List Char) → List Token
  | [] => []
  | (k, w) :: ws => ⟨k, pos, String.ofList w⟩ :: laid (pos + byteLength w) ws

theorem byteLength_append (cs ds : List Char) : byteLength (cs ++ ds) = byteLength cs + byteLength ds := by
  induction cs with
  | nil => simp [byteLength]
  | cons c cs ih => simp [byteLength, ih, Nat.add_assoc]

theorem laid_append (pos : Nat) (vs ws : List (TokenKind × List Char)) :
    laid pos (vs ++ ws) = laid pos vs ++ laid (pos + byteLength (vs.flatMap Prod.snd)) ws := by
  induction vs generalizing pos with
  | nil => simp [laid, byteLength]
  | cons v vs ih => simp [laid, ih, byteLength_append, Nat.add_assoc]

/-! ## Shapes of numerals -/

def Brackets (l r : Char) : Prop := l = '(' ∧ r = ')' ∨ l = '[' ∧ r = ']'

theorem Brackets.isDigit_left {l r : Char} (h : Brackets l r) : isDigit l = false := by
  obtain ⟨rfl, -⟩ | ⟨rfl, -⟩ := h <;> decide

theorem Brackets.isDigit_right {l r : Char} (h : Brackets l r) : isDigit r = false := by
  obtain ⟨-, rfl⟩ | ⟨-, rfl⟩ := h <;> decide

/-- The four shapes of a numeral piece. -/
inductive NumeralPiece : List Char → Prop
  | whole {ds : List Char} : (∀ c ∈ ds, isDigit c = true) → ds ≠ [] → NumeralPiece ds
  | fraction {fs mark : List Char} : (∀ c ∈ fs, isDigit c = true) → fs ≠ [] → mark = [] ∨ mark = ['r'] →
      NumeralPiece ('.' :: (fs ++ mark))
  | lastDigit {ds fs : List Char} : (∀ c ∈ ds, isDigit c = true) → ds ≠ [] → (∀ c ∈ fs, isDigit c = true) →
      fs ≠ [] → NumeralPiece (ds ++ '.' :: (fs ++ ['r']))
  | period {ds fs ps mark : List Char} {l r : Char} : (∀ c ∈ ds, isDigit c = true) →
      (∀ c ∈ fs, isDigit c = true) → (∀ c ∈ ps, isDigit c = true) → ps ≠ [] → Brackets l r →
      mark = [] ∨ mark = ['r'] → NumeralPiece (ds ++ '.' :: (fs ++ l :: (ps ++ r :: mark)))

theorem recurringMark_cases (cs : List Char) :
    (recurringMark cs = [] ∨ recurringMark cs = ['r']) ∧ ∃ rest, cs = recurringMark cs ++ rest := by
  unfold recurringMark
  split_ifs with h
  · obtain ⟨rest, rfl⟩ := List.head?_eq_some_iff.mp h
    exact ⟨.inr rfl, rest, rfl⟩
  · exact ⟨.inl rfl, cs, rfl⟩

theorem periodUntil?_cases {r : Char} {cs n : List Char} (h : periodUntil? r cs = some n) :
    ∃ ps mark rest, cs = n ++ rest ∧ n = ps ++ r :: mark ∧ (∀ c ∈ ps, isDigit c = true) ∧ ps ≠ [] ∧
      (mark = [] ∨ mark = ['r']) := by
  have hsplit := List.takeWhile_append_dropWhile (p := isDigit) (l := cs)
  have hdigits : ∀ c ∈ cs.takeWhile isDigit, isDigit c = true := fun c hc => List.mem_takeWhile_imp hc
  unfold periodUntil? at h
  simp only at h
  split at h
  · rename_i c after hafter
    split_ifs at h with hif
    simp only [Bool.and_eq_true, decide_eq_true_eq, Bool.not_eq_true', List.isEmpty_eq_false_iff] at hif
    obtain ⟨rfl, hne⟩ := hif
    obtain rfl := Option.some.inj h
    obtain ⟨hmark, rest, hrest⟩ := recurringMark_cases after
    refine ⟨_, _, rest, ?_, rfl, hdigits, hne, hmark⟩
    rw [List.append_assoc, List.cons_append, ← hrest, ← hafter, hsplit]
  · simp at h

theorem period?_cases {cs n : List Char} (h : period? cs = some n) :
    ∃ l r ps mark rest, cs = n ++ rest ∧ n = l :: (ps ++ r :: mark) ∧ Brackets l r ∧
      (∀ c ∈ ps, isDigit c = true) ∧ ps ≠ [] ∧ (mark = [] ∨ mark = ['r']) := by
  unfold period? at h
  split at h
  · obtain ⟨m, hm, rfl⟩ := Option.map_eq_some_iff.mp h
    obtain ⟨ps, mark, rest, hcs, rfl, hp, hne, hmark⟩ := periodUntil?_cases hm
    exact ⟨'(', ')', ps, mark, rest, by rw [hcs]; rfl, rfl, .inl ⟨rfl, rfl⟩, hp, hne, hmark⟩
  · obtain ⟨m, hm, rfl⟩ := Option.map_eq_some_iff.mp h
    obtain ⟨ps, mark, rest, hcs, rfl, hp, hne, hmark⟩ := periodUntil?_cases hm
    exact ⟨'[', ']', ps, mark, rest, by rw [hcs]; rfl, rfl, .inr ⟨rfl, rfl⟩, hp, hne, hmark⟩
  · simp at h

theorem numeral?_cases {cs n : List Char} (h : numeral? cs = some n) : NumeralPiece n ∧ ∃ rest, cs = n ++ rest := by
  have hsplit := List.takeWhile_append_dropWhile (p := isDigit) (l := cs)
  have hwhole : ∀ c ∈ cs.takeWhile isDigit, isDigit c = true := fun c hc => List.mem_takeWhile_imp hc
  unfold numeral? at h
  simp only at h
  split at h
  · rename_i after hafter
    have hafterSplit := List.takeWhile_append_dropWhile (p := isDigit) (l := after)
    have hfixed : ∀ c ∈ after.takeWhile isDigit, isDigit c = true := fun c hc => List.mem_takeWhile_imp hc
    rw [hafter] at hsplit
    split at h
    · -- a period in brackets
      rename_i period hperiod
      obtain rfl := Option.some.inj h
      obtain ⟨l, r, ps, mark, rest, hrest, rfl, hb, hp, hne, hmark⟩ := period?_cases hperiod
      refine ⟨.period hwhole hfixed hp hne hb hmark, rest, ?_⟩
      rw [List.append_assoc, List.cons_append, List.append_assoc, ← hrest, hafterSplit, hsplit]
    · split_ifs at h with hempty hfempty hmark
      · -- a fraction without digits before the point
        obtain rfl := Option.some.inj h
        obtain ⟨hmark, rest, hrest⟩ := recurringMark_cases (after.dropWhile isDigit)
        refine ⟨.fraction hfixed (by simpa using hfempty) hmark, rest, ?_⟩
        rw [List.isEmpty_iff.mp hempty, List.nil_append] at hsplit
        rw [List.cons_append, List.append_assoc, ← hrest, hafterSplit, hsplit]
      · -- a fraction with its mark
        obtain rfl := Option.some.inj h
        simp only [Bool.and_eq_true, Bool.not_eq_true', List.isEmpty_eq_false_iff, decide_eq_true_eq] at hmark
        obtain ⟨rest, hrest⟩ := List.head?_eq_some_iff.mp hmark.2
        refine ⟨.lastDigit hwhole (by simpa using hempty) hfixed hmark.1, rest, ?_⟩
        rw [hrest] at hafterSplit
        rw [List.append_assoc, List.cons_append, List.append_assoc, List.singleton_append, hafterSplit, hsplit]
      · obtain rfl := Option.some.inj h
        exact ⟨.whole hwhole (by simpa using hempty), '.' :: after, hsplit.symm⟩
  · split_ifs at h with hempty
    obtain rfl := Option.some.inj h
    exact ⟨.whole hwhole (by simpa using hempty), _, hsplit.symm⟩

theorem NumeralPiece.ne_nil {n : List Char} (h : NumeralPiece n) : n ≠ [] := by
  cases h with
  | whole _ hne => exact hne
  | fraction _ _ _ => simp
  | lastDigit _ _ _ _ => simp
  | period _ _ _ _ _ _ => simp

/-! ## Pieces -/

theorem NumeralPiece.isDigit_or_mem {n : List Char} (h : NumeralPiece n) :
    ∀ c ∈ n, isDigit c = true ∨ c ∈ ['.', 'r', '(', ')', '[', ']'] := by
  have hmark : ∀ {mark : List Char}, mark = [] ∨ mark = ['r'] → ∀ c ∈ mark, c = 'r' := by
    rintro mark (rfl | rfl) <;> simp
  intro c hc
  cases h with
  | whole hd _ => exact .inl (hd c hc)
  | fraction hf _ hm =>
    obtain rfl | hc := List.mem_cons.mp hc
    · simp
    · obtain hc | hc := List.mem_append.mp hc
      · exact .inl (hf c hc)
      · simp [hmark hm c hc]
  | lastDigit hd _ hf _ =>
    simp only [List.mem_append, List.mem_cons] at hc
    obtain hc | rfl | hc | rfl | hc := hc
    · exact .inl (hd c hc)
    · simp
    · exact .inl (hf c hc)
    · simp
    · cases hc
  | period hd hf hp _ hb hm =>
    simp only [List.mem_append, List.mem_cons] at hc
    obtain hc | rfl | hc | rfl | hc | rfl | hc := hc
    · exact .inl (hd c hc)
    · simp
    · exact .inl (hf c hc)
    · obtain ⟨rfl, -⟩ | ⟨rfl, -⟩ := hb <;> simp
    · exact .inl (hp c hc)
    · obtain ⟨-, rfl⟩ | ⟨-, rfl⟩ := hb <;> simp
    · simp [hmark hm c hc]

theorem isBlank_eq_false_of_isDigit_or_mem {c : Char} (h : isDigit c = true ∨ c ∈ ['.', 'r', '(', ')', '[', ']']) :
    isBlank c = false := by
  have hmarks : ∀ c ∈ ['.', 'r', '(', ')', '[', ']'], isBlank c = false := by
    simp only [List.forall_mem_cons]
    exact ⟨rfl, rfl, rfl, rfl, rfl, rfl, by simp⟩
  exact h.elim isBlank_eq_false_of_isDigit (hmarks c)

theorem NumeralPiece.isBlank_eq_false {n : List Char} (h : NumeralPiece n) : ∀ c ∈ n, isBlank c = false :=
  fun c hc => isBlank_eq_false_of_isDigit_or_mem (h.isDigit_or_mem c hc)

theorem eq_append_of_numeral? {c : Char} {cs n : List Char} (h : numeral? (c :: cs) = some n) :
    c :: cs = n ++ cs.drop (n.length - 1) := by
  obtain ⟨hpiece, rest, hrest⟩ := numeral?_cases h
  obtain ⟨d, n, rfl⟩ := List.exists_cons_of_ne_nil hpiece.ne_nil
  obtain ⟨-, rfl⟩ := List.cons.inj hrest
  simpa using hrest

theorem isBlank_of_mem_run {c : Char} (h : isBlank c = true) (cs : List Char) :
    ∀ d ∈ c :: cs.takeWhile isBlank, isBlank d = true :=
  List.forall_mem_cons.mpr ⟨h, fun _ hd => List.mem_takeWhile_imp hd⟩

theorem eq_append_of_run (c : Char) (cs : List Char) :
    c :: cs = (c :: cs.takeWhile isBlank) ++ cs.dropWhile isBlank := by
  rw [List.cons_append, List.takeWhile_append_dropWhile]

/-- What a piece of a text is. -/
inductive IsPiece (t : Token) : Prop
  | blank : t.kind = .blank → (∀ c ∈ t.text.toList, isBlank c = true) → IsPiece t
  | numeric : t.kind = .numeric → NumeralPiece t.text.toList → IsPiece t
  | symbol {c : Char} : symbolKind? c = some t.kind → t.text = String.singleton c → IsPiece t

theorem isPiece_of_mem_pieces (pos : Nat) (cs : List Char) : ∀ t ∈ pieces pos cs, IsPiece t := by
  fun_induction pieces pos cs with
  | case1 => simp
  | case2 pos c cs hc run ih =>
    refine List.forall_mem_cons.mpr ⟨.blank rfl ?_, ih⟩
    rw [String.toList_ofList]
    exact isBlank_of_mem_run hc cs
  | case3 pos c cs hc n hn ih =>
    refine List.forall_mem_cons.mpr ⟨.numeric rfl ?_, ih⟩
    rw [String.toList_ofList]
    exact (numeral?_cases hn).1
  | case4 pos c cs hc hn k hk ih => exact List.forall_mem_cons.mpr ⟨.symbol hk rfl, ih⟩
  | case5 pos c cs hc hn hk ih => exact ih

def chars (ts : List Token) : List Char := ts.flatMap (·.text.toList)

theorem pieces_sublist (pos : Nat) (cs : List Char) : (chars (pieces pos cs)).Sublist cs := by
  unfold chars
  fun_induction pieces pos cs with
  | case1 => simp
  | case2 pos c cs hc run ih =>
    rw [List.flatMap_cons, String.toList_ofList, eq_append_of_run c cs]
    exact (List.Sublist.refl run).append ih
  | case3 pos c cs hc n hn ih =>
    rw [List.flatMap_cons, String.toList_ofList]
    rw [eq_append_of_numeral? hn]
    exact (List.Sublist.refl n).append ih
  | case4 pos c cs hc hn k hk ih =>
    rw [List.flatMap_cons]
    simpa using ih
  | case5 pos c cs hc hn hk ih => exact ih.cons c

/-! ## The check of the pieces -/

theorem utf8ByteSize_ofList (cs : List Char) : (String.ofList cs).utf8ByteSize = byteLength cs := by
  induction cs with
  | nil => rfl
  | cons c cs ih =>
    rw [← List.singleton_append, String.ofList_append, String.utf8ByteSize_append, ih]
    simp [byteLength]

theorem gap?_laid (index pos : Nat) (ws : List (TokenKind × List Char)) : gap? index (laid pos ws) = none := by
  induction ws generalizing index pos with
  | nil => rfl
  | cons w ws ih =>
    cases ws with
    | nil => rfl
    | cons v ws =>
      have h := ih (index + 1) (pos + byteLength w.2)
      simp only [laid] at h ⊢
      simp [gap?, stop, utf8ByteSize_ofList, h]

theorem stop_getLast?_laid {pos : Nat} {ws : List (TokenKind × List Char)} {t : Token}
    (h : (laid pos ws).getLast? = some t) : t.stop = pos + byteLength (ws.flatMap Prod.snd) := by
  induction ws generalizing pos with
  | nil => simp [laid] at h
  | cons w ws ih =>
    cases ws with
    | nil =>
      simp only [laid, List.getLast?_singleton, Option.some.injEq] at h
      rw [← h]
      simp [stop, utf8ByteSize_ofList]
    | cons v ws =>
      rw [laid, laid, List.getLast?_cons_cons, ← laid] at h
      have hrest : t.stop = pos + byteLength w.2 + byteLength ((v :: ws).flatMap Prod.snd) := ih h
      have hflat : (w :: v :: ws).flatMap Prod.snd = w.2 ++ (v :: ws).flatMap Prod.snd := rfl
      rw [hrest, hflat, byteLength_append, Nat.add_assoc]

theorem countP_laid (k : TokenKind) (pos : Nat) (ws : List (TokenKind × List Char)) :
    (laid pos ws).countP (·.kind == k) = ws.countP (·.1 == k) := by
  induction ws generalizing pos with
  | nil => rfl
  | cons w ws ih => simp [laid, List.countP_cons, ih]

/-- Words that cover a text, with as many opening as closing parentheses, pass the check. -/
theorem checkCover_laid {ws : List (TokenKind × List Char)} (hne : ws ≠ [])
    (hcount : ws.countP (·.1 == .opening) = ws.countP (·.1 == .closing)) :
    checkCover (byteLength (ws.flatMap Prod.snd)) (laid 0 ws) = .ok () := by
  obtain ⟨w, ws, rfl⟩ := List.exists_cons_of_ne_nil hne
  have hlast : ∃ t, (laid 0 (w :: ws)).getLast? = some t := by
    rw [laid]
    exact ⟨_, List.getLast?_cons⟩
  obtain ⟨t, ht⟩ := hlast
  have hstop := stop_getLast?_laid ht
  have hhead : (laid 0 (w :: ws)).head? = some ⟨w.1, 0, String.ofList w.2⟩ := rfl
  unfold checkCover
  simp only [hhead, ht, hstop, gap?_laid, countP_laid, hcount]
  simp

theorem utf8ByteSize_eq (s : String) : s.utf8ByteSize = byteLength s.toList := by
  rw [← utf8ByteSize_ofList, String.ofList_toList]

theorem byteLength_le_of_sublist {cs ds : List Char} (h : cs.Sublist ds) : byteLength cs ≤ byteLength ds := by
  induction h with
  | slnil => exact le_rfl
  | cons c _ ih => exact ih.trans (Nat.le_add_left _ _)
  | cons_cons c _ ih => exact Nat.add_le_add_left ih _

theorem eq_of_sublist_of_byteLength {cs ds : List Char} (h : cs.Sublist ds) (hlen : byteLength cs = byteLength ds) :
    cs = ds := by
  induction h with
  | slnil => rfl
  | cons c h ih =>
    have hle := byteLength_le_of_sublist h
    have hpos := Char.utf8Size_pos c
    rw [byteLength] at hlen
    omega
  | cons_cons c h ih =>
    rw [byteLength, byteLength] at hlen
    rw [ih (by omega)]

def word (t : Token) : TokenKind × List Char := (t.kind, t.text.toList)

theorem flatMap_word (ts : List Token) : (ts.map word).flatMap Prod.snd = chars ts := by
  rw [List.flatMap_map]
  rfl

theorem eq_laid_of_gap? {index : Nat} {t : Token} {ts : List Token} (h : gap? index (t :: ts) = none) :
    t :: ts = laid t.start ((t :: ts).map word) := by
  induction ts generalizing index t with
  | nil => simp [laid, word]
  | cons u ts ih =>
    unfold gap? at h
    split_ifs at h with hgap
    rw [ne_eq, not_not] at hgap
    have hstop : t.start + byteLength t.text.toList = u.start := by rw [← hgap, stop, utf8ByteSize_eq]
    rw [List.map_cons, word, laid, hstop, ← ih h, String.ofList_toList]

/-- Tokens that pass the check are laid out from the start of the text to its end. -/
theorem eq_laid_of_checkCover {size : Nat} {ts : List Token} (h : checkCover size ts = .ok ()) :
    ts = laid 0 (ts.map word) ∧ byteLength (chars ts) = size ∧
      ts.countP (·.kind == .opening) = ts.countP (·.kind == .closing) := by
  unfold checkCover at h
  split at h
  · rename_i first last hfirst hlast
    cases hgap : gap? 1 ts with
    | some index =>
      rw [hgap] at h
      split_ifs at h
    | none =>
      rw [hgap] at h
      split_ifs at h with hstart hstop hcount
      rw [ne_eq, not_not] at hstart hstop hcount
      obtain ⟨rest, rfl⟩ := List.head?_eq_some_iff.mp hfirst
      have hlaid := eq_laid_of_gap? hgap
      rw [hstart] at hlaid
      rw [hlaid] at hlast
      have hbytes := stop_getLast?_laid hlast
      rw [flatMap_word, Nat.zero_add, hstop] at hbytes
      exact ⟨hlaid, hbytes.symm, hcount⟩
  · simp at h

theorem chars_pieces_of_checkCover {s : String} (h : checkCover s.utf8ByteSize (pieces 0 s.toList) = .ok ()) :
    chars (pieces 0 s.toList) = s.toList ∧
      (pieces 0 s.toList).countP (·.kind == .opening) = (pieces 0 s.toList).countP (·.kind == .closing) := by
  obtain ⟨-, hbytes, hcount⟩ := eq_laid_of_checkCover h
  rw [utf8ByteSize_eq] at hbytes
  exact ⟨eq_of_sublist_of_byteLength (pieces_sublist 0 s.toList) hbytes, hcount⟩

end Token

end ExactCalc
