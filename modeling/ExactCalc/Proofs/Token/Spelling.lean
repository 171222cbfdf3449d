import Mathlib
import ExactCalc.Proofs.Token.Numeral

/-!
# Scanning a spelling

A text that spells tokens in places where the grammar has them (`Placed`) is scanned as these tokens:
`scan_spelling`. White space around the tokens plays no part.

The pieces of such a text leave nothing out, so that they are its words laid out one after the other
(`Lexed`); joining neighbours then gives the tokens back, since a fraction follows an integer and a minus sign
stands before a number, in the place of an operand, only inside a literal.
-/

namespace ExactCalc

open Text

/-- Tokens in places where the grammar has them; the flag tells whether an operand is expected first. -/
inductive Placed : Bool → List Symbol → Prop
  | nil : Placed false []
  | literal {s : String} {ss : List Symbol} : IsNumeral s → Placed false ss → Placed true ((.numeric, s) :: ss)
  | opening {ss : List Symbol} : Placed true ss → Placed true ((.opening, "(") :: ss)
  | closing {ss : List Symbol} : Placed false ss → Placed false ((.closing, ")") :: ss)
  | operation {ss : List Symbol} (op : Operation) : Placed true ss →
      Placed false ((.operation, op.text) :: ss)

theorem Formula.placed_symbols {f : Formula} (hf : f.HasNumerals) {ss : List Symbol} (hss : Placed false ss) :
    Placed true (f.symbols ++ ss) := by
  induction f generalizing ss with
  | literal s => exact .literal (hf s (by simp [literals])) hss
  | group f ih =>
    simp only [symbols, List.cons_append, List.append_assoc]
    exact .opening (ih hf (.closing hss))
  | thenLiteral e op s ih =>
    obtain ⟨he, hs⟩ := List.forall_mem_append.mp hf
    simp only [symbols, List.append_assoc]
    exact ih he (.operation op (.literal (hs s (by simp)) hss))
  | thenGroup e op f ihe ihf =>
    obtain ⟨he, hf⟩ := List.forall_mem_append.mp hf
    simp only [symbols, List.cons_append, List.append_assoc]
    exact ihe he (.operation op (.opening (ihf hf (.closing hss))))

namespace Token

/-! ## The pieces of placed tokens -/

/-- The pieces of a text are these words, which are joined to these tokens. -/
structure Lexed (free : Bool) (ss : List Symbol) (cs : List Char) (ws : List (TokenKind × List Char)) : Prop where
  covers : ws.flatMap Prod.snd = cs
  pieces_eq : ∀ pos, pieces pos cs = laid pos ws
  countP_eq : ∀ k, k = .opening ∨ k = .closing → ws.countP (·.1 == k) = ss.countP (·.1 == k)
  noFraction : free = false → ∀ pos lead, NoFraction (lexemes lead (laid pos ws))
  joined_eq : ∀ pos lead,
    (joinSigns free (joinFractions (lexemes lead (laid pos ws)))).map (·.token.symbol) = ss

theorem Lexed.cons_symbol {free next : Bool} {c : Char} {k : TokenKind} {gap cs : List Char} {ss : List Symbol}
    {ws : List (TokenKind × List Char)} (h : Lexed next ss cs ws) (hk : symbolKind? c = some k)
    (hgap : ∀ c ∈ gap, isBlank c = true) (hfree : free = true → k = .opening)
    (hnext : next = (k == .opening || k == .operation)) :
    Lexed free ((k, String.ofList [c]) :: ss) (gap ++ ([c] ++ cs)) (gapPiece gap ++ (k, [c]) :: ws) := by
  obtain ⟨hblank, -, hpoint, hkb, hkn⟩ := symbolKind?_eq_some hk
  have hlex : ∀ pos lead, lexemes lead (laid pos (gapPiece gap ++ (k, [c]) :: ws)) =
      ⟨lead ++ String.ofList gap, ⟨k, pos + byteLength gap, String.ofList [c]⟩⟩ ::
        lexemes "" (laid (pos + byteLength gap + byteLength [c]) ws) := by
    intro pos lead
    rw [lexemes_laid_gap, lexemes_laid_cons hkb]
  refine ⟨?_, ?_, ?_, ?_, ?_⟩
  · rw [List.flatMap_append, flatMap_gapPiece, List.flatMap_cons, h.covers]
  · intro pos
    rw [pieces_gap hgap (by rintro d ⟨⟩; exact hblank), List.singleton_append, pieces_symbol hk, h.pieces_eq,
      laid_append, flatMap_gapPiece]
    rfl
  · intro k' hk'
    have hne : k' ≠ .blank := by rcases hk' with rfl | rfl <;> decide
    rw [List.countP_append, countP_gapPiece hne, List.countP_cons, List.countP_cons, h.countP_eq k' hk', Nat.zero_add]
  · intro _ pos lead
    rw [hlex]
    rintro l ⟨⟩
    simp [isFraction, hpoint]
  · intro pos lead
    rw [hlex, joinFractions_cons (.inl (by simp [isInteger, hkn])), joinSigns_cons, List.map_cons]
    · have hexp : expectsOperand ⟨k, pos + byteLength gap, String.ofList [c]⟩ = next := by
        rw [hnext]
        rfl
      rw [hexp, h.joined_eq]
      rfl
    · cases free with
      | false => rfl
      | true =>
        have hopen := hfree rfl
        simp [isMinus, hopen]

/-- The pieces of a number without a sign and of what follows it, with the number as the first one joined. -/
structure Numbered (w : List Char) (ss : List Symbol) (cs : List Char) (ws : List (TokenKind × List Char)) :
    Prop where
  head_eq : ∀ c ∈ w.head?, isBlank c = false
  head_ne : w ≠ []
  covers : ws.flatMap Prod.snd = w ++ cs
  pieces_eq : ∀ pos, pieces pos (w ++ cs) = laid pos ws
  countP_eq : ∀ k, k = .opening ∨ k = .closing → ws.countP (·.1 == k) = ss.countP (·.1 == k)
  joined_eq : ∀ pos lead, ∃ x ls, x.lead = lead ∧ x.token.symbol = (.numeric, String.ofList w) ∧
    joinFractions (lexemes lead (laid pos ws)) = x :: ls ∧ (joinSigns false ls).map (·.token.symbol) = ss

theorem Lexed.numbered {ss : List Symbol} {w cs : List Char} {bs ws : List (TokenKind × List Char)}
    (h : Lexed false ss cs ws) (hw : Body w bs) (hcs : EndsNumber cs) : Numbered w ss cs (bs ++ ws) := by
  obtain ⟨c, r, hcr, hc⟩ := hw.exists_head
  refine ⟨?_, by simp [hcr], ?_, ?_, ?_, ?_⟩
  · rw [hcr]
    rintro d ⟨⟩
    exact hc
  · rw [List.flatMap_append, hw.flatMap_eq, h.covers]
  · intro pos
    rw [pieces_body hw _ hcs, h.pieces_eq, laid_append, hw.flatMap_eq]
  · intro k hk
    rw [List.countP_append, hw.countP_eq hk, h.countP_eq k hk, Nat.zero_add]
  · intro pos lead
    obtain ⟨x, hlead, hx, hjoin⟩ := joinFractions_body hw lead pos ws (h.noFraction rfl _ _)
    exact ⟨x, _, hlead, hx, hjoin, h.joined_eq _ _⟩

section
variable {gap w cs : List Char} {ss : List Symbol} {ws : List (TokenKind × List Char)}

theorem Numbered.plain (h : Numbered w ss cs ws) (hgap : ∀ c ∈ gap, isBlank c = true) :
    Lexed true ((.numeric, String.ofList w) :: ss) (gap ++ (w ++ cs)) (gapPiece gap ++ ws) := by
  refine ⟨?_, ?_, ?_, by simp, ?_⟩
  · rw [List.flatMap_append, flatMap_gapPiece, h.covers]
  · intro pos
    have hstart : ∀ c ∈ (w ++ cs).head?, isBlank c = false := by
      rw [List.head?_append_of_ne_nil _ h.head_ne]
      exact h.head_eq
    rw [pieces_gap hgap hstart, h.pieces_eq, laid_append, flatMap_gapPiece]
  · intro k hk
    have hne : k ≠ .blank := by rcases hk with rfl | rfl <;> decide
    have hnum : (TokenKind.numeric == k) = false := by rcases hk with rfl | rfl <;> decide
    rw [List.countP_append, countP_gapPiece hne, h.countP_eq k hk, List.countP_cons, hnum]
    simp
  · intro pos lead
    rw [lexemes_laid_gap]
    obtain ⟨x, ls, -, hx, hjoin, hrest⟩ := h.joined_eq (pos + byteLength gap) (lead ++ String.ofList gap)
    have hkind : x.token.kind = .numeric := congrArg Prod.fst hx
    have hexp : x.token.expectsOperand = false := by simp [expectsOperand, hkind]
    rw [hjoin, joinSigns_cons (by simp [isMinus, hkind]), List.map_cons, hx, hexp, hrest]

/-- A minus sign in the place of an operand is joined to the number, with the white space between them. -/
theorem Numbered.signed {inner : List Char} (h : Numbered w ss cs ws) (hgap : ∀ c ∈ gap, isBlank c = true)
    (hinner : ∀ c ∈ inner, isBlank c = true) :
    Lexed true ((.numeric, String.ofList ('-' :: (inner ++ w))) :: ss) (gap ++ ('-' :: (inner ++ (w ++ cs))))
      (gapPiece gap ++ (.operation, ['-']) :: (gapPiece inner ++ ws)) := by
  have hminus : symbolKind? '-' = some .operation := rfl
  have hstart : ∀ c ∈ (w ++ cs).head?, isBlank c = false := by
    rw [List.head?_append_of_ne_nil _ h.head_ne]
    exact h.head_eq
  refine ⟨?_, ?_, ?_, by simp, ?_⟩
  · rw [List.flatMap_append, flatMap_gapPiece, List.flatMap_cons, List.flatMap_append, flatMap_gapPiece, h.covers]
    rfl
  · intro pos
    rw [pieces_gap hgap (by rintro d ⟨⟩; decide), pieces_symbol hminus, pieces_gap hinner hstart, h.pieces_eq,
      laid_append, flatMap_gapPiece, laid, laid_append, flatMap_gapPiece]
  · intro k hk
    have hne : k ≠ .blank := by rcases hk with rfl | rfl <;> decide
    have hnum : (TokenKind.numeric == k) = false := by rcases hk with rfl | rfl <;> decide
    have hop : (TokenKind.operation == k) = false := by rcases hk with rfl | rfl <;> decide
    rw [List.countP_append, countP_gapPiece hne, List.countP_cons, List.countP_append, countP_gapPiece hne,
      h.countP_eq k hk, List.countP_cons, hnum, hop]
    simp
  · intro pos lead
    rw [lexemes_laid_gap, lexemes_laid_cons (by decide), lexemes_laid_gap,
      joinFractions_cons (.inl (by simp [isInteger]))]
    obtain ⟨x, ls, hlead, hx, hjoin, hrest⟩ :=
      h.joined_eq (pos + byteLength gap + byteLength ['-'] + byteLength inner) ("" ++ String.ofList inner)
    have hkind : x.token.kind = .numeric := congrArg Prod.fst hx
    have htext : x.token.text = String.ofList w := congrArg Prod.snd hx
    rw [hjoin, joinSigns_minus (by simp [isMinus]) hkind, List.map_cons, hrest]
    simp only [Lexeme.join, Token.symbol, hlead, htext]
    rw [String.empty_append, String.append_assoc, ← String.ofList_append, ← String.ofList_append,
      List.singleton_append]

theorem Lexed.cons_literal {s : String} (h : Lexed false ss cs ws) (hs : IsNumeral s)
    (hgap : ∀ c ∈ gap, isBlank c = true) (hcs : EndsNumber cs) :
    ∃ ws', Lexed true ((.numeric, s) :: ss) (gap ++ (s.toList ++ cs)) ws' := by
  obtain ⟨w, bs, hw, hsign⟩ := hs.shape
  have hnum := h.numbered hw hcs
  have htext : String.ofList s.toList = s := String.ofList_toList
  rcases hsign with hs' | ⟨inner, hinner, hs'⟩
  · rw [← htext, hs', String.toList_ofList]
    exact ⟨_, hnum.plain hgap⟩
  · rw [← htext, hs', String.toList_ofList, List.cons_append, List.append_assoc]
    exact ⟨_, hnum.signed hgap hinner⟩

end

theorem endsNumber_of_spelling {ss : List Symbol} {cs : List Char} (hss : Placed false ss)
    (hcs : Spelling (ss.map Prod.snd) cs) : EndsNumber cs := by
  have hword : ∀ {gap cs' : List Char} {c : Char}, (∀ d ∈ gap, isBlank d = true) →
      (isDigit c = false ∧ c ≠ '.' ∧ c ≠ 'r' ∧ c ≠ '(' ∧ c ≠ '[') → EndsNumber (gap ++ (c :: cs')) := by
    intro gap cs' c hgap hc
    cases gap with
    | nil =>
      rintro d ⟨⟩
      exact hc
    | cons b gap =>
      rintro d ⟨⟩
      exact blank_endsNumber (hgap b (by simp))
  cases hss with
  | nil =>
    cases hcs with
    | nil hgap => exact fun c hc => blank_endsNumber (hgap c (List.mem_of_mem_head? hc))
  | closing _ =>
    cases hcs with
    | cons hgap _ => exact hword hgap (by decide)
  | operation op _ =>
    cases hcs with
    | cons hgap _ =>
      rw [text_eq_ofList, String.toList_ofList, List.singleton_append]
      refine hword hgap ?_
      cases op <;> decide

/-- A spelling of placed tokens is cut into pieces that are joined to these tokens. -/
theorem exists_lexed {free : Bool} {ss : List Symbol} {cs : List Char} (hss : Placed free ss)
    (hcs : Spelling (ss.map Prod.snd) cs) : ∃ ws, Lexed free ss cs ws := by
  induction hss generalizing cs with
  | nil =>
    cases hcs with
    | nil hgap =>
      refine ⟨gapPiece cs, flatMap_gapPiece cs, ?_, ?_, ?_, ?_⟩
      · intro pos
        have hend : ∀ c ∈ ([] : List Char).head?, isBlank c = false := by simp
        simpa [pieces] using pieces_gap hgap hend pos
      · intro k hk
        have hne : k ≠ .blank := by rcases hk with rfl | rfl <;> decide
        exact countP_gapPiece hne cs
      · intro _ pos lead
        have h := lexemes_laid_gap lead pos cs []
        simp only [List.append_nil] at h
        rw [h]
        simp [NoFraction, laid, lexemes]
      · intro pos lead
        have h := lexemes_laid_gap lead pos cs []
        simp only [List.append_nil] at h
        rw [h]
        simp [laid, lexemes, joinFractions, joinSigns]
  | literal hs hss ih =>
    cases hcs with
    | cons hgap hcs =>
      obtain ⟨ws, hws⟩ := ih hcs
      exact hws.cons_literal hs hgap (endsNumber_of_spelling hss hcs)
  | opening hss ih =>
    cases hcs with
    | cons hgap hcs =>
      obtain ⟨ws, hws⟩ := ih hcs
      exact ⟨_, hws.cons_symbol (c := '(') rfl hgap (fun _ => rfl) rfl⟩
  | closing hss ih =>
    cases hcs with
    | cons hgap hcs =>
      obtain ⟨ws, hws⟩ := ih hcs
      exact ⟨_, hws.cons_symbol (c := ')') rfl hgap (by simp) rfl⟩
  | operation op hss ih =>
    cases hcs with
    | cons hgap hcs =>
      obtain ⟨ws, hws⟩ := ih hcs
      rw [text_eq_ofList, String.toList_ofList]
      exact ⟨_, hws.cons_symbol (symbolKind?_operation op) hgap (by simp) rfl⟩

/-- Pieces that are joined to tokens with as many opening as closing parentheses are scanned as these. -/
theorem Lexed.scan_eq {ss : List Symbol} {s : String} {ws : List (TokenKind × List Char)}
    (h : Lexed true ss s.toList ws) (hne : ss ≠ [])
    (hcount : ss.countP (·.1 == .opening) = ss.countP (·.1 == .closing)) :
    ∃ ts, scan s = .ok ts ∧ ts.map Token.symbol = ss := by
  have hwne : ws ≠ [] := by
    rintro rfl
    have hnil := h.joined_eq 0 ""
    exact hne (by simpa [laid, lexemes, joinFractions, joinSigns, eq_comm] using hnil)
  have hcheck := checkCover_laid hwne (by rw [h.countP_eq _ (.inl rfl), h.countP_eq _ (.inr rfl), hcount])
  have hsize : s.utf8ByteSize = byteLength (ws.flatMap Prod.snd) := by
    rw [h.covers, ← utf8ByteSize_ofList, String.ofList_toList]
  refine ⟨joined (laid 0 ws), ?_, ?_⟩
  · rw [scan_eq_joined, h.pieces_eq, hsize, hcheck]
    rfl
  · have hjoin := h.joined_eq 0 ""
    simpa [joined, List.map_map, Function.comp_def] using hjoin

/-- A text that spells placed tokens, with as many opening as closing parentheses, is scanned as these. -/
theorem scan_spelling {ss : List Symbol} {s : String} (hss : Placed true ss)
    (hs : Spelling (ss.map Prod.snd) s.toList)
    (hcount : ss.countP (·.1 == .opening) = ss.countP (·.1 == .closing)) :
    ∃ ts, scan s = .ok ts ∧ ts.map Token.symbol = ss := by
  obtain ⟨ws, hws⟩ := exists_lexed hss hs
  have hne : ss ≠ [] := by
    rintro rfl
    cases hss
  exact hws.scan_eq hne hcount

end Token

theorem isLiteral_of_unsigned {s : String} {w : List Char} {ps : List (List Char)} (hw : Token.Unsigned w ps)
    (hs : s.toList = w ∨ s.toList = '-' :: w) (hascii : ∀ c ∈ s.toList, c.toNat < 128)
    (hnumber : ∃ n, Number.ofText s = .ok n) : IsLiteral s := by
  have hnumeral : IsNumeral s := isNumeral_of_unsigned hw hs hnumber
  have hspelling : Spelling [s] s.toList := by
    have hnil : ∀ c ∈ ([] : List Char), isBlank c = true := by simp
    have hone : Spelling [s] ([] ++ (s.toList ++ [])) := .cons hnil (.nil hnil)
    rwa [List.append_nil, List.nil_append] at hone
  obtain ⟨ts, hscan, hts⟩ := Token.scan_spelling (.literal hnumeral .nil) hspelling rfl
  obtain ⟨t, rfl, -⟩ := List.map_eq_singleton_iff.mp hts
  exact ⟨hascii, hnumber, t, hscan⟩

theorem isLiteral_digits (ds : List Char) (hd : Digits ds) (hne : ds ≠ []) : IsLiteral (String.ofList ds) := by
  have hamount : isAmountText (String.ofList ds) = true := by
    have htake : ds.takeWhile isDigit = ds := List.takeWhile_eq_self_iff.mpr hd.isDigit
    have hdrop : ds.dropWhile isDigit = [] := List.dropWhile_eq_nil_iff.mpr hd.isDigit
    simp [isAmountText, isPlainNumeral, htake, hdrop, hne]
  have hempty : (String.ofList ds).isEmpty = false := by simpa using hne
  refine isLiteral_of_unsigned (.whole hd.isDigit hne) (.inl String.toList_ofList) ?_ ⟨.amount (String.ofList ds), ?_⟩
  · rw [String.toList_ofList]
    exact hd.ascii
  · simp [Number.ofText, hempty, hamount]

theorem isLiteral_digit {c : Char} (h : isAsciiDigit c = true) : IsLiteral (String.ofList [c]) := by
  refine isLiteral_digits [c] ?_ (by simp)
  simpa [Digits] using h

theorem Formula.countP_symbols (f : Formula) :
    f.symbols.countP (·.1 == .opening) = f.symbols.countP (·.1 == .closing) := by
  induction f with
  | literal s => rfl
  | group f ih => simp [symbols, ih]
  | thenLiteral e op s ih => simp [symbols, ih]
  | thenGroup e op f ihe ihf => simp [symbols, ihe, ihf]

theorem Formula.scan_eq {f : Formula} (hf : f.HasNumerals) {s : String} (hs : f.IsWrittenAs s) :
    ∃ ts, Token.scan s = .ok ts ∧ ts.map Token.symbol = f.symbols := by
  have hplaced := Formula.placed_symbols hf .nil
  rw [List.append_nil] at hplaced
  exact Token.scan_spelling hplaced hs f.countP_symbols

end ExactCalc
