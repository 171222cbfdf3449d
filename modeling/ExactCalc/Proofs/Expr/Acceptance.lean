import Mathlib
import ExactCalc.Proofs.Expr.Grouping
import ExactCalc.Proofs.Token.Cover

/-!
# What is accepted as an expression

A text in which no prefix has more closing than opening parentheses is read exactly if it spells a formula. Any
other text that is read has closing parentheses where nothing is open; the reading passes over them. Without
these, and with what remains open closed at its end (`balanced`), its tokens are those of a formula:
`Expr.ofText_accepts`.

The reading alone only sees that operands and operations alternate (`Reduction.placed_of_run`): what it keeps on
its stack may have been completed before the parenthesis closes. The formula is built beside it, with a stack of
its own from which nothing is taken early (`Opened`).
-/

namespace ExactCalc

open Token

/-! ## Alternation -/

theorem Token.IsScanned.symbol_opening {t : Token} (ht : t.IsScanned) (hk : t.kind = .opening) :
    t.symbol = (.opening, "(") := by
  cases ht with
  | numeric hn _ _ => simp [hk] at hn
  | @symbol c hc htext =>
    have hchar : c = '(' := by simpa [hk] using symbolKind?_cases hc
    rw [Token.symbol, hk, htext, hchar]
    rfl

theorem Token.IsScanned.symbol_closing {t : Token} (ht : t.IsScanned) (hk : t.kind = .closing) :
    t.symbol = (.closing, ")") := by
  cases ht with
  | numeric hn _ _ => simp [hk] at hn
  | @symbol c hc htext =>
    have hchar : c = ')' := by simpa [hk] using symbolKind?_cases hc
    rw [Token.symbol, hk, htext, hchar]
    rfl

theorem Operation.text_of_ofSymbol {s : String} {op : Operation} (h : ofSymbol s = .ok op) : op.text = s := by
  unfold ofSymbol ofSymbol? at h
  split at h
  · rename_i o ho
    obtain rfl := Except.ok.inj h
    split at ho <;> first | (obtain rfl := Option.some.inj ho; rfl) | simp at ho
  · simp at h

namespace Reduction

variable {s s' : Reduction} {source : String} {t : Token} {ts : List Token}

/-- A parenthesis closes after an operand, or closes nothing and does not follow an operation. -/
theorem complete_of_closeGroup {isLast : Bool} (h : s.closeGroup source t isLast = .ok s') :
    (s.operation = none ∧ s.left.isSome = true) ∨ (s.stack = [] ∧ s' = s ∧ (isLast = true ∨ s.operation = none)) := by
  have hcomplete : (s.operation.isNone && s.right.isNone && s.left.isSome) = true →
      s.operation = none ∧ s.left.isSome = true := by
    intro hc
    simp only [Bool.and_eq_true, Option.isNone_iff_eq_none] at hc
    exact ⟨hc.1.1, hc.2⟩
  unfold closeGroup at h
  cases hk : s.stack with
  | nil =>
    simp only [hk] at h
    split_ifs at h with hwaits
    · simp at h
    · refine .inr ⟨rfl, (Except.ok.inj h).symm, ?_⟩
      simp only [Bool.and_eq_true, Bool.or_eq_true, not_and, not_or, Bool.not_eq_true'] at hwaits
      by_cases hlast : isLast = true
      · exact .inl hlast
      · exact .inr (by simpa using (hwaits (by simpa using hlast)).1)
  | cons frame rest =>
    cases frame with
    | group =>
      simp only [hk] at h
      split_ifs at h with hc
      · exact .inl (hcomplete hc)
      · simp at h
    | pending left op =>
      simp only [hk] at h
      cases hl : s.left with
      | none => simp [hl] at h
      | some inner =>
        rw [hl] at h hcomplete
        simp only at h
        split_ifs at h with hc
        · exact .inl (hcomplete hc)
        · simp at h

theorem eq_of_finish {e : Expr} (h : s.finish source = .ok e) :
    s.stack = [] ∧ s.left = some e ∧ s.right = none ∧ s.operation = none := by
  unfold finish at h
  split at h
  · rename_i hst hl hr ho
    exact ⟨hst, by rw [hl, Except.ok.inj h], hr, ho⟩
  · simp at h

def Expects (s : Reduction) (ss : List Symbol) : Prop :=
  match s.mode, s.operation, s.stack with
  | .left, _, [] => ∃ n us, ss = List.replicate n (.closing, ")") ++ us ∧ Placed true us
  | .left, _, _ :: _ => Placed true ss
  | .right, some _, _ => Placed true ss
  | .right, none, _ => Placed false ss

theorem Expects.of_placed {ss : List Symbol} (hfree : s.mode = .left ∨ s.operation.isSome = true)
    (h : Placed true ss) : s.Expects ss := by
  unfold Expects
  split
  · exact ⟨0, ss, rfl, h⟩
  · exact h
  · exact h
  · rename_i hm ho
    rcases hfree with hfree | hfree
    · simp [hfree] at hm
    · simp [ho] at hfree

theorem expects_right {ss : List Symbol} (hm : s.mode = .right) (ho : s.operation = none) :
    s.Expects ss ↔ Placed false ss := by
  simp [Expects, hm, ho]

theorem expects_of_step {e : Expr} (ht : t.IsScanned) (hs : s.Coherent) (h : s.step source t ts.isEmpty = .ok s')
    (hrest : s'.Expects (ts.map Token.symbol)) (hlast : ts = [] → s'.finish source = .ok e) :
    s.Expects ((t :: ts).map Token.symbol) := by
  have hs' := (step_items hs h).1
  rw [List.map_cons]
  have hsymbol : ∀ {c : Char}, symbolKind? c = some t.kind → t.text = String.singleton c →
      t.symbol = (t.kind, String.ofList [c]) := by
    intro c hc htext
    simp [Token.symbol, htext]
  unfold step at h
  cases hk : t.kind with
  | opening =>
    rw [hk] at h
    rw [ht.symbol_opening hk]
    obtain ⟨hm, rfl⟩ | ⟨left, op, hl, ho, rfl⟩ := openGroup_cases hs h
    · refine .of_placed (.inl hm) (.opening ?_)
      simpa [Expects, hm] using hrest
    · refine .of_placed (.inr (by simp [ho])) (.opening ?_)
      simpa [Expects] using hrest
  | closing =>
    rw [hk] at h
    rw [ht.symbol_closing hk]
    obtain ⟨ho, hleft⟩ | ⟨hst, rfl, hends⟩ := complete_of_closeGroup h
    · -- an operand has been read
      have hm : s.mode = .right := hs.mode_eq.mpr hleft
      have hafter : s'.mode = .right ∧ s'.operation = none := by
        obtain ⟨rest, -, rfl⟩ | ⟨rest, l, o, inner, -, -, -, rfl⟩ | ⟨-, rfl⟩ := closeGroup_cases h
        · exact ⟨hm, ho⟩
        · exact ⟨rfl, ho⟩
        · exact ⟨hm, ho⟩
      exact (expects_right hm ho).mpr (.closing ((expects_right hafter.1 hafter.2).mp hrest))
    · cases hm : s'.mode with
      | left =>
        have ho := hs.operation_eq_none hm
        simp only [Expects, hm, hst] at hrest ⊢
        obtain ⟨n, us, hus, hplaced⟩ := hrest
        exact ⟨n + 1, us, by rw [hus]; rfl, hplaced⟩
      | right =>
        have ho : s'.operation = none := by
          rcases hends with hends | ho
          · exact (eq_of_finish (hlast (List.isEmpty_iff.mp hends))).2.2.2
          · exact ho
        exact (expects_right hm ho).mpr (.closing ((expects_right hm ho).mp hrest))
  | numeric =>
    rw [hk] at h
    obtain ⟨n, hn, hread⟩ := readNumber_cases h
    have hnumeral := ht.isNumeral hk ⟨n, hn⟩
    have htoken : t.symbol = (.numeric, t.text) := by rw [Token.symbol, hk]
    rw [htoken]
    obtain ⟨hm, rfl⟩ | ⟨left, op, hm, hl, ho, rfl⟩ := hread
    · refine .of_placed (.inl hm) (.literal hnumeral ?_)
      simpa [Expects, hs.operation_eq_none hm] using hrest
    · refine .of_placed (.inr (by simp [ho])) (.literal hnumeral ?_)
      simpa [Expects, hm] using hrest
  | operation =>
    rw [hk] at h
    obtain ⟨left, op, hl, ho, hop, rfl⟩ := readOperation_cases h
    have hm : s.mode = .right := hs.mode_eq.mpr (by simp [hl])
    have htoken : t.symbol = (.operation, op.text) := by
      rw [Token.symbol, hk, Operation.text_of_ofSymbol hop]
    rw [htoken, expects_right hm ho]
    refine .operation op ?_
    simpa [Expects, hm] using hrest
  | blank => simp [hk] at h

/-- Tokens that are read are placed, after closing parentheses that close nothing. -/
theorem expects_of_run {e : Expr} (hts : ∀ t ∈ ts, t.IsScanned) (hs : s.Coherent) (h : s.run source ts = .ok s')
    (hfin : s'.finish source = .ok e) : s.Expects (ts.map Token.symbol) := by
  induction ts generalizing s with
  | nil =>
    obtain rfl := Except.ok.inj h
    obtain ⟨-, hl, -, ho⟩ := eq_of_finish hfin
    have hm : s.mode = .right := hs.mode_eq.mpr (by simp [hl])
    exact (expects_right hm ho).mpr .nil
  | cons t ts ih =>
    obtain ⟨ht, hrest⟩ := List.forall_mem_cons.mp hts
    rw [run] at h
    cases hstep : s.step source t ts.isEmpty with
    | error e => simp [hstep, bind, Except.bind] at h
    | ok s₁ =>
      rw [hstep] at h
      refine expects_of_step (e := e) ht hs hstep (ih hrest (step_items hs hstep).1 h) ?_
      rintro rfl
      obtain rfl := Except.ok.inj h
      exact hfin

end Reduction

/-! ## Nesting -/

/-- The tokens without the closing parentheses that close nothing where `depth` are open, and with what is
left open closed at the end. -/
def balanced : Nat → List Symbol → List Symbol
  | depth, [] => List.replicate depth (.closing, ")")
  | depth, s :: ss =>
    match s.1, depth with
    | .opening, depth => s :: balanced (depth + 1) ss
    | .closing, 0 => balanced 0 ss
    | .closing, depth + 1 => s :: balanced depth ss
    | _, depth => s :: balanced depth ss

section
variable (depth : Nat) (w : String) (ss : List Symbol)

theorem balanced_opening : balanced depth ((.opening, w) :: ss) = (.opening, w) :: balanced (depth + 1) ss := rfl

theorem balanced_closing : balanced (depth + 1) ((.closing, w) :: ss) = (.closing, w) :: balanced depth ss := rfl

theorem balanced_of_ne {k : TokenKind} (ho : k ≠ .opening) (hc : k ≠ .closing) :
    balanced depth ((k, w) :: ss) = (k, w) :: balanced depth ss := by
  cases k with
  | opening => exact absurd rfl ho
  | closing => exact absurd rfl hc
  | numeric | operation | blank => rfl

end

theorem balanced_replicate_closing (n : Nat) (ss : List Symbol) :
    balanced 0 (List.replicate n (.closing, ")") ++ ss) = balanced 0 ss := by
  induction n with
  | zero => rfl
  | succ n ih => exact ih

abbrev Opened := Option (Formula × Operation)

namespace Opened

/-- The tokens before the parenthesis, since the one that is open around it. -/
def symbols : Opened → List Symbol
  | none => []
  | some (e, op) => e.symbols ++ [(.operation, op.text)]

def literal (s : String) : Opened → Formula
  | none => .literal s
  | some (e, op) => .thenLiteral e op s

def group (f : Formula) : Opened → Formula
  | none => .group f
  | some (e, op) => .thenGroup e op f

def HasNumerals : Opened → Prop
  | none => True
  | some (e, _) => e.HasNumerals

def before : List Opened → List Symbol
  | [] => []
  | o :: os => before os ++ (o.symbols ++ [(.opening, "(")])

variable {o : Opened} {f : Formula} {s : String}

theorem symbols_literal : (o.literal s).symbols = o.symbols ++ [(.numeric, s)] := by
  cases o with
  | none => rfl
  | some x => simp [literal, symbols, Formula.symbols]

theorem symbols_group : (o.group f).symbols = o.symbols ++ (.opening, "(") :: (f.symbols ++ [(.closing, ")")]) := by
  cases o with
  | none => rfl
  | some x => simp [group, symbols, Formula.symbols]

theorem HasNumerals.literal (ho : o.HasNumerals) (hs : IsNumeral s) : (o.literal s).HasNumerals := by
  cases o with
  | none => simpa [Opened.literal, Formula.HasNumerals, Formula.literals] using hs
  | some x => exact List.forall_mem_append.mpr ⟨ho, by simpa using hs⟩

theorem HasNumerals.group (ho : o.HasNumerals) (hf : f.HasNumerals) : (o.group f).HasNumerals := by
  cases o with
  | none => exact hf
  | some x => exact List.forall_mem_append.mpr ⟨ho, hf⟩

theorem exists_formula_of_open {os : List Opened} (hos : ∀ o ∈ os, o.HasNumerals) {e : Formula} (he : e.HasNumerals) :
    ∃ f : Formula, f.HasNumerals ∧ f.symbols = before os ++
      (e.symbols ++ List.replicate os.length (.closing, ")")) := by
  induction os generalizing e with
  | nil => exact ⟨e, he, by simp [before]⟩
  | cons o os ih =>
    obtain ⟨ho, hrest⟩ := List.forall_mem_cons.mp hos
    obtain ⟨f, hf, hsymbols⟩ := ih hrest (ho.group he)
    refine ⟨f, hf, ?_⟩
    rw [hsymbols, symbols_group, before, List.length_cons, List.replicate_succ]
    simp

/-- Placed tokens go on to a formula in any open parentheses: after an operand, or where one is expected. -/
theorem exists_formula_of_placed {free : Bool} {ss : List Symbol} (h : Placed free ss) (os : List Opened)
    (hos : ∀ o ∈ os, o.HasNumerals) :
    match free with
    | false => ∀ e : Formula, e.HasNumerals →
        ∃ f : Formula, f.HasNumerals ∧ f.symbols = before os ++ (e.symbols ++ balanced os.length ss)
    | true => ∀ o : Opened, o.HasNumerals →
        ∃ f : Formula, f.HasNumerals ∧ f.symbols = before os ++ (o.symbols ++ balanced os.length ss) := by
  induction h generalizing os with
  | nil => exact fun e he => exists_formula_of_open hos he
  | literal hs _ ih =>
    intro o ho
    obtain ⟨f, hf, hsymbols⟩ := ih os hos _ (ho.literal hs)
    refine ⟨f, hf, ?_⟩
    rw [hsymbols, symbols_literal]
    simp [balanced]
  | opening _ ih =>
    intro o ho
    obtain ⟨f, hf, hsymbols⟩ := ih (o :: os) (List.forall_mem_cons.mpr ⟨ho, hos⟩) none trivial
    refine ⟨f, hf, ?_⟩
    rw [hsymbols]
    simp [balanced, before, symbols]
  | closing _ ih =>
    intro e he
    cases os with
    | nil => exact ih [] hos e he
    | cons o os =>
      obtain ⟨ho, hrest⟩ := List.forall_mem_cons.mp hos
      obtain ⟨f, hf, hsymbols⟩ := ih os hrest _ (ho.group he)
      refine ⟨f, hf, ?_⟩
      rw [hsymbols, symbols_group]
      simp [balanced, before]
  | operation op _ ih =>
    intro e he
    obtain ⟨f, hf, hsymbols⟩ := ih os hos (some (e, op)) he
    refine ⟨f, hf, ?_⟩
    rw [hsymbols]
    simp [balanced, symbols]

end Opened

/-- Placed tokens are those of a formula, with their parentheses balanced. -/
theorem exists_symbols_eq_balanced {ss : List Symbol} (h : Placed true ss) :
    ∃ f : Formula, f.HasNumerals ∧ f.symbols = balanced 0 ss := by
  obtain ⟨f, hf, hsymbols⟩ := Opened.exists_formula_of_placed h [] (by simp) none trivial
  exact ⟨f, hf, by simpa [Opened.before, Opened.symbols] using hsymbols⟩

/-- No prefix has more closing than opening parentheses. -/
def IsNested (ks : List TokenKind) : Prop := ∀ js, js <+: ks → js.count .closing ≤ js.count .opening

/-- Balancing leaves nested tokens with as many opening as closing parentheses as they are. -/
theorem balanced_eq_self {depth : Nat} {ss : List Symbol}
    (hnested : ∀ js, js <+: ss.map Prod.fst → js.count .closing ≤ depth + js.count .opening)
    (hcount : (ss.map Prod.fst).count .closing = depth + (ss.map Prod.fst).count .opening) :
    balanced depth ss = ss := by
  induction ss generalizing depth with
  | nil =>
    obtain rfl : depth = 0 := by simpa using hcount.symm
    rfl
  | cons s ss ih =>
    have hrest : ∀ js, js <+: ss.map Prod.fst → (s.1 :: js).count .closing ≤ depth + (s.1 :: js).count .opening :=
      fun js hjs => hnested _ (List.cons_prefix_cons.mpr ⟨rfl, hjs⟩)
    rw [List.map_cons] at hcount
    obtain ⟨k, w⟩ := s
    by_cases ho : k = .opening
    · subst ho
      simp only [List.count_cons_self,
        List.count_cons_of_ne (show TokenKind.opening ≠ .closing by decide)] at hrest hcount
      rw [balanced_opening, ih]
      · intro js hjs
        have hle := hrest js hjs
        omega
      · omega
    by_cases hc : k = .closing
    · subst hc
      simp only [List.count_cons_self,
        List.count_cons_of_ne (show TokenKind.closing ≠ .opening by decide)] at hrest hcount
      cases depth with
      | zero =>
        have hle := hrest [] List.nil_prefix
        simp at hle
      | succ depth =>
        rw [balanced_closing, ih]
        · intro js hjs
          have hle := hrest js hjs
          omega
        · omega
    · simp only [List.count_cons_of_ne ho, List.count_cons_of_ne hc] at hrest hcount
      rw [balanced_of_ne depth w ss ho hc, ih hrest hcount]

theorem isNested_of_notMem {ks : List TokenKind} (h : .closing ∉ ks) : IsNested ks := by
  intro js hjs
  rw [List.count_eq_zero_of_not_mem fun hmem => h (hjs.subset hmem)]
  exact Nat.zero_le _

theorem isNested_append {ks ls : List TokenKind} (hk : IsNested ks) (hks : ks.count .closing = ks.count .opening)
    (hl : IsNested ls) : IsNested (ks ++ ls) := by
  intro js hjs
  rcases List.prefix_or_prefix_of_prefix hjs (List.prefix_append ks ls) with h | ⟨ms, rfl⟩
  · exact hk js h
  · have hle := hl ms ((List.prefix_append_right_inj ks).mp hjs)
    rw [List.count_append, List.count_append]
    omega

theorem isNested_group {ks : List TokenKind} (hk : IsNested ks) (hks : ks.count .closing = ks.count .opening) :
    IsNested (.opening :: (ks ++ [.closing])) := by
  intro js hjs
  rcases List.prefix_cons_iff.mp hjs with rfl | ⟨ms, rfl, h⟩
  · simp
  · rcases List.prefix_concat_iff.mp h with rfl | h
    · simp [hks]
    · have hle := hk ms h
      simp
      omega

namespace Formula

theorem count_kinds (f : Formula) :
    (f.symbols.map Prod.fst).count .closing = (f.symbols.map Prod.fst).count .opening := by
  have h := f.countP_symbols
  simpa [List.count, List.countP_map, Function.comp_def] using h.symm

theorem isNested_symbols (f : Formula) : IsNested (f.symbols.map Prod.fst) := by
  induction f with
  | literal s => exact isNested_of_notMem (by simp [symbols])
  | group f ih => simpa [symbols] using isNested_group ih f.count_kinds
  | thenLiteral e op s ih =>
    have hright : IsNested [.operation, .numeric] := isNested_of_notMem (by simp)
    simpa [symbols] using isNested_append ih e.count_kinds hright
  | thenGroup e op f ihe ihf =>
    have hop : IsNested [.operation] := isNested_of_notMem (by simp)
    have hright := isNested_append hop rfl (isNested_group ihf f.count_kinds)
    simpa [symbols] using isNested_append ihe e.count_kinds hright

end Formula

/-! ## Acceptance -/

namespace Expr

theorem exists_tokens_of_ofText {s : String} {e : Expr} (h : ofText s = .ok e) :
    ∃ ts s', Token.scan s = .ok ts ∧ ({} : Reduction).run s ts = .ok s' ∧ s'.finish s = .ok e := by
  unfold ofText tokensOf at h
  cases hscan : Token.scan s with
  | error e => simp [hscan, Except.mapError, bind, Except.bind] at h
  | ok ts =>
    simp only [hscan, Except.mapError, bind, Except.bind, ofTokens] at h
    cases hrun : ({} : Reduction).run s ts with
    | error e => simp [hrun] at h
    | ok s' =>
      rw [hrun] at h
      exact ⟨ts, s', rfl, hrun, h⟩

/-- The tokens of a text that is read are those of a formula, once they are balanced. -/
theorem exists_formula_of_ofText {s : String} {e : Expr} (h : ofText s = .ok e) :
    ∃ ts f, Token.scan s = .ok ts ∧ Spelling (ts.map Token.text) s.toList ∧ Formula.HasNumerals f ∧
      f.symbols = balanced 0 (ts.map Token.symbol) := by
  obtain ⟨ts, s', hscan, hrun, hfinish⟩ := exists_tokens_of_ofText h
  obtain ⟨hspelling, hscanned⟩ := Token.scan_spells hscan
  obtain ⟨n, us, hus, hplaced⟩ := Reduction.expects_of_run hscanned Reduction.coherent_init hrun hfinish
  obtain ⟨f, hf, hsymbols⟩ := exists_symbols_eq_balanced hplaced
  refine ⟨ts, f, hscan, hspelling, hf, ?_⟩
  rw [hus, balanced_replicate_closing, hsymbols]

theorem map_fst_symbol (ts : List Token) : (ts.map Token.symbol).map Prod.fst = ts.map Token.kind := by
  rw [List.map_map]
  rfl

theorem isWrittenAs_of_isNested {s : String} {ts : List Token} {f : Formula} (hscan : Token.scan s = .ok ts)
    (hspelling : Spelling (ts.map Token.text) s.toList) (hsymbols : f.symbols = balanced 0 (ts.map Token.symbol))
    (hnested : IsNested (ts.map Token.kind)) : f.IsWrittenAs s := by
  have hcount := Token.count_of_scan hscan
  rw [balanced_eq_self] at hsymbols
  · rw [Formula.IsWrittenAs, hsymbols, List.map_map]
    exact hspelling
  · rw [map_fst_symbol]
    simpa [IsNested] using hnested
  · rw [map_fst_symbol, Nat.zero_add]
    exact hcount.symm

/-- What is read is a formula but for closing parentheses that close nothing, and a text without these is read
exactly if it spells a formula. -/
theorem ofText_accepts (s : String) :
    (∀ e, ofText s = .ok e → ∃ ts f, Token.scan s = .ok ts ∧ Spelling (ts.map Token.text) s.toList ∧
      Formula.HasNumerals f ∧ f.symbols = balanced 0 (ts.map Token.symbol)) ∧
    (((∃ e, ofText s = .ok e) ∧ ∃ ts, Token.scan s = .ok ts ∧ IsNested (ts.map Token.kind)) ↔
      ∃ f : Formula, f.HasNumerals ∧ f.IsWrittenAs s) := by
  refine ⟨fun e h => exists_formula_of_ofText h, ?_, ?_⟩
  · rintro ⟨⟨e, h⟩, ts, hscan, hnested⟩
    obtain ⟨us, f, hscan', hspelling, hf, hsymbols⟩ := exists_formula_of_ofText h
    obtain rfl := Except.ok.inj (hscan.symm.trans hscan')
    exact ⟨f, hf, isWrittenAs_of_isNested hscan hspelling hsymbols hnested⟩
  · rintro ⟨f, hf, hs⟩
    obtain ⟨ts, hscan, hts⟩ := f.scan_eq hf hs
    refine ⟨⟨f.toExpr, ofText_eq_toExpr hf hs⟩, ts, hscan, ?_⟩
    rw [← map_fst_symbol, hts]
    exact f.isNested_symbols

theorem ofText_accepts_sum :
    (∃ ts f, Token.scan "1)+(2+3" = .ok ts ∧ Spelling (ts.map Token.text) "1)+(2+3".toList ∧
      Formula.HasNumerals f ∧ f.symbols = balanced 0 (ts.map Token.symbol)) ∧
    (((∃ e, ofText "1+(2+3)" = .ok e) ∧ ∃ ts, Token.scan "1+(2+3)" = .ok ts ∧ IsNested (ts.map Token.kind)) ↔
      ∃ f : Formula, f.HasNumerals ∧ f.IsWrittenAs "1+(2+3)") := by
  have hread : ofText "1)+(2+3" = .ok (.binary (.number (.amount "1")) .plus
      (.binary (.number (.amount "2")) .plus (.number (.amount "3")))) := by
    cbv
  exact ⟨(ofText_accepts "1)+(2+3").1 _ hread, (ofText_accepts "1+(2+3)").2⟩

/-- A parenthesis that is closed where none is open is passed over, and so is white space before the point of a
number. -/
theorem ofText_accepts_ne :
    ((∃ e, ofText "1)+(2+3" = .ok e) ∧ ¬ ∃ f : Formula, f.HasNumerals ∧ f.IsWrittenAs "1)+(2+3") ∧
      (∃ e, ofText "12 .5" = .ok e) ∧ ∃ t, Token.scan "12 .5" = .ok [t] ∧ t.text = "12 .5" := by
  refine ⟨⟨⟨.binary (.number (.amount "1")) .plus (.binary (.number (.amount "2")) .plus (.number (.amount "3"))),
    by cbv⟩, ?_⟩, ⟨.number (.amount "12.5"), by cbv⟩, ⟨.numeric, 0, "12 .5"⟩, by cbv, rfl⟩
  rintro ⟨f, hf, hs⟩
  obtain ⟨ts, hscan, hts⟩ := f.scan_eq hf hs
  have htokens : Token.scan "1)+(2+3" = .ok [⟨.numeric, 0, "1"⟩, ⟨.closing, 1, ")"⟩, ⟨.operation, 2, "+"⟩,
      ⟨.opening, 3, "("⟩, ⟨.numeric, 4, "2"⟩, ⟨.operation, 5, "+"⟩, ⟨.numeric, 6, "3"⟩] := by
    cbv
  obtain rfl := Except.ok.inj (htokens.symm.trans hscan)
  have hnested := f.isNested_symbols [.numeric, .closing]
  rw [← hts] at hnested
  simp [Token.symbol, List.prefix_cons_iff] at hnested

end Expr

end ExactCalc
