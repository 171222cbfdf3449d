import Mathlib
import ExactCalc.Proofs.Expr.Acceptance
import ExactCalc.Proofs.Expr.Tree
import ExactCalc.Proofs.Number.Writing
import ExactCalc.Proofs.Operand.Value

/-!
# Expressions as they are written

What is written for an expression is a spelling of a formula (`Expr.formula`), with every operand in parentheses
that is no number (`Expr.primary`). So it is read again; the expression that is read has the grouping of the one
that was written exactly if the formula is regular, and then it has its value, as far as the numbers are written in
full (`Expr.ofText_text`).
-/

namespace ExactCalc

open Text

/-! ## Operands -/

/-- An operand as it is written: a literal or a group. -/
inductive Primary
  | literal (s : String)
  | group (inner : Formula)

def Primary.formula : Primary → Formula
  | literal s => .literal s
  | group f => .group f

/-- Whether the operand is read as one where it follows an operation. -/
def Primary.readsInside : Primary → Bool
  | literal _ => true
  | group f => f.readsInside [.pending]

def Formula.followedBy (e : Formula) (op : Operation) : Primary → Formula
  | .literal s => .thenLiteral e op s
  | .group f => .thenGroup e op f

def Formula.quotient (r : Rat) : Formula := (literal (toString r.num)).followedBy .divide (.literal (toString r.den))

/-- A number as an operand. A rational whose period is too long to be written is a quotient. -/
def Number.primary : Number → Primary
  | rational r =>
    match exactRatText? r with
    | some s => .literal s
    | none => .group (.quotient r)
  | n => .literal n.text

namespace Formula

variable (e : Formula) (op : Operation) (p : Primary)

theorem symbols_followedBy : (e.followedBy op p).symbols = e.symbols ++ (.operation, op.text) :: p.formula.symbols := by
  cases p <;> rfl

theorem tree_followedBy : (e.followedBy op p).tree = .binary e.tree op p.formula.tree := by
  cases p <;> rfl

theorem literals_followedBy : (e.followedBy op p).literals = e.literals ++ p.formula.literals := by
  cases p <;> rfl

variable {e p}

theorem toExpr_followedBy (hp : p.readsInside = true) :
    (e.followedBy op p).toExpr = .binary e.toExpr op p.formula.toExpr := by
  cases p with
  | literal s => exact toExpr_thenLiteral e op s
  | group f => exact ((toExpr_thenGroup_iff e f op).mpr hp).trans (by rw [Primary.formula, toExpr_group])

theorem IsWrittenAs.followedBy {s t : String} (he : e.IsWrittenAs s) (hp : p.formula.IsWrittenAs t) :
    (e.followedBy op p).IsWrittenAs (s ++ " " ++ op.text ++ " " ++ t) := by
  have hop := Spelling.blank.append ((Spelling.word op.text).append Spelling.blank)
  have hall := Spelling.append he (hop.append hp)
  rw [IsWrittenAs, symbols_followedBy]
  simpa [String.toList_append] using hall

theorem HasNumerals.followedBy (he : e.HasNumerals) (hp : p.formula.HasNumerals) :
    (e.followedBy op p).HasNumerals := by
  rw [HasNumerals, literals_followedBy]
  exact List.forall_mem_append.mpr ⟨he, hp⟩

end Formula

namespace Number

variable {n : Number}

theorem isWrittenAs_primary (n : Number) : n.primary.formula.IsWrittenAs n.operandText := by
  cases n with
  | decimal d => exact Formula.isWrittenAs_literal _
  | numeral s | amount s => exact Formula.isWrittenAs_literal _
  | rational r =>
    rw [primary, operandText]
    cases h : exactRatText? r with
    | some s => exact Formula.isWrittenAs_literal s
    | none =>
      have hquotient := ((Formula.isWrittenAs_literal (toString r.num)).followedBy .divide
        (p := .literal (toString r.den)) (Formula.isWrittenAs_literal _)).group
      have htext : "(" ++ toString r.num ++ " / " ++ toString r.den ++ ")" =
          "(" ++ (toString r.num ++ " " ++ Operation.divide.text ++ " " ++ toString r.den) ++ ")" := by
        simp only [← String.toList_inj, String.toList_append, List.append_assoc]
        rfl
      rw [htext]
      exact hquotient

def IsWrittenInFull : Number → Prop
  | rational r => (exactRatText? r).isSome
  | _ => True

/-- As an operand the number is read again with its value: its text is not cut, or its quotient settles to it. -/
def KeepsValue (n : Number) : Prop := n.IsWrittenInFull ∨ settled n.worth = n.worth

theorem quotient_spec (r : Rat) : (Formula.quotient r).HasNumerals ∧
    (Formula.quotient r).tree.HasValue (settled r) ∧ (Formula.quotient r).tree.scaleSum = 0 := by
  obtain ⟨hnum, hnumValue, hnumScale⟩ := literal_spec (ofText?_toString r.num)
  obtain ⟨hden, hdenValue, hdenScale⟩ := literal_spec (ofText?_toString (r.den : Int))
  rw [Decimal.toRat_ofInt] at hnumValue hdenValue
  have hne : ((r.den : Int) : Rat) ≠ 0 := by exact_mod_cast r.den_ne_zero
  have hexact : Operation.divide.exact r.num ((r.den : Int) : Rat) = r := by
    rw [Operation.exact, Int.cast_natCast, Rat.num_div_den]
  refine ⟨?_, ?_, ?_⟩
  · refine Formula.HasNumerals.followedBy .divide ?_ ?_
    · intro s hs
      obtain rfl := List.mem_singleton.mp hs
      exact hnum
    · intro s hs
      obtain rfl := List.mem_singleton.mp hs
      exact hden
  · have hvalue : (Expr.binary _ .divide _).HasValue _ := hnumValue.binary hdenValue fun _ => hne
    rw [hexact] at hvalue
    rw [Formula.quotient, Formula.tree_followedBy]
    exact hvalue
  · rw [Formula.quotient, Formula.tree_followedBy, Expr.scaleSum_binary]
    exact congrArg₂ (· + ·) hnumScale hdenScale

theorem primary_spec (h : n.IsReadable) : n.primary.formula.HasNumerals ∧
    (∃ v, n.primary.formula.tree.HasValue v ∧ (n.KeepsValue → v = n.worth)) ∧
      n.decimalScale ≤ n.primary.formula.tree.scaleSum ∧
      n.primary.formula.tree.scaleSum ≤ n.decimalScale + Expansion.digitLimit := by
  have hliteral : ∀ {s : String} {v : Rat}, IsNumeral s ∧ (Expr.number (numberOf s)).HasValue v →
      (Formula.literal s).HasNumerals ∧ (Formula.literal s).tree.HasValue v := by
    intro s v hs
    exact ⟨by simpa [Formula.HasNumerals, Formula.literals] using hs.1, hs.2⟩
  cases n with
  | decimal d =>
    obtain ⟨hs, hvalue, hscale⟩ := literal_spec d.ofText?_text
    obtain ⟨hs', hvalue'⟩ := hliteral ⟨hs, hvalue⟩
    exact ⟨hs', ⟨_, hvalue', fun _ => rfl⟩, hscale.ge, hscale.le.trans (Nat.le_add_right _ _)⟩
  | numeral s | amount s =>
    obtain ⟨d, hd⟩ := Option.isSome_iff_exists.mp h
    obtain ⟨hs, hvalue, hscale⟩ := literal_spec hd
    obtain ⟨hs', hvalue'⟩ := hliteral ⟨hs, hvalue⟩
    refine ⟨hs', ⟨_, hvalue', fun _ => by simp [worth, hd]⟩, ?_⟩
    simp only [decimalScale, hd]
    exact ⟨hscale.ge, hscale.le.trans (Nat.le_add_right _ _)⟩
  | rational r =>
    rw [primary]
    cases hr : exactRatText? r with
    | some s =>
      obtain ⟨hs, hread, hworth, hle⟩ := numberOf_exactRatText hr
      obtain ⟨hs', hvalue'⟩ := hliteral ⟨hs.isNumeral, Expr.hasValue_number hread⟩
      refine ⟨hs', ⟨_, hvalue', fun _ => hworth⟩, Nat.zero_le _, ?_⟩
      show (Expr.number (numberOf s)).scaleSum ≤ 0 + _
      simpa [Expr.scaleSum, Expr.leaves] using hle
    | none =>
      obtain ⟨hnumerals, hvalue, hscale⟩ := quotient_spec r
      refine ⟨hnumerals, ⟨_, hvalue, fun hk => ?_⟩, Nat.zero_le _, ?_⟩
      · exact hk.resolve_left (by simp [IsWrittenInFull, hr])
      · show (Formula.quotient r).tree.scaleSum ≤ _
        omega

theorem isRegular_primary (n : Number) : n.primary.formula.isRegular = true ∧ n.primary.readsInside = true := by
  cases n with
  | decimal d => exact ⟨rfl, rfl⟩
  | numeral s | amount s => exact ⟨rfl, rfl⟩
  | rational r =>
    rw [primary]
    cases exactRatText? r with
    | some s => exact ⟨rfl, rfl⟩
    | none => exact ⟨rfl, rfl⟩

end Number

/-! ## Expressions -/

namespace Expr

def primary : Expr → Primary
  | number n => n.primary
  | binary left op right => .group (left.primary.formula.followedBy op right.primary)

def formula : Expr → Formula
  | number n => .literal n.text
  | binary left op right => left.primary.formula.followedBy op right.primary

theorem isWrittenAs_primary (e : Expr) : e.primary.formula.IsWrittenAs e.sideText := by
  induction e with
  | number n => exact n.isWrittenAs_primary
  | binary left op right ihl ihr =>
    have htext : (binary left op right).sideText =
        "(" ++ (left.sideText ++ " " ++ op.text ++ " " ++ right.sideText) ++ ")" := by
      simp only [sideText, String.append_assoc]
    rw [htext]
    exact (ihl.followedBy op ihr).group

theorem isWrittenAs_formula (e : Expr) : e.formula.IsWrittenAs e.text := by
  cases e with
  | number n => exact Formula.isWrittenAs_literal n.text
  | binary left op right => exact left.isWrittenAs_primary.followedBy op right.isWrittenAs_primary

theorem hasNumerals_primary {e : Expr} (h : ∀ n ∈ e.leaves, n.IsReadable) : e.primary.formula.HasNumerals := by
  induction e with
  | number n => exact (Number.primary_spec (h n (by simp [leaves]))).1
  | binary left op right ihl ihr =>
    obtain ⟨hl, hr⟩ := List.forall_mem_append.mp h
    exact (ihl hl).followedBy op (ihr hr)

theorem HasValue.of_binary {left right : Expr} {op : Operation} {v : Rat}
    (h : (Expr.binary left op right).HasValue v) :
    left.HasValue left.rational ∧ right.HasValue right.rational ∧ (op.divides = true → right.rational ≠ 0) ∧
      v = settled (op.exact left.rational right.rational) := by
  obtain ⟨hread, hfaults, hvalue⟩ := h
  obtain ⟨hl, hr⟩ := List.forall_mem_append.mp hread
  rw [faults, List.append_eq_nil_iff, List.append_eq_nil_iff] at hfaults
  obtain ⟨⟨hlf, hrf⟩, hzero⟩ := hfaults
  refine ⟨⟨hl, hlf, rfl⟩, ⟨hr, hrf, rfl⟩, fun hop hv => ?_, hvalue.symm⟩
  simp [hop, hv] at hzero

/-- An operand is read with its value in the tree of its formula, if its numbers keep theirs. -/
theorem HasValue.tree_primary {e : Expr} {v : Rat} (h : e.HasValue v) (hkeep : ∀ n ∈ e.leaves, n.KeepsValue) :
    e.primary.formula.tree.HasValue v := by
  induction e generalizing v with
  | number n =>
    obtain ⟨-, ⟨u, hu, hvalue⟩, -⟩ := Number.primary_spec (h.readable n (by simp [leaves]))
    have huv : u = v := (hvalue (hkeep n (by simp [leaves]))).trans h.rational_eq
    exact huv ▸ hu
  | binary left op right ihl ihr =>
    obtain ⟨hl, hr, hne, rfl⟩ := h.of_binary
    obtain ⟨hkl, hkr⟩ := List.forall_mem_append.mp hkeep
    show (left.primary.formula.followedBy op right.primary).tree.HasValue _
    rw [Formula.tree_followedBy]
    exact (ihl hl hkl).binary (ihr hr hkr) hne

theorem scaleSum_le_primary {e : Expr} (h : ∀ n ∈ e.leaves, n.IsReadable) :
    e.scaleSum ≤ e.primary.formula.tree.scaleSum := by
  induction e with
  | number n =>
    have hone : (number n).scaleSum = n.decimalScale := by simp [scaleSum, leaves]
    rw [hone]
    exact (Number.primary_spec (h n (by simp [leaves]))).2.2.1
  | binary left op right ihl ihr =>
    obtain ⟨hl, hr⟩ := List.forall_mem_append.mp h
    show _ ≤ (left.primary.formula.followedBy op right.primary).tree.scaleSum
    rw [Formula.tree_followedBy, scaleSum_binary, scaleSum_binary]
    exact Nat.add_le_add (ihl hl) (ihr hr)

end Expr

/-! ## Scales -/

theorem decimalScale_le_of_ofText? {t : String} {d : Decimal} (h : Decimal.ofText? t = some d) :
    d.scale ≤ t.toList.length := by
  obtain ⟨negative, whole, fraction, -, -, -, ht, hlen, rfl⟩ := Decimal.exists_plain_of_ofChars? h
  refine (Decimal.scale_ofScaled_le _ _ hlen).trans ?_
  rw [ht, plainChars]
  split_ifs <;> simp_all <;> omega

theorem Number.decimalScale_le_of_ofText {t : String} {n : Number} (h : Number.ofText t = .ok n) :
    n.decimalScale ≤ t.toList.length := by
  have htext : (Decimal.ofText? t).elim 0 Decimal.scale ≤ t.toList.length := by
    cases hd : Decimal.ofText? t with
    | none => exact Nat.zero_le _
    | some d => exact decimalScale_le_of_ofText? hd
  unfold ofText at h
  split_ifs at h with hempty hamount hnumeric
  · obtain rfl := Except.ok.inj h
    have hzero : zero.decimalScale = 0 := by cbv
    omega
  · obtain rfl := Except.ok.inj h
    exact htext
  · obtain rfl := Except.ok.inj h
    exact htext
  · cases hr : recurringValue? t with
    | none => simp [hr] at h
    | some r =>
      rw [hr] at h
      obtain rfl := Except.ok.inj h
      exact Nat.zero_le _

theorem decimalScale_numberOf_le (s : String) : (numberOf s).decimalScale ≤ s.toList.length := by
  unfold numberOf
  split
  · rename_i n hn
    have hle := Number.decimalScale_le_of_ofText hn
    rw [String.toList_ofList] at hle
    exact hle.trans (List.length_filter_le _ _)
  · have hzero : Number.zero.decimalScale = 0 := by cbv
    omega

theorem Formula.literals_sublist (f : Formula) : f.literals.Sublist (f.symbols.map Prod.snd) := by
  induction f with
  | literal s => exact .refl _
  | group f ih =>
    simp only [literals, symbols, List.map_cons, List.map_append]
    exact (ih.trans (List.sublist_append_left _ _)).cons _
  | thenLiteral e op s ih =>
    simp only [literals, symbols, List.map_append]
    exact ih.append (.cons _ (.refl _))
  | thenGroup e op f ihe ihf =>
    simp only [literals, symbols, List.map_cons, List.map_append]
    exact ihe.append (((ihf.trans (List.sublist_append_left _ _)).cons _).cons _)

/-- The scales of the numbers of a formula are not longer than a text that spells it. -/
theorem Formula.scaleSum_tree_le {f : Formula} {s : String} (h : f.IsWrittenAs s) :
    f.tree.scaleSum ≤ s.toList.length := by
  have hwords := Spelling.sum_length_le h
  have hliterals := (f.literals_sublist.map fun w => w.toList.length).sum_le_sum (by simp)
  have hscales : ((f.literals.map numberOf).map Number.decimalScale).sum ≤
      (f.literals.map fun w => w.toList.length).sum := by
    rw [List.map_map]
    exact List.sum_le_sum fun w _ => decimalScale_numberOf_le w
  rw [Expr.scaleSum, leaves_tree]
  omega

theorem Formula.scaleSum_toExpr_le {f : Formula} {s : String} (h : f.IsWrittenAs s) :
    f.toExpr.scaleSum ≤ s.toList.length := by
  have hle := f.scaleSum_tree_le h
  rwa [Expr.scaleSum, leaves_tree, ← leaves_toExpr] at hle

/-! ## Reading again -/

theorem Token.exists_denotes_of_mem {ts : List Token} {is : List Item} (h : List.Forall₂ Denotes ts is) {i : Item}
    (hi : i ∈ is) : ∃ t ∈ ts, t.Denotes i := by
  induction h with
  | nil => simp at hi
  | @cons t j ts is hd _ ih =>
    rcases List.mem_cons.mp hi with rfl | hi
    · exact ⟨t, by simp, hd⟩
    · obtain ⟨u, hu, hdenotes⟩ := ih hi
      exact ⟨u, by simp [hu], hdenotes⟩

namespace Expr

theorem mem_inorder_of_mem_leaves {e : Expr} {n : Number} (h : n ∈ e.leaves) : .number n ∈ e.inorder := by
  induction e with
  | number m => simpa [leaves, inorder] using h
  | binary left op right ihl ihr =>
    rcases List.mem_append.mp h with h | h
    · exact List.mem_append_left _ (ihl h)
    · exact List.mem_append_right _ (List.mem_cons_of_mem _ (ihr h))

theorem exists_numeral_of_mem_leaves {s : String} {e : Expr} {n : Number} (h : ofText s = .ok e) (hn : n ∈ e.leaves) :
    ∃ t, IsNumeral t ∧ Number.ofText (String.ofList (dropBlanks t.toList)) = .ok n := by
  obtain ⟨ts, s', hscan, hrun, hfinish⟩ := exists_tokens_of_ofText h
  have htokens : ofTokens s ts = .ok e := by
    rw [ofTokens, hrun]
    exact hfinish
  obtain ⟨-, hscanned⟩ := Token.scan_spells hscan
  obtain ⟨t, ht, hdenotes⟩ := Token.exists_denotes_of_mem (ofTokens_inorder htokens) (mem_inorder_of_mem_leaves hn)
  cases hdenotes with
  | number hk hnumber => exact ⟨t.text, (hscanned t (List.mem_of_mem_filter ht)).isNumeral hk ⟨n, hnumber⟩, hnumber⟩

theorem exists_sides_of_resolve {left right : Expr} {op : Operation} {n : Number}
    (h : (binary left op right).resolve = .ok n) :
    ∃ u b v c, left.resolve = .ok u ∧ u.exactFor op = .ok b ∧ right.resolve = .ok v ∧ v.exactFor op = .ok c := by
  rw [← resolve_toOperand] at h
  obtain ⟨b, c, hb, hc, -⟩ := Operand.exists_exactFor_of_resolve h
  obtain ⟨u, hu, hub⟩ := exists_of_bind_ok hb
  obtain ⟨v, hv, hvc⟩ := exists_of_bind_ok hc
  rw [resolve_toOperand] at hu hv
  exact ⟨u, b, v, c, hu, hub, hv, hvc⟩

theorem isReadable_of_exactFor {e : Expr} {m : Number} {op : Operation} {a : Exact}
    (hleaves : ∀ n ∈ e.leaves, ∃ t, Number.ofText t = .ok n) (hm : e.resolve = .ok m) (ha : m.exactFor op = .ok a) :
    ∀ n ∈ e.leaves, n.IsReadable := by
  induction e generalizing m op a with
  | number n =>
    obtain rfl := Except.ok.inj hm
    obtain ⟨t, ht⟩ := hleaves n (by simp [leaves])
    simpa [leaves] using Number.isReadable_of_exactFor ht ha
  | binary left op' right ihl ihr =>
    obtain ⟨hl, hr⟩ := List.forall_mem_append.mp hleaves
    obtain ⟨u, b, v, c, hu, hub, hv, hvc⟩ := exists_sides_of_resolve hm
    exact List.forall_mem_append.mpr ⟨ihl hl hu hub, ihr hr hv hvc⟩

/-- The numbers of the expression keep their values where it is written. -/
def KeepsValues : Expr → Prop
  | number n => n.IsWrittenInFull
  | binary left _ right => ∀ n ∈ left.leaves ++ right.leaves, n.KeepsValue

theorem sideText_toOperand (e : Expr) : e.toOperand.sideText = e.sideText := by
  induction e with
  | number n => rfl
  | binary left op right ihl ihr => rw [toOperand, Operand.sideText, sideText, ihl, ihr]

theorem text_toOperand (e : Expr) : e.toOperand.text = e.text := by
  cases e with
  | number n => rfl
  | binary left op right => rw [toOperand, Operand.text, text, sideText_toOperand, sideText_toOperand]

theorem ofText_text_number {t : String} {n : Number} (ht : IsNumeral t)
    (hn : Number.ofText (String.ofList (dropBlanks t.toList)) = .ok n) :
    IsNumeral n.text ∧ (n.IsWrittenInFull → (numberOf n.text).toRational = n.toRational) := by
  have hself : numberOf (String.ofList (dropBlanks t.toList)) = n := by
    rw [numberOf, String.toList_ofList, dropBlanks_dropBlanks, hn]
  have hwritten := ht.dropBlanks
  generalize String.ofList (dropBlanks t.toList) = s at hn hself hwritten
  unfold Number.ofText at hn
  split_ifs at hn with hempty hamount hnumeric
  · obtain rfl := Except.ok.inj hn
    have hzero : IsLiteral "0" := isLiteral_digit (c := '0') rfl
    have hnumber : numberOf "0" = .zero := hzero.numberOf_eq (by cbv)
    exact ⟨hzero.isNumeral, fun _ => by rw [Number.zero, Number.text, hnumber, Number.zero]⟩
  · obtain rfl := Except.ok.inj hn
    exact ⟨hwritten, fun _ => by rw [Number.text, hself]⟩
  · obtain rfl := Except.ok.inj hn
    exact ⟨hwritten, fun _ => by rw [Number.text, hself]⟩
  · cases hr : recurringValue? s with
    | none => simp [hr] at hn
    | some r =>
      rw [hr] at hn
      obtain rfl := Except.ok.inj hn
      refine ⟨(isLiteral_ratText r).isNumeral, fun hfull => ?_⟩
      obtain ⟨w, hw⟩ := Option.isSome_iff_exists.mp hfull
      obtain ⟨-, hread, hworth, -⟩ := numberOf_exactRatText hw
      obtain ⟨-, htext⟩ := isExact_iff_exactRatText?.mp hw
      rw [Number.text, htext, Number.toRational_of_isReadable hread, hworth]
      rfl

theorem exists_value_of_evaluates {e : Expr} {n : Number} (hread : ∀ m ∈ e.leaves, m.IsReadable)
    (hscale : e.scaleSum < Decimal.scaleLimit) (hn : e.resolve = .ok n) :
    e.HasValue n.worth ∧ n.IsReadable := by
  have heval := evaluates hread hscale
  unfold Evaluates at heval
  cases hfaults : e.faults with
  | cons op ops =>
    rw [hfaults, hn] at heval
    simp at heval
  | nil =>
    rw [hfaults] at heval
    obtain ⟨m, hm, hmread, hmworth, -⟩ := heval
    obtain rfl := Except.ok.inj (hn.symm.trans hm)
    exact ⟨⟨hread, hfaults, hmworth.symm⟩, hmread⟩

theorem ofText_text_binary {left right : Expr} {op : Operation} {n : Number}
    (hleaves : ∀ m ∈ (binary left op right).leaves, ∃ t, Number.ofText t = .ok m)
    (hn : (binary left op right).resolve = .ok n) :
    (binary left op right).formula.HasNumerals ∧
      ((binary left op right).formula.isRegular = true → (∀ m ∈ left.leaves ++ right.leaves, m.KeepsValue) →
        (binary left op right).text.toList.length < Decimal.scaleLimit →
        ∃ m, (binary left op right).formula.toExpr.resolve = .ok m ∧ m.toRational = n.toRational) := by
  obtain ⟨hll, hrl⟩ := List.forall_mem_append.mp hleaves
  obtain ⟨u, b, v, c, hu, hub, hv, hvc⟩ := exists_sides_of_resolve hn
  have hl := isReadable_of_exactFor hll hu hub
  have hr := isReadable_of_exactFor hrl hv hvc
  have hread : ∀ m ∈ (binary left op right).leaves, m.IsReadable := List.forall_mem_append.mpr ⟨hl, hr⟩
  refine ⟨(hasNumerals_primary hl).followedBy op (hasNumerals_primary hr), ?_⟩
  intro hregular hkeep hlen
  have htree : (binary left op right).formula.tree.scaleSum < Decimal.scaleLimit :=
    (Formula.scaleSum_tree_le (isWrittenAs_formula _)).trans_lt hlen
  have hscale : (binary left op right).scaleSum ≤ (binary left op right).formula.tree.scaleSum :=
    scaleSum_le_primary hread
  obtain ⟨hvalue, hnread⟩ := exists_value_of_evaluates hread (hscale.trans_lt htree) hn
  have hagain : (binary left op right).formula.tree.HasValue n.worth := hvalue.tree_primary hkeep
  obtain ⟨m, hm, hmread, hmworth, -⟩ := hagain.exists_resolve htree
  refine ⟨m, ?_, ?_⟩
  · rw [(Formula.toExpr_eq_tree_iff _).mpr hregular]
    exact hm
  · rw [Number.toRational_of_isReadable hmread, Number.toRational_of_isReadable hnread, hmworth]

end Expr

/-- What is written for an operand that was read is read again. It has its grouping exactly if each of its groups
after an operation is read as one operand; then it has its value, if its numbers keep theirs. -/
theorem Operand.parsed_text {s : String} {e : Expr} {n : Number} (h : (Phrase.written s).parsed = .ok e)
    (hn : e.toOperand.resolve = .ok n) :
    ∃ e', (Phrase.written e.toOperand.text).parsed = .ok e' ∧ (e' = e.formula.tree ↔ e.formula.isRegular = true) ∧
      (e.formula.isRegular = true → e.KeepsValues → e.toOperand.text.toList.length < Decimal.scaleLimit →
        ∃ m, e'.toOperand.resolve = .ok m ∧ m.toRational = n.toRational) := by
  have hleaves : ∀ m ∈ e.leaves, ∃ t, IsNumeral t ∧ Number.ofText (String.ofList (dropBlanks t.toList)) = .ok m :=
    fun m hm => Expr.exists_numeral_of_mem_leaves h hm
  suffices hspec : e.formula.HasNumerals ∧ (e.formula.isRegular = true → e.KeepsValues →
      e.text.toList.length < Decimal.scaleLimit → ∃ m, e.formula.toExpr.resolve = .ok m ∧
        m.toRational = n.toRational) by
    refine ⟨e.formula.toExpr, ?_, Formula.toExpr_eq_tree_iff _, ?_⟩
    · rw [Expr.text_toOperand]
      exact Expr.ofText_eq_toExpr hspec.1 e.isWrittenAs_formula
    · rw [Expr.text_toOperand, Expr.resolve_toOperand]
      exact hspec.2
  rw [Expr.resolve_toOperand] at hn
  cases e with
  | number m =>
    obtain rfl := Except.ok.inj hn
    obtain ⟨t, ht, hnumber⟩ := hleaves m (by simp [Expr.leaves])
    obtain ⟨hnumeral, hvalue⟩ := Expr.ofText_text_number ht hnumber
    refine ⟨?_, fun _ hfull _ => ⟨numberOf m.text, rfl, hvalue hfull⟩⟩
    intro s hs
    obtain rfl := List.mem_singleton.mp hs
    exact hnumeral
  | binary left op right =>
    refine Expr.ofText_text_binary (fun m hm => ?_) hn
    obtain ⟨t, -, hnumber⟩ := hleaves m hm
    exact ⟨_, hnumber⟩

theorem Operand.parsed_text_group :
    let e : Expr := .binary (.number (.amount "1")) .minus
      (.binary (.number (.amount "2")) .plus (.number (.numeral "-3")))
    ∃ e' m, (Phrase.written e.toOperand.text).parsed = .ok e' ∧ e'.toOperand.resolve = .ok m ∧
      m.toRational = (Number.decimal (.ofInt 2)).toRational := by
  intro e
  have hread : (Phrase.written "1-(2+(- 3))").parsed = .ok e := by cbv
  have hvalue : e.toOperand.resolve = .ok (.decimal (.ofInt 2)) := by cbv
  obtain ⟨e', he', -, hkept⟩ := Operand.parsed_text hread hvalue
  obtain ⟨m, hm, hsame⟩ := hkept rfl
    (by simp [e, Expr.KeepsValues, Expr.leaves, Number.KeepsValue, Number.IsWrittenInFull])
    (by cbv)
  exact ⟨e', m, he', hm, hsame⟩

/-- The written text has one pair of parentheses around `3 + 4`, and is read with another grouping. -/
theorem Operand.parsed_text_ne :
    ¬ ∀ (s : String) (e : Expr) (n : Number), (Phrase.written s).parsed = .ok e → e.toOperand.resolve = .ok n →
      ∃ e' m, (Phrase.written e.toOperand.text).parsed = .ok e' ∧ e'.toOperand.resolve = .ok m ∧
        m.toRational = n.toRational := by
  intro h
  have hread : (Phrase.written "1 + ((2 - ((3 + 4))) * 5)").parsed = .ok (.binary (.number (.amount "1")) .plus
      (.binary (.binary (.number (.amount "2")) .minus
        (.binary (.number (.amount "3")) .plus (.number (.amount "4")))) .multiply (.number (.amount "5")))) := by
    cbv
  obtain ⟨e', m, he', hm, hsame⟩ := h _ _ (.decimal (.ofInt (-24))) hread (by cbv)
  have hagain : (Phrase.written "1 + ((2 - (3 + 4)) * 5)").parsed = .ok (.binary (.binary (.number (.amount "1")) .plus
      (.binary (.number (.amount "2")) .minus (.binary (.number (.amount "3")) .plus (.number (.amount "4")))))
        .multiply (.number (.amount "5"))) := by
    cbv
  obtain rfl := Except.ok.inj (hagain.symm.trans he')
  have hvalue : (Expr.binary (.binary (.number (.amount "1")) .plus (.binary (.number (.amount "2")) .minus
      (.binary (.number (.amount "3")) .plus (.number (.amount "4"))))) .multiply
        (.number (.amount "5"))).toOperand.resolve = .ok (.decimal (.ofInt (-20))) := by
    cbv
  obtain rfl := Except.ok.inj (hvalue.symm.trans hm)
  rw [Number.toRational, Number.toRational, Decimal.toRat_ofInt, Decimal.toRat_ofInt] at hsame
  norm_num at hsame

end ExactCalc
