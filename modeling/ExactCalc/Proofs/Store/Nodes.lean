import Mathlib
import ExactCalc.Proofs.Operand.Value
import ExactCalc.Proofs.Store.Computation

/-!
# Nodes and their texts

What is made for a number, an expression or an operand is a node of it, and the text, the tokens and the expression of
a node are those of its operand, whatever its memo and those of its sides hold.
-/

namespace ExactCalc

variable {st : Store} {id : Nat} {x : Operand}

/-! ## New nodes -/

namespace Session

theorem newNode_gives {c : Cell} (hc : st.Coherent → c.IsCoherent st) :
    (newNode c).Gives st fun st' id => (id : Nat) = st.cells.size ∧ st'.Holds id c.operand := by
  intro hst
  refine ⟨st.grows_push c, hst.push (hc hst), rfl, ?_, ?_⟩
  · show st.cells.size < (st.push c).2.cells.size
    rw [Store.size_push]
    omega
  · show ((st.push c).2.cell st.cells.size).operand = _
    rw [Store.cell_push_size]

theorem newNode_gives_holds {c : Cell} (hc : st.Coherent → c.IsCoherent st) (hx : c.operand = x) :
    (newNode c).Gives st fun st' id => st'.Holds id x :=
  (newNode_gives hc).imp fun _ _ _ h => hx ▸ h.2

theorem isCoherent_number (hst : st.Coherent) (n : Number) : ({ operand := .number n } : Cell).IsCoherent st :=
  ⟨hst.zero, hst.zero, Memo.agrees_empty _ st⟩

theorem isCoherent_sides {l r : Nat} (hl : st.Holds l x.leftSide) (hr : st.Holds r x.rightSide) :
    ({ operand := x, left := l, right := r } : Cell).IsCoherent st :=
  ⟨hl, hr, Memo.agrees_empty _ st⟩

theorem newNumber_gives (n : Number) : (newNumber n).Gives st fun st' id => st'.Holds id (.number n) := by
  unfold newNumber
  split_ifs with hzero hone
  · exact fun hst => ⟨.refl st, hst, hzero ▸ hst.zero⟩
  · exact fun hst => ⟨.refl st, hst, hone ▸ hst.one⟩
  · exact newNode_gives_holds (fun hst => isCoherent_number hst n) rfl

/-- The number that an operation gives is never the shared zero or one. -/
theorem newNumber_gives_of_onExact {op : Operation} {a b : Exact} {n : Number} (h : op.onExact a b = .ok n) :
    (newNumber n).Gives st fun st' id => st'.Holds id (.number n) ∧ (st.cells.size : Nat) ≤ id := by
  have hne : n ≠ .zero ∧ n ≠ .one := by
    obtain ⟨d, rfl⟩ | ⟨r, rfl⟩ := Operation.exists_of_onExact h <;> simp [Number.zero, Number.one]
  rw [newNumber, if_neg hne.1, if_neg hne.2]
  exact (newNode_gives fun hst => isCoherent_number hst n).imp fun _ _ _ h => ⟨h.2, h.1.ge⟩

/-- What is made for an expression is new, unless it is a number. -/
theorem newExpr_gives (e : Expr) : (newExpr e).Gives st fun st' id =>
    st'.Holds id e.toOperand ∧ ((∃ n, e = .number n) ∨ (st.cells.size : Nat) ≤ id) := by
  induction e generalizing st with
  | number n => exact (newNumber_gives n).imp fun _ _ _ h => ⟨h, .inl ⟨n, rfl⟩⟩
  | binary left op right ihl ihr =>
    refine ihl.bind fun l st₁ hgrows₁ hl => ihr.bind fun r st₂ hgrows₂ hr => ?_
    refine (newNode_gives fun _ => isCoherent_sides (hl.1.mono hgrows₂.toExtends) hr.1).imp fun _ i _ h =>
      ⟨h.2, .inr ?_⟩
    exact (hgrows₁.trans hgrows₂).size_le.trans h.1.ge

mutual

theorem newOperand_gives (x : Operand) (st : Store) : (newOperand x).Gives st fun st' id => st'.Holds id x := by
  cases x with
  | number n => exact newNumber_gives n
  | calculation left op right =>
    refine (newOperand_gives left st).bind fun l st₁ _ hl => (newOperand_gives right st₁).bind fun r st₂ hgrows hr => ?_
    exact newNode_gives_holds (fun _ => isCoherent_sides (hl.mono hgrows.toExtends) hr) rfl
  | phrase p => exact newPhrase_gives p st

theorem newPhrase_gives (p : Phrase) (st : Store) : (newPhrase p).Gives st fun st' id => st'.Holds id (.phrase p) := by
  cases p with
  | written s => exact newNode_gives_holds (fun hst => isCoherent_sides hst.zero hst.zero) rfl
  | extended p op x =>
    refine (newPhrase_gives p st).bind fun l st₁ _ hl => (newOperand_gives x st₁).bind fun r st₂ hgrows hr => ?_
    exact newNode_gives_holds (fun _ => isCoherent_sides (hl.mono hgrows.toExtends) hr) rfl

end

theorem newCalculation_gives {left right : Operand} {l r : Nat} (hl : st.Holds l left) (hr : st.Holds r right)
    (op : Operation) : (newCalculation l op r).Gives st fun st' id => st'.Holds id (.calculation left op right) := by
  refine Gives.bind_get fun _ => ?_
  rw [hl.2, hr.2]
  exact newNode_gives_holds (fun _ => isCoherent_sides hl hr) rfl

end Session

theorem Attempt.sides_gives (hid : st.Holds id x) :
    (Attempt.sides id).Gives st fun st' p => st'.Holds p.1 x.leftSide ∧ st'.Holds p.2 x.rightSide := by
  intro hst
  have hcell := hst.cell id
  rw [← hid.2]
  exact ⟨.refl st, hst, hcell.left, hcell.right⟩

/-! ## Texts -/

namespace NumberNode

variable {n : Number}

theorem text_gives (hid : st.Holds id (.number n)) : (NumberNode.text ⟨n, id⟩).Gives st fun _ s => s = n.text := by
  cases n with
  | decimal d | numeral s | amount s => exact .pure rfl
  | rational r =>
    refine (Session.Gives.remember (Q := fun _ => True) Memo.remembers_text hid (.pure ⟨rfl, trivial⟩)).imp ?_
    exact fun _ _ _ h => (Except.ok.inj h.1).symm

theorem operandText_gives (hid : st.Holds id (.number n)) :
    (NumberNode.operandText ⟨n, id⟩).Gives st fun _ s => s = n.operandText := by
  cases n with
  | decimal d | numeral s | amount s => exact .pure rfl
  | rational r =>
    have hpure : (exactRatText? r).isSome = true → (Number.rational r).operandText = ratText r := by
      intro h
      rw [Number.operandText]
      unfold exactRatText? at h ⊢
      split_ifs at h ⊢ <;> simp at h ⊢
    simp only [NumberNode.operandText]
    split_ifs with h
    · rw [hpure h]
      exact text_gives hid
    · exact .pure rfl

end NumberNode

namespace Node

theorem tokensWith_gives {source : Session String} (hid : st.Holds id x)
    (hsource : ∀ st', st.Grows st' → source.Gives st' fun _ s => s = x.text) :
    (tokensWith id source).Gives st fun _ ts => ts = Token.scan x.text := by
  refine (Session.Gives.remember (Q := fun _ => True) Memo.remembers_tokens hid ?_).imp fun _ _ _ h => h.1
  refine (hsource st (.refl st)).bind fun s st₁ _ hs => .pure ⟨?_, trivial⟩
  rw [hs]

/-- What a phrase is read as is what its memo holds; if it holds nothing, it is a number or new. -/
theorem parsedWith_gives {source : Session String} (hid : st.Holds id x)
    (hsource : ∀ st', st.Grows st' → source.Gives st' fun _ s => s = x.text) :
    (parsedWith id source).Gives st fun st' r =>
      Result.Matches (fun v e => v.1 = e ∧ st'.Holds v.2 e.toOperand) r (Expr.ofText x.text) ∧
        ((st.memo id).parsed = some r ∨
          (st.memo id).parsed = none ∧ ∀ v, r = .ok v → (∃ n, v.1 = .number n) ∨ (st.cells.size : Nat) ≤ v.2) := by
  refine Session.Gives.remember Memo.remembers_parsed hid ?_
  refine (hsource st (.refl st)).bind fun s st₁ hgrows₁ hs => ?_
  subst hs
  have hid₁ := hid.mono hgrows₁.toExtends
  refine (tokensWith_gives hid₁ fun st' hst' => hsource st' (hgrows₁.trans hst')).bind fun ts st₂ hgrows₂ hts => ?_
  subst hts
  have hsize := (hgrows₁.trans hgrows₂).size_le
  -- what is read is the expression of the text
  have hread : (do Expr.ofTokens x.text (← (Token.scan x.text).mapError CalcError.scan) : Result Expr) =
      Expr.ofText x.text := rfl
  rw [hread]
  cases Expr.ofText x.text with
  | error err => exact .pure ⟨.error err, by simp⟩
  | ok e =>
    refine (Session.newExpr_gives e).bind fun i st₃ _ hi => .pure ⟨.ok ⟨rfl, hi.1⟩, ?_⟩
    rintro _ ⟨⟩
    exact hi.2.imp_right hsize.trans

/-- What is written before the sign of an extension is what stands there in its text. -/
theorem baseText_gives {source : Session String} {s : String} {r : Result (Expr × NodeId)}
    (hsource : ∀ st', st.Grows st' → source.Gives st' fun _ t => t = s)
    (hr : Result.Matches (fun v e => v.1 = e ∧ st.Holds v.2 e.toOperand) r (Expr.ofText s)) :
    (baseText source r).Gives st fun _ t => ∀ op right, t ++ " " ++ op.text ++ " " ++ right =
      Phrase.join s (Expr.ofText s) op right := by
  have hgroup : (do return "(" ++ (← source) ++ ")" : Session String).Gives st fun _ t => t = "(" ++ s ++ ")" :=
    (hsource st (.refl st)).bind fun t _ _ ht => .pure (by rw [ht])
  generalize Expr.ofText s = parsed at hr
  cases hr with
  | error err => exact hgroup.imp fun _ t _ ht op right => by rw [ht]; rfl
  | @ok v e hv =>
    obtain ⟨e, i⟩ := v
    obtain ⟨rfl, hi⟩ := hv
    cases e with
    | number n => exact (NumberNode.operandText_gives hi).imp fun _ t _ ht op right => by rw [ht]; rfl
    | binary left o right' => exact hgroup.imp fun _ t _ ht op right => by rw [ht]; rfl

mutual

theorem sideText_gives (x : Operand) {id : Nat} {st : Store} (hid : st.Holds id x) :
    (sideText x id).Gives st fun _ s => s = x.sideText := by
  cases x with
  | number n => exact NumberNode.operandText_gives hid
  | calculation left op right =>
    refine (Attempt.sides_gives hid).bind fun p st₁ _ hp => ?_
    refine (sideText_gives left hp.1).bind fun l st₂ hgrows hl => ?_
    refine (sideText_gives right (hp.2.mono hgrows.toExtends)).bind fun r st₃ _ hr => ?_
    subst hl hr
    exact .pure rfl
  | phrase p =>
    refine (phraseText_gives p hid).bind fun s st₁ _ hs => ?_
    subst hs
    exact .pure rfl

theorem phraseText_gives (p : Phrase) {id : Nat} {st : Store} (hid : st.Holds id (.phrase p)) :
    (phraseText p id).Gives st fun _ s => s = p.text := by
  cases p with
  | written s => exact .pure rfl
  | extended p op x =>
    refine (Attempt.sides_gives hid).bind fun q st₁ _ hq => ?_
    refine (parsedWith_gives hq.1 fun st' hgrows => phraseText_gives p (hq.1.mono hgrows.toExtends)).bind
      fun r st₂ hgrows hr => ?_
    have hid₂ := hq.1.mono hgrows.toExtends
    refine (baseText_gives (fun _ h => phraseText_gives p (hid₂.mono h.toExtends)) hr.1).bind fun s st₃ hgrows₃ hs => ?_
    refine (sideText_gives x (hq.2.mono (hgrows.trans hgrows₃).toExtends)).bind fun t st₄ _ ht => ?_
    subst ht
    exact .pure (hs op x.sideText)

end

theorem text_gives (hid : st.Holds id x) : (text x id).Gives st fun _ s => s = x.text := by
  cases x with
  | number n => exact NumberNode.text_gives hid
  | calculation left op right =>
    refine (Attempt.sides_gives hid).bind fun p st₁ _ hp => ?_
    refine (sideText_gives left hp.1).bind fun l st₂ hgrows hl => ?_
    refine (sideText_gives right (hp.2.mono hgrows.toExtends)).bind fun r st₃ _ hr => ?_
    subst hl hr
    exact .pure rfl
  | phrase p => exact phraseText_gives p hid

theorem inspect_gives (x : Operand) {id : Nat} {st : Store} (hid : st.Holds id x) :
    (inspect x id).Gives st fun _ s => s = x.inspect := by
  cases x with
  | number n => exact (NumberNode.text_gives hid).bind fun s _ _ hs => .pure (congrArg (Operand.inspectNumber n) hs)
  | calculation left op right =>
    refine (Attempt.sides_gives hid).bind fun p st₁ _ hp => ?_
    refine (inspect_gives left hp.1).bind fun l st₂ hgrows hl => ?_
    refine (inspect_gives right (hp.2.mono hgrows.toExtends)).bind fun r st₃ _ hr => ?_
    subst hl hr
    exact .pure rfl
  | phrase p => exact (phraseText_gives p hid).bind fun s _ _ hs => .pure (congrArg Operand.inspectPhrase hs)

/-! ## Reading -/

theorem parsed_refines {p : Phrase} (hid : st.Holds id (.phrase p)) :
    (parsed p id).Refines st p.parsed fun st' v e => v.1 = e ∧ st'.Holds v.2 e.toOperand :=
  (parsedWith_gives (x := .phrase p) hid fun _ hgrows => phraseText_gives p (hid.mono hgrows.toExtends)).imp
    fun _ _ _ h => h.1

theorem bind_operandOf {α : Type} {f : Operand → Session α} {Q : Store → α → Prop} (hid : st.Holds id x)
    (h : (f x).Gives st Q) : Session.Gives (operandOf id >>= f) st Q := by
  intro hst
  rw [← hid.2] at h
  exact h hst

theorem phraseOf_gives (hid : st.Holds id x) : (Session.phraseOf id).Gives st fun st' p =>
    ∀ st'', st'.Grows st'' → (phraseText p id).Gives st'' fun _ s => s = x.text := by
  refine bind_operandOf hid ?_
  cases x with
  | number n | calculation left op right => exact .pure fun _ _ => .pure rfl
  | phrase p => exact .pure fun st' hgrows => phraseText_gives p (hid.mono hgrows.toExtends)

theorem tokens_gives {p : Phrase} (hid : st.Holds id x)
    (hp : ∀ st', st.Grows st' → (phraseText p id).Gives st' fun _ s => s = x.text) :
    (tokens p id).Gives st fun _ ts => ts = Token.scan x.text :=
  tokensWith_gives hid hp

theorem isValid_gives {p : Phrase} (hid : st.Holds id x)
    (hp : ∀ st', st.Grows st' → (phraseText p id).Gives st' fun _ s => s = x.text) :
    (isValid p id).Gives st fun _ b => b = (Expr.ofText x.text).isOk := by
  refine (Session.Gives.remember (Q := fun _ => True) Memo.remembers_valid hid ?_).imp fun _ _ _ h => h.1
  exact (parsedWith_gives hid hp).bind fun r st₁ _ hr => .pure ⟨hr.1.isOk_eq, trivial⟩

end Node

end ExactCalc
