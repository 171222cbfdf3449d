import Mathlib
import ExactCalc.Proofs.Operand.Comparison
import ExactCalc.Proofs.Store.Nodes

/-!
# Values of nodes

Every value of a node is that of its operand, also where a part of it is taken from a memo.
-/

namespace ExactCalc

variable {st : Store} {id : Nat} {x : Operand} {n : Number}

/-! ## Numbers -/

namespace NumberNode

theorem decimal_refines (hid : st.Holds id (.number n)) :
    (decimal ⟨n, id⟩).Refines st n.toDecimal fun _ a b => a = b := by
  cases n with
  | decimal d => exact .pure rfl
  | rational r | numeral s | amount s => exact .remember Memo.remembers_decimal hid .ofResult

theorem rational_refines (hid : st.Holds id (.number n)) :
    (rational ⟨n, id⟩).Refines st n.toRational fun _ a b => a = b := by
  cases n with
  | rational r => exact .pure rfl
  | decimal d | numeral s | amount s => exact .remember Memo.remembers_rational hid .ofResult

theorem exact_refines (hid : st.Holds id (.number n)) :
    (NumberNode.exact ⟨n, id⟩).Refines st n.toExact fun _ a b => a = b := by
  cases n with
  | rational r => exact .pure rfl
  | decimal d | numeral s | amount s =>
    refine (decimal_refines hid).bind_map fun a b st' _ hab => ?_
    exact .pure (congrArg Exact.decimal hab)

/-- The shared node is not read, but would pass the test. -/
theorem passes_refines {shared : NodeId} {known : Number} {test : Exact → Bool}
    (htest : known.toExact.map test = .ok true)
    (hshared : st.Coherent → st.Holds shared (.number known)) (hid : st.Holds id (.number n)) :
    (passes shared test ⟨n, id⟩).Refines st (n.toExact.map test) fun _ a b => a = b := by
  refine .of_coherent fun hst => ?_
  by_cases h : id = shared
  · obtain rfl : n = known := Operand.number.inj (hid.2.symm.trans (h ▸ (hshared hst).2))
    rw [htest]
    simp only [passes, h, if_true]
    exact .pure rfl
  · simp only [passes, h, if_false]
    exact (exact_refines hid).bind_map fun a b st' _ hab => .pure (congrArg test hab)

theorem isZero_refines (hid : st.Holds id (.number n)) :
    (NumberNode.isZero ⟨n, id⟩).Refines st n.isZero fun _ a b => a = b := by
  have htest : Number.zero.toExact.map Exact.isZero = .ok true := by cbv
  exact passes_refines htest Store.Coherent.zero hid

theorem isOne_refines (hid : st.Holds id (.number n)) :
    (NumberNode.isOne ⟨n, id⟩).Refines st n.isOne fun _ a b => a = b := by
  have htest : Number.one.toExact.map Exact.isOne = .ok true := by cbv
  exact passes_refines htest Store.Coherent.one hid

theorem ofNumber_gives (n : Number) :
    (ofNumber n).Gives st fun st' a => a.number = n ∧ st'.Holds a.id (.number n) :=
  (Session.newNumber_gives n).bind fun _ _ _ hi => .pure ⟨rfl, hi⟩

theorem operandFor_refines (hid : st.Holds id (.number n)) (op : Operation) :
    (NumberNode.operandFor ⟨n, id⟩ op).Refines st (n.operandFor op) fun st' a m =>
      a.number = m ∧ st'.Holds a.id (.number m) := by
  cases n with
  | decimal d | rational r => exact .pure ⟨rfl, hid⟩
  | numeral s | amount s =>
    simp only [NumberNode.operandFor, Number.operandFor]
    by_cases hop : op = .divide
    · simp only [if_pos hop]
      refine (rational_refines hid).bind_map fun r _ st' _ hr => ?_
      subst hr
      exact .lift (ofNumber_gives _) fun _ _ _ h => h
    · simp only [if_neg hop]
      refine (decimal_refines hid).bind_map fun d _ st' _ hd => ?_
      subst hd
      exact .lift (ofNumber_gives _) fun _ _ _ h => h

theorem exactFor_refines (hid : st.Holds id (.number n)) (op : Operation) :
    (NumberNode.exactFor ⟨n, id⟩ op).Refines st (n.exactFor op) fun _ a b => a = b := by
  refine (operandFor_refines hid op).bind fun a m st' _ ha => ?_
  obtain ⟨m, i⟩ := a
  obtain ⟨rfl, hi⟩ := ha
  exact exact_refines hi

theorem text_refines (hid : st.Holds id (.number n)) :
    (liftM (NumberNode.text ⟨n, id⟩) : Attempt String).Refines st (.ok n.text) fun _ a b => a = b :=
  .lift (text_gives hid) fun _ _ _ h => h

theorem amountWith_refines (hid : st.Holds id (.number n)) (policy : AmountPolicy) :
    (amountWith ⟨n, id⟩ policy).Refines st (n.amountText policy) fun _ a b => a = b := by
  cases n with
  | amount s => exact .pure rfl
  | decimal d | rational r | numeral s =>
    exact (exact_refines hid).bind_map fun a b st' _ hab => .pure (congrArg (·.amountText policy) hab)

theorem amount_refines (hid : st.Holds id (.number n)) :
    (NumberNode.amount ⟨n, id⟩).Refines st (n.amountText .default) fun _ a b => a = b := by
  cases n with
  | amount s => exact .pure rfl
  | decimal d | rational r | numeral s => exact .remember Memo.remembers_amount hid (amountWith_refines hid .default)

theorem document_refines (hid : st.Holds id (.number n)) :
    (NumberNode.document ⟨n, id⟩).Refines st n.toDocument fun _ a b => a = b := by
  refine (isOne_refines hid).bind fun one _ st₁ hgrows hone => ?_
  subst hone
  cases one with
  | true => exact .pure rfl
  | false =>
    refine (isZero_refines (hid.mono hgrows.toExtends)).bind fun zero _ st₂ _ hzero => ?_
    subst hzero
    cases zero with
    | true => exact .pure rfl
    | false => exact .pure rfl

end NumberNode

/-! ## Resolution -/

namespace Node

theorem resolveSides_refines {left right : Operand} {op : Operation} {f g : NodeId → Attempt NumberNode}
    (hid : st.Holds id (.calculation left op right))
    (hf : ∀ {st' : Store} {l : Nat}, st'.Holds l left →
      (f l).Refines st' left.resolve fun st'' a n => a.number = n ∧ st''.Holds a.id (.number n))
    (hg : ∀ {st' : Store} {r : Nat}, st'.Holds r right →
      (g r).Refines st' right.resolve fun st'' a n => a.number = n ∧ st''.Holds a.id (.number n)) :
    (resolveSides op f g id).Refines st (Operand.calculation left op right).resolve fun st' a n =>
      a.number = n ∧ st'.Holds a.id (.number n) := by
  refine (Attempt.Refines.remember_resolved hid ?_).bind_ok fun v n st' _ hv => .pure hv
  refine .bind_lift (Attempt.sides_gives hid) fun p st₁ hgrows₁ hp => ?_
  refine (hf hp.1).bind fun a m st₂ hgrows₂ ha => ?_
  obtain ⟨m, i⟩ := a
  obtain ⟨rfl, hi⟩ := ha
  refine (NumberNode.exactFor_refines hi op).bind fun a _ st₃ hgrows₃ hab => ?_
  subst hab
  refine (hg (hp.2.mono (hgrows₂.trans hgrows₃).toExtends)).bind fun b m' st₄ hgrows₄ hb => ?_
  obtain ⟨m', j⟩ := b
  obtain ⟨rfl, hj⟩ := hb
  refine (NumberNode.exactFor_refines hj op).bind fun b _ st₅ hgrows₅ hab => ?_
  subst hab
  have hsize := (hgrows₁.trans (hgrows₂.trans (hgrows₃.trans (hgrows₄.trans hgrows₅)))).size_le
  cases hn : op.onExact a b with
  | error e => exact Session.Gives.pure (.error e)
  | ok n =>
    refine .bind_lift (Session.newNumber_gives_of_onExact hn) fun k st₆ _ hk => .pure ⟨rfl, hk.1, hsize.trans hk.2⟩

theorem resolveExpr_refines (e : Expr) {id : Nat} {st : Store} (hid : st.Holds id e.toOperand) :
    (resolveExpr e id).Refines st e.resolve fun st' a n => a.number = n ∧ st'.Holds a.id (.number n) := by
  induction e generalizing id st with
  | number n => exact .pure ⟨rfl, hid⟩
  | binary left op right ihl ihr =>
    rw [← Expr.resolve_toOperand] at ihl ihr ⊢
    exact resolveSides_refines hid ihl ihr

theorem resolution_refines (x : Operand) {id : Nat} {st : Store} (hid : st.Holds id x) :
    (resolve x id).Refines st x.resolve fun st' a n => a.number = n ∧ st'.Holds a.id (.number n) := by
  cases x with
  | number n => exact .pure ⟨rfl, hid⟩
  | calculation left op right =>
    exact resolveSides_refines hid (resolution_refines left) (resolution_refines right)
  | phrase p =>
    refine (parsed_refines hid).bind fun v e st' _ hv => ?_
    obtain ⟨e, i⟩ := v
    obtain ⟨rfl, hi⟩ := hv
    exact resolveExpr_refines e hi

theorem opened_refines (hid : st.Holds id x) :
    (opened x id).Refines st x.opened fun st' v y => v.1 = y ∧ st'.Holds v.2 y := by
  cases x with
  | number n | calculation left op right => exact .pure ⟨rfl, hid⟩
  | phrase p =>
    refine (parsed_refines hid).bind_map fun v e st' _ hv => ?_
    obtain ⟨e, i⟩ := v
    obtain ⟨rfl, hi⟩ := hv
    exact .pure ⟨rfl, hi⟩

theorem resolve_eq_opened (x : Operand) : x.resolve = x.opened >>= Operand.resolve := by
  cases x with
  | number n | calculation left op right => rfl
  | phrase p =>
    rw [Operand.resolve, Operand.opened]
    cases p.parsed with
    | error e => rfl
    | ok e => exact (Expr.resolve_toOperand e).symm

theorem converted_refines {α : Type} {slot : Memo → Option α} {fill : α → Memo → Memo}
    {convert : NumberNode → Attempt α} {value : Operand → Result α} {valueOf : Number → Result α}
    (hslot : Memo.Remembers slot fill fun x _ v => value x = .ok v)
    (hvalue : ∀ x, value x = x.resolve >>= valueOf)
    (hconvert : ∀ {st : Store} {i : Nat} {n : Number}, st.Holds i (.number n) →
      (convert ⟨n, i⟩).Refines st (valueOf n) fun _ a b => a = b) (hid : st.Holds id x) :
    (converted slot fill convert x id).Refines st (value x) fun _ a b => a = b := by
  have hopened : value x = x.opened >>= value := by
    rw [hvalue, resolve_eq_opened, bind_assoc]
    exact congrArg (x.opened >>= ·) (funext fun y => (hvalue y).symm)
  have hcompute : ∀ {y : Operand} {i : Nat} {st : Store}, st.Holds i y →
      (do convert (← resolve y i) : Attempt α).Refines st (value y) fun _ a b => a = b := by
    intro y i st hi
    rw [hvalue]
    refine (resolution_refines y hi).bind fun a n st' _ ha => ?_
    obtain ⟨n, j⟩ := a
    obtain ⟨rfl, hj⟩ := ha
    exact hconvert hj
  rw [hopened]
  refine (opened_refines hid).bind fun v y st' _ hv => ?_
  obtain ⟨y, i⟩ := v
  obtain ⟨rfl, hi⟩ := hv
  cases y with
  | number n =>
    have hn : value (.number n) = valueOf n := hvalue _
    rw [hn]
    exact hconvert hi
  | calculation left op right | phrase p => exact .remember hslot hi (hcompute hi)

theorem decimal_refines (hid : st.Holds id x) : (decimal x id).Refines st x.toDecimal fun _ a b => a = b :=
  converted_refines Memo.remembers_decimal (fun _ => rfl) NumberNode.decimal_refines hid

theorem rational_refines (hid : st.Holds id x) : (rational x id).Refines st x.toRational fun _ a b => a = b :=
  converted_refines Memo.remembers_rational (fun _ => rfl) NumberNode.rational_refines hid

theorem valueText_refines (hid : st.Holds id x) : (valueText x id).Refines st x.valueText fun _ a b => a = b :=
  converted_refines Memo.remembers_text (fun _ => rfl) NumberNode.text_refines hid

theorem amount_refines (hid : st.Holds id x) :
    (amount x id).Refines st (x.amountText .default) fun _ a b => a = b :=
  converted_refines Memo.remembers_amount (fun _ => rfl) NumberNode.amount_refines hid

theorem amountWith_refines (hid : st.Holds id x) (policy : AmountPolicy) :
    (amountWith x id policy).Refines st (x.amountText policy) fun _ a b => a = b := by
  refine (resolution_refines x hid).bind fun a n st' _ ha => ?_
  obtain ⟨n, i⟩ := a
  obtain ⟨rfl, hi⟩ := ha
  exact NumberNode.amountWith_refines hi policy

theorem exact_refines (hid : st.Holds id x) : (Node.exact x id).Refines st x.toExact fun _ a b => a = b := by
  rw [Operand.toExact, resolve_eq_opened, bind_assoc]
  refine (opened_refines hid).bind fun v y st₁ _ hv => ?_
  obtain ⟨y, i⟩ := v
  obtain ⟨rfl, hi⟩ := hv
  refine (resolution_refines y hi).bind fun a n st₂ _ ha => ?_
  obtain ⟨n, j⟩ := a
  obtain ⟨rfl, hj⟩ := ha
  exact NumberNode.exact_refines hj

/-- A question about the number that an operand resolves to; a phrase that is written as the literal is known to answer
yes. -/
theorem asked_refines {literal : String} {ask : NumberNode → Attempt Bool} {answer : Operand → Result Bool}
    {answerOf : Number → Result Bool} (hanswer : ∀ x, answer x = x.resolve >>= answerOf)
    (hsight : ∀ x : Operand, x.isWritten literal = true → answer x = .ok true)
    (hask : ∀ {st : Store} {i : Nat} {n : Number}, st.Holds i (.number n) →
      (ask ⟨n, i⟩).Refines st (answerOf n) fun _ a b => a = b) (hid : st.Holds id x) :
    (asked literal ask x id).Refines st (answer x) fun _ a b => a = b := by
  rw [asked]
  split_ifs with hwritten
  · rw [hsight x hwritten]
    exact .pure rfl
  · rw [hanswer]
    refine (resolution_refines x hid).bind fun a n st' _ ha => ?_
    obtain ⟨n, i⟩ := a
    obtain ⟨rfl, hi⟩ := ha
    exact hask hi

theorem isZero_refines (hid : st.Holds id x) : (isZero x id).Refines st x.isZero fun _ a b => a = b :=
  asked_refines (fun _ => rfl) (fun _ => Operand.isZero_of_isWritten) NumberNode.isZero_refines hid

theorem isOne_refines (hid : st.Holds id x) : (isOne x id).Refines st x.isOne fun _ a b => a = b :=
  asked_refines (fun _ => rfl) (fun _ => Operand.isOne_of_isWritten) NumberNode.isOne_refines hid

/-! ## Other views -/

theorem typeText_refines (hid : st.Holds id x) : (typeText x id).Refines st x.typeText fun _ a b => a = b := by
  cases x with
  | number n | calculation left op right => exact .ofResult
  | phrase p =>
    refine (parsed_refines hid).bind_map fun v e st' _ hv => ?_
    exact .pure (congrArg Expr.typeText hv.1)

theorem shown_refines (hid : st.Holds id x) : (shown x id).Refines st x.shown fun _ a b => a = b := by
  refine (valueText_refines hid).observe.bind fun r _ st₁ hgrows hr => ?_
  subst hr
  cases r with
  | ok s => exact .pure rfl
  | error e => exact .lift (text_gives (hid.mono hgrows.toExtends)) fun _ _ _ h => h

theorem document_refines (hid : st.Holds id x) : (document x id).Refines st x.toDocument fun _ a b => a = b := by
  cases x with
  | number n => exact NumberNode.document_refines hid
  | calculation left op right =>
    refine .bind_lift (Attempt.sides_gives hid) fun p st₁ _ hp => ?_
    refine (resolution_refines left hp.1).bind fun a m st₂ hgrows₂ ha => ?_
    obtain ⟨m, i⟩ := a
    obtain ⟨rfl, hi⟩ := ha
    refine (NumberNode.operandFor_refines hi op).bind fun a n st₃ hgrows₃ ha => ?_
    obtain ⟨n, k⟩ := a
    obtain ⟨rfl, hk⟩ := ha
    refine (resolution_refines right (hp.2.mono (hgrows₂.trans hgrows₃).toExtends)).bind fun b m' st₄ hgrows₄ hb => ?_
    obtain ⟨m', j⟩ := b
    obtain ⟨rfl, hj⟩ := hb
    refine (NumberNode.operandFor_refines hj op).bind fun b n' st₅ hgrows₅ hb => ?_
    obtain ⟨n', l⟩ := b
    obtain ⟨rfl, hl⟩ := hb
    have hk₅ := hk.mono (hgrows₄.trans hgrows₅).toExtends
    refine (Attempt.Refines.shortCircuit op (fun _ h => NumberNode.isZero_refines (hk₅.mono h.toExtends))
      (fun _ h => NumberNode.isOne_refines (hk₅.mono h.toExtends))
      (fun _ h => NumberNode.isZero_refines (hl.mono h.toExtends))
      (fun _ h => NumberNode.isOne_refines (hl.mono h.toExtends))).bind fun side _ st₆ hgrows₆ hside => ?_
    subst hside
    have hk₆ := hk₅.mono hgrows₆.toExtends
    have hl₆ := hl.mono hgrows₆.toExtends
    rcases side with - | (- | -)
    · refine (NumberNode.document_refines hk₆).bind fun d _ st₇ hgrows₇ hd => ?_
      subst hd
      refine (NumberNode.document_refines (hl₆.mono hgrows₇.toExtends)).bind fun d' _ st₈ _ hd => ?_
      subst hd
      exact .pure rfl
    · exact NumberNode.document_refines hk₆
    · exact NumberNode.document_refines hl₆
  | phrase p => exact .bind_lift (phraseText_gives p hid) fun s st' _ hs => .pure (congrArg Document.phrase hs)

end Node

end ExactCalc
