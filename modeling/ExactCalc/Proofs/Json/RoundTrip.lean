import Mathlib
import ExactCalc.Proofs.Json.Number
import ExactCalc.Proofs.Operand.Value

/-!
# Documents keep values

Which operands have their value again after they have been written as a document and read
(`Operand.IsLossless`). A calculation is written by its two sides, each resolved, or by one of them if the
operation short-circuits. A side that is a rational with an infinite expansion is read as a division and
simplified by that, so the value is lost where the side was not simplified before and the simplification
shows in the result.
-/

namespace ExactCalc

/-! ## Sides of a calculation -/

def Exact.toNumber : Exact → Number
  | decimal d => .decimal d
  | rational r => .rational r

namespace Exact

theorem isReadable_toNumber (x : Exact) : x.toNumber.IsReadable := by
  cases x <;> trivial

theorem worth_toNumber (x : Exact) : x.toNumber.worth = x.toRat := by
  cases x <;> rfl

theorem decimalScale_toNumber (x : Exact) : x.toNumber.decimalScale = x.scale := by
  cases x <;> rfl

theorem toExact_toNumber (x : Exact) : x.toNumber.toExact = .ok x := by
  cases x <;> rfl

end Exact

/-- What an operation takes is the exact value of the number that the operand is converted to. -/
theorem Number.operandFor_of_exactFor {n : Number} {op : Operation} {a : Exact} (h : n.exactFor op = .ok a) :
    n.operandFor op = .ok a.toNumber := by
  unfold exactFor at h
  cases n with
  | decimal d =>
    obtain rfl : Exact.decimal d = a := Except.ok.inj h
    rfl
  | rational r =>
    obtain rfl : Exact.rational r = a := Except.ok.inj h
    rfl
  | numeral s | amount s =>
    simp only [operandFor] at h ⊢
    by_cases hop : op = .divide
    · rw [if_pos hop] at h ⊢
      cases hr : readAs ratOfText? s with
      | error e => simp [hr, Except.map, bind, Except.bind] at h
      | ok r =>
        rw [hr] at h
        obtain rfl : Exact.rational r = a := Except.ok.inj h
        rfl
    · rw [if_neg hop] at h ⊢
      cases hd : readAs Decimal.ofText? s with
      | error e => simp [hd, Except.map, bind, Except.bind] at h
      | ok d =>
        rw [hd] at h
        obtain rfl : Exact.decimal d = a := Except.ok.inj h
        rfl

theorem Number.exactFor_eq_toExact (n : Number) {op : Operation} (hop : op ≠ .divide) : n.exactFor op = n.toExact := by
  cases n with
  | decimal d => rfl
  | rational r => rfl
  | numeral s | amount s =>
    rw [exactFor, operandFor, if_neg hop]
    cases hd : readAs Decimal.ofText? s <;> simp [toExact, toDecimal, hd, Except.map, bind, Except.bind]

namespace Operand

variable {left right : Operand} {op : Operation} {a b : Exact}

/-- The document of a calculation is that of a side which is its result, or that of its sides. -/
theorem toDocument_calculation (ha : left.exactFor op = .ok a) (hb : right.exactFor op = .ok b) :
    ∃ side : Option Side, (∀ s ∈ side, op.Short s a.toRat b.toRat) ∧
      (calculation left op right).toDocument =
        match side with
        | some s => (s.pick a b).toNumber.toDocument
        | none => do return .calculation (← a.toNumber.toDocument) op (← b.toNumber.toDocument) := by
  obtain ⟨m, hm, hma⟩ := exists_of_bind_ok ha
  obtain ⟨n, hn, hnb⟩ := exists_of_bind_ok hb
  obtain ⟨side, hside, hshort, -⟩ := Operation.exists_shortCircuit op a.toRat b.toRat
  have hcircuit : shortCircuit (number a.toNumber) op (number b.toNumber) = .ok side := by
    rw [← hside, ← a.worth_toNumber, ← b.worth_toNumber, ← Number.isZero_of_isReadable a.isReadable_toNumber,
      ← Number.isZero_of_isReadable b.isReadable_toNumber, ← Number.isOne_of_isReadable a.isReadable_toNumber,
      ← Number.isOne_of_isReadable b.isReadable_toNumber]
    rfl
  refine ⟨side, hshort, ?_⟩
  simp only [toDocument, hm, hn, Number.operandFor_of_exactFor hma, Number.operandFor_of_exactFor hnb, hcircuit,
    bind, Except.bind]
  rcases side with - | (- | -) <;> rfl

/-! ## Round trips -/

/-- What makes an operand come back from its document with its value. -/
def IsLossless : Operand → Prop
  | number n => n.IsReadable ∧ settled n.worth = n.worth
  | calculation left op right =>
    ∃ a b, left.exactFor op = .ok a ∧ right.exactFor op = .ok b ∧
      (settled a.toRat = a.toRat ∧ settled b.toRat = b.toRat ∨
        ¬ (op.divides = true ∧ settled b.toRat = 0) ∧
          settled (op.exact (settled a.toRat) (settled b.toRat)) = settled (op.exact a.toRat b.toRat))
  | phrase _ => True

theorem Rereads.unique {x : Operand} {m n : Number} (hm : x.Rereads m) (hn : x.Rereads n) : m = n := by
  obtain ⟨d, y, hd, hy, hm⟩ := hm
  obtain ⟨e, z, he, hz, hn⟩ := hn
  obtain rfl := Except.ok.inj (hd.symm.trans he)
  obtain rfl := Except.ok.inj (hy.symm.trans hz)
  exact Except.ok.inj (hm.symm.trans hn)

theorem isReadable_of_toDocument {n : Number} {doc : Document} (h : n.toDocument = .ok doc) : n.IsReadable := by
  cases n with
  | decimal d => trivial
  | rational r => trivial
  | numeral s | amount s =>
    rw [Number.IsReadable, Option.isSome_iff_exists]
    cases hd : Decimal.ofText? s with
    | some d => exact ⟨d, rfl⟩
    | none =>
      simp [Number.toDocument, Number.isOne, Number.toExact, Number.toDecimal, Number.readAs, hd, Except.map, bind,
        Except.bind] at h

theorem rereads_number_iff (n : Number) :
    (∃ m, (number n).Rereads m ∧ m.toRational = n.toRational) ↔ (number n).IsLossless := by
  constructor
  · rintro ⟨m, hm, heq⟩
    obtain ⟨doc, y, hdoc, -⟩ := id hm
    have hread := isReadable_of_toDocument hdoc
    obtain ⟨m', hm', hmread, hworth, -⟩ := Number.exists_reread hread
    obtain rfl := hm.unique hm'
    rw [Number.toRational_of_isReadable hmread, Number.toRational_of_isReadable hread, hworth] at heq
    exact ⟨hread, Except.ok.inj heq⟩
  · rintro ⟨hread, hsettled⟩
    obtain ⟨m, hm, hmread, hworth, -⟩ := Number.exists_reread hread
    refine ⟨m, hm, ?_⟩
    rw [Number.toRational_of_isReadable hmread, Number.toRational_of_isReadable hread, hworth, hsettled]

theorem exists_exactFor_reread (a : Exact) (op : Operation) :
    ∃ m u, (number a.toNumber).Rereads m ∧ m.exactFor op = .ok u ∧ u.toRat = settled a.toRat ∧
      u.scale ≤ a.scale ∧ (op ≠ .divide → ∀ d, a = .decimal d → u = .decimal d) := by
  obtain ⟨m, hm, hmread, hworth, hscale, hexact⟩ := Number.exists_reread a.isReadable_toNumber
  obtain ⟨u, hu, huval, huscale⟩ := Number.exactFor_of_isReadable hmread op
  rw [a.worth_toNumber] at hworth
  rw [a.decimalScale_toNumber] at hscale
  refine ⟨m, u, hm, hu, huval.trans hworth, huscale.trans hscale, ?_⟩
  rintro hop d rfl
  have hd := hexact d (Exact.decimal d).toExact_toNumber
  rw [m.exactFor_eq_toExact hop, hd] at hu
  exact (Except.ok.inj hu).symm

/-- The sides of a calculation that does not short-circuit are read and taken by its operation again. -/
theorem rereads_calculation_iff {m n : Number} {u v : Exact} (hm : (number a.toNumber).Rereads m)
    (hn : (number b.toNumber).Rereads n) (hu : m.exactFor op = .ok u) (hv : n.exactFor op = .ok v)
    (hdoc : (calculation left op right).toDocument = do
      return .calculation (← a.toNumber.toDocument) op (← b.toNumber.toDocument)) (r : Number) :
    (calculation left op right).Rereads r ↔ op.onExact u v = .ok r := by
  obtain ⟨d, y, hd, hy, hm⟩ := hm
  obtain ⟨e, z, he, hz, hn⟩ := hn
  have hd' : a.toNumber.toDocument = .ok d := hd
  have he' : b.toNumber.toDocument = .ok e := he
  have hread : Operand.ofDocument (.calculation d op e) = .ok (.calculation y op z) := by
    rw [Operand.ofDocument, hy, hz]
    rfl
  have hresolve : (calculation y op z).resolve = op.onExact u v := by
    simp [resolve, hm, hu, hn, hv, bind, Except.bind]
  rw [hd', he'] at hdoc
  constructor
  · rintro ⟨doc, x, hdoc', hx, hr⟩
    obtain rfl := Except.ok.inj (hdoc.symm.trans hdoc')
    obtain rfl := Except.ok.inj (hread.symm.trans hx)
    exact hresolve.symm.trans hr
  · intro hr
    exact ⟨_, _, hdoc, hread, hresolve.trans hr⟩

theorem isLossless_calculation_iff (ha : left.exactFor op = .ok a) (hb : right.exactFor op = .ok b) :
    (calculation left op right).IsLossless ↔
      settled a.toRat = a.toRat ∧ settled b.toRat = b.toRat ∨
        ¬ (op.divides = true ∧ settled b.toRat = 0) ∧
          settled (op.exact (settled a.toRat) (settled b.toRat)) = settled (op.exact a.toRat b.toRat) := by
  constructor
  · rintro ⟨a', b', ha', hb', h⟩
    obtain rfl := Except.ok.inj (ha.symm.trans ha')
    obtain rfl := Except.ok.inj (hb.symm.trans hb')
    exact h
  · intro h
    exact ⟨a, b, ha, hb, h⟩

/-- A calculation with a side as its result comes back with its value. -/
theorem rereads_of_short {s : Side} {n : Number} (hshort : op.Short s a.toRat b.toRat)
    (hn : op.onExact a b = .ok n)
    (hdoc : (calculation left op right).toDocument = (s.pick a b).toNumber.toDocument) :
    (∃ m, (calculation left op right).Rereads m ∧ m.toRational = n.toRational) ∧
      settled (op.exact (settled a.toRat) (settled b.toRat)) = settled (op.exact a.toRat b.toRat) := by
  obtain ⟨n', hn', hnread, hnworth, -⟩ := Operation.onExact_of_ne (fun _ => hshort.scale_add_lt) hshort.ne_zero
  obtain rfl := Except.ok.inj (hn.symm.trans hn')
  have hresult : op.exact a.toRat b.toRat = (s.pick a b).toRat := by
    rw [hshort.exact_eq, s.apply_pick Exact.toRat]
  constructor
  · obtain ⟨m, ⟨d, y, hd, hy, hm⟩, hmread, hmworth, -⟩ := Number.exists_reread (s.pick a b).isReadable_toNumber
    refine ⟨m, ⟨d, y, hdoc.trans hd, hy, hm⟩, ?_⟩
    rw [Number.toRational_of_isReadable hmread, Number.toRational_of_isReadable hnread, hmworth, hnworth, hresult,
      Exact.worth_toNumber]
  · rw [hshort.settled.exact_eq, ← s.apply_pick ExactCalc.settled, settled_settled, hshort.exact_eq]

theorem exists_onExact_toRational_iff {u v : Exact} {q : Rat}
    (hscale : op ≠ .divide → u.scale + v.scale < Decimal.scaleLimit) (hne : op.divides = true → v.toRat ≠ 0) :
    (∃ r, op.onExact u v = .ok r ∧ r.toRational = .ok q) ↔ settled (op.exact u.toRat v.toRat) = q := by
  obtain ⟨r, hr, hread, hworth, -⟩ := Operation.onExact_of_ne hscale hne
  rw [← hworth]
  constructor
  · rintro ⟨r', hr', heq⟩
    obtain rfl := Except.ok.inj (hr.symm.trans hr')
    exact Except.ok.inj ((Number.toRational_of_isReadable hread).symm.trans heq)
  · rintro rfl
    exact ⟨r, hr, Number.toRational_of_isReadable hread⟩

/-- A calculation that is written by both of its sides comes back with its value exactly if its operation gives
the same settled result for the settled sides. -/
theorem exists_onExact_iff {n : Number} {u v : Exact} (hn : op.onExact a b = .ok n)
    (hne : op.divides = true → b.toRat ≠ 0)
    (hu : u.toRat = settled a.toRat) (hv : v.toRat = settled b.toRat) (huscale : u.scale ≤ a.scale)
    (hvscale : v.scale ≤ b.scale) (hudec : op ≠ .divide → ∀ d, a = .decimal d → u = .decimal d)
    (hvdec : op ≠ .divide → ∀ d, b = .decimal d → v = .decimal d) :
    (∃ r, op.onExact u v = .ok r ∧ r.toRational = n.toRational) ↔
      settled a.toRat = a.toRat ∧ settled b.toRat = b.toRat ∨
        ¬ (op.divides = true ∧ settled b.toRat = 0) ∧
          settled (op.exact (settled a.toRat) (settled b.toRat)) = settled (op.exact a.toRat b.toRat) := by
  by_cases hdec : op ≠ .divide ∧ ∃ x y, a = .decimal x ∧ b = .decimal y
  · -- decimals come back as they are
    obtain ⟨hop, x, y, rfl, rfl⟩ := hdec
    obtain rfl := hudec hop x rfl
    obtain rfl := hvdec hop y rfl
    exact iff_of_true ⟨n, hn, rfl⟩
      (.inl ⟨settled_of_terminates x.terminates_toRat, settled_of_terminates y.terminates_toRat⟩)
  · have hscale : op ≠ .divide → a.scale + b.scale < Decimal.scaleLimit := fun hop =>
      (Exact.decimals_or_scale_add_lt a b).resolve_left fun h => hdec ⟨hop, h⟩
    have huvscale : op ≠ .divide → u.scale + v.scale < Decimal.scaleLimit := by
      intro hop
      have h := hscale hop
      omega
    obtain ⟨n', hn', hnread, hnworth, -⟩ := Operation.onExact_of_ne hscale hne
    obtain rfl := Except.ok.inj (hn.symm.trans hn')
    rw [Number.toRational_of_isReadable hnread, hnworth]
    by_cases hzero : op.divides = true ∧ settled b.toRat = 0
    · refine iff_of_false ?_ ?_
      · rintro ⟨r, hr, -⟩
        rw [Operation.onExact_of_zero hzero.1 (hv.trans hzero.2)] at hr
        simp at hr
      · rintro (⟨-, hb⟩ | ⟨hno, -⟩)
        · exact hne hzero.1 (hb.symm.trans hzero.2)
        · exact hno hzero
    · have hvne : op.divides = true → v.toRat ≠ 0 := fun hop h => hzero ⟨hop, hv.symm.trans h⟩
      rw [exists_onExact_toRational_iff huvscale hvne, hu, hv]
      constructor
      · intro h
        exact .inr ⟨hzero, h⟩
      · rintro (⟨ha, hb⟩ | ⟨-, h⟩)
        · rw [ha, hb]
        · exact h

theorem rereads_calculation {n : Number} (h : (calculation left op right).resolve = .ok n) :
    (∃ m, (calculation left op right).Rereads m ∧ m.toRational = n.toRational) ↔
      (calculation left op right).IsLossless := by
  obtain ⟨a, b, ha, hb, hn⟩ := exists_exactFor_of_resolve h
  have hne : op.divides = true → b.toRat ≠ 0 := by
    intro hop hzero
    rw [Operation.onExact_of_zero hop hzero] at hn
    simp at hn
  obtain ⟨side, hshort, hdoc⟩ := toDocument_calculation ha hb
  rw [isLossless_calculation_iff ha hb]
  cases side with
  | some s =>
    have hs := hshort s rfl
    obtain ⟨hexists, heq⟩ := rereads_of_short hs hn hdoc
    refine iff_of_true hexists (.inr ⟨?_, heq⟩)
    rintro ⟨hop, hzero⟩
    exact hs.settled.ne_zero hop hzero
  | none =>
    obtain ⟨l, u, hl, hu, huval, huscale, hudec⟩ := exists_exactFor_reread a op
    obtain ⟨r, v, hr, hv, hvval, hvscale, hvdec⟩ := exists_exactFor_reread b op
    rw [← exists_onExact_iff hn hne huval hvval huscale hvscale hudec hvdec]
    simp only [rereads_calculation_iff hl hr hu hv hdoc]

/-- An operand that resolves can be written as a document and read again with the same value exactly if it is
lossless. -/
theorem roundTrip_iff {x : Operand} {n : Number} (h : x.resolve = .ok n) :
    (∃ doc y m, x.toDocument = .ok doc ∧ ofDocument doc = .ok y ∧ y.resolve = .ok m ∧
      m.toRational = n.toRational) ↔ x.IsLossless := by
  have hrereads : (∃ doc y m, x.toDocument = .ok doc ∧ ofDocument doc = .ok y ∧ y.resolve = .ok m ∧
      m.toRational = n.toRational) ↔ ∃ m, x.Rereads m ∧ m.toRational = n.toRational := by
    constructor
    · rintro ⟨doc, y, m, hdoc, hy, hm, heq⟩
      exact ⟨m, ⟨doc, y, hdoc, hy, hm⟩, heq⟩
    · rintro ⟨m, ⟨doc, y, hdoc, hy, hm⟩, heq⟩
      exact ⟨doc, y, m, hdoc, hy, hm, heq⟩
  rw [hrereads]
  cases x with
  | number k =>
    obtain rfl : k = n := Except.ok.inj h
    exact rereads_number_iff k
  | calculation left op right => exact rereads_calculation h
  | phrase p =>
    refine iff_of_true ⟨n, ⟨.phrase p.text, .phrase (.written p.text), rfl, rfl, ?_⟩, rfl⟩ trivial
    exact h

theorem roundTrip_quotient :
    (∃ doc y m, (calculation (number (.amount "1")) .divide (number (.amount "2"))).toDocument = .ok doc ∧
      ofDocument doc = .ok y ∧ y.resolve = .ok m ∧ m.toRational = (Number.rational (mkRat 1 2)).toRational) ↔
      (calculation (number (.amount "1")) .divide (number (.amount "2"))).IsLossless := by
  have hresolve : (calculation (number (.amount "1")) .divide (number (.amount "2"))).resolve =
      .ok (.rational (mkRat 1 2)) := by
    cbv
  exact roundTrip_iff hresolve

/-- A literal with a period is not simplified when it is read, but the division that it is written as is. -/
theorem roundTrip_period_ne :
    ∃ n, Number.ofText "0.(0000000000000000000001)" = .ok n ∧ (number n).resolve = .ok n ∧
      ¬ ∃ doc y m, (number n).toDocument = .ok doc ∧ ofDocument doc = .ok y ∧ y.resolve = .ok m ∧
        m.toRational = n.toRational := by
  have hliteral : isRecurringText "0.(0000000000000000000001)".toList = true := by cbv
  have hparts : Recurring.ofChars? (normalized "0.(0000000000000000000001)".toList) =
      some ⟨false, ['0'], [], List.replicate 21 '0' ++ ['1']⟩ := by
    cbv
  have hdigits : Text.natOfDigits (['0'] ++ [] ++ (List.replicate 21 '0' ++ ['1'])) = 1 := by cbv
  have hwhole : Text.natOfDigits ['0'] = 0 := by cbv
  have hascii : Text.areAsciiDigits (['0'] ++ [] ++ (List.replicate 21 '0' ++ ['1'])) = true := by cbv
  have hmagnitude : Recurring.magnitude ⟨false, ['0'], [], List.replicate 21 '0' ++ ['1']⟩ =
      1 / 9999999999999999999999 := by
    unfold Recurring.magnitude
    simp only [hdigits]
    rw [if_neg (by simp), List.append_nil, hwhole, Rat.mkRat_eq_div]
    norm_num
  have hvalue : recurringValue? "0.(0000000000000000000001)" = some (1 / 9999999999999999999999) := by
    simp only [recurringValue?, hliteral, ratOfText?, String.toList_ofList, hparts, Option.bind_some, Recurring.value?,
      hascii, Recurring.value, hmagnitude]
    simp
  have hnumeric : isNumericText "0.(0000000000000000000001)" = false := by cbv
  have hamount : isAmountText "0.(0000000000000000000001)" = false := by cbv
  refine ⟨.rational (1 / 9999999999999999999999), ?_, rfl, ?_⟩
  · simp [Number.ofText, hamount, hnumeric, hvalue]
  · rintro ⟨doc, y, m, hdoc, hy, hm, heq⟩
    have hlossless := (rereads_number_iff _).mp ⟨m, ⟨doc, y, hdoc, hy, hm⟩, heq⟩
    have hsettled : settled (1 / 9999999999999999999999) = 0 := by
      have hinfinite : isFiniteDecimal (mkRat 1 9999999999999999999999) = false := by cbv
      rw [Rat.mkRat_eq_div] at hinfinite
      have hterm : ¬ Terminates (1 / 9999999999999999999999) := by
        rw [← isFiniteDecimal_iff]
        simpa using hinfinite
      rw [settled, if_neg hterm]
      refine simplify_eq_zero ?_ ?_
      · rw [defaultTolerance_eq, abs_of_pos (by norm_num)]
        norm_num
      · rw [defaultTolerance_eq]
        norm_num
    have hworth := hlossless.2
    change settled (1 / 9999999999999999999999) = 1 / 9999999999999999999999 at hworth
    rw [hsettled] at hworth
    norm_num at hworth

end Operand

end ExactCalc
