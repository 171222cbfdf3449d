import Mathlib
import ExactCalc.Proofs.Expr.Evaluation

/-!
# Numbers in documents

A number that is written as a document and read again has its settled value (`Number.exists_reread`): a text
or a decimal comes back as a text of the same decimal, and a rational that is no integer as a division, whose
result is simplified where its expansion does not end.
-/

namespace ExactCalc

/-- The document of the operand is read as an operand that resolves to the number. -/
def Operand.Rereads (x : Operand) (m : Number) : Prop :=
  ∃ doc y, x.toDocument = .ok doc ∧ Operand.ofDocument doc = .ok y ∧ y.resolve = .ok m

namespace Number

variable {n : Number}

/-! ## Texts -/

/-- The text of a decimal is read as a number that has exactly this decimal. -/
theorem exists_ofDocument_number {s : String} {d : Decimal} (h : Decimal.ofText? s = some d) :
    ∃ m, Operand.ofDocument (.number s) = .ok (.number m) ∧ m.IsReadable ∧ m.worth = d.toRat ∧
      m.decimalScale = d.scale ∧ m.toExact = .ok (.decimal d) := by
  rcases ofText_of_ofText? h with htext | htext
  · refine ⟨.amount s, ?_, ?_, ?_, ?_, ?_⟩
    · simp [Operand.ofDocument, htext, Except.map]
    · simp [IsReadable, h]
    · simp [worth, h]
    · simp [decimalScale, h]
    · simp [toExact, toDecimal, readAs, h, Except.map]
  · refine ⟨.numeral s, ?_, ?_, ?_, ?_, ?_⟩
    · simp [Operand.ofDocument, htext, Except.map]
    · simp [IsReadable, h]
    · simp [worth, h]
    · simp [decimalScale, h]
    · simp [toExact, toDecimal, readAs, h, Except.map]

theorem exists_rereads_of_text {s : String} {d : Decimal} (hdoc : n.toDocument = .ok (.number s))
    (h : Decimal.ofText? s = some d) (hval : n.worth = d.toRat) (hscale : d.scale ≤ n.decimalScale)
    (hexact : ∀ e, n.toExact = .ok (.decimal e) → e = d) :
    ∃ m, (Operand.number n).Rereads m ∧ m.IsReadable ∧ m.worth = settled n.worth ∧ m.decimalScale ≤ n.decimalScale ∧
      ∀ e, n.toExact = .ok (.decimal e) → m.toExact = .ok (.decimal e) := by
  obtain ⟨m, hm, hread, hworth, hmscale, hmexact⟩ := exists_ofDocument_number h
  refine ⟨m, ⟨_, _, hdoc, hm, rfl⟩, hread, ?_, hmscale.trans_le hscale, ?_⟩
  · rw [hworth, hval, settled_of_terminates d.terminates_toRat]
  · intro e he
    rw [hexact e he]
    exact hmexact

theorem toRat_of_toExact (h : n.IsReadable) {e : Decimal} (he : n.toExact = .ok (.decimal e)) : e.toRat = n.worth := by
  obtain ⟨x, hx, hval⟩ := toExact_of_isReadable h
  rw [he] at hx
  obtain rfl := Except.ok.inj hx
  exact hval

theorem exists_rereads_of_integer (h : n.IsReadable) {i : Int} (hi : n.worth = i)
    (hdoc : n.toDocument = .ok (.number (toString i))) :
    ∃ m, (Operand.number n).Rereads m ∧ m.IsReadable ∧ m.worth = settled n.worth ∧ m.decimalScale ≤ n.decimalScale ∧
      ∀ e, n.toExact = .ok (.decimal e) → m.toExact = .ok (.decimal e) := by
  have hval : n.worth = (Decimal.ofInt i).toRat := hi.trans (Decimal.toRat_ofInt i).symm
  refine exists_rereads_of_text hdoc (ofText?_toString i) hval (Nat.zero_le _) ?_
  intro e he
  exact Decimal.toRat_injective ((toRat_of_toExact h he).trans hval)

theorem exists_resolve_quotient (i j : Int) (hj : j ≠ 0) :
    ∃ y m, Operand.ofDocument (.calculation (.number (toString i)) .divide (.number (toString j))) = .ok y ∧
      y.resolve = .ok m ∧ m.IsReadable ∧ m.worth = settled ((i : Rat) / j) ∧ m.decimalScale = 0 := by
  obtain ⟨a, ha, haread, haworth, hascale, -⟩ := exists_ofDocument_number (ofText?_toString i)
  obtain ⟨b, hb, hbread, hbworth, hbscale, -⟩ := exists_ofDocument_number (ofText?_toString j)
  rw [Decimal.toRat_ofInt] at haworth hbworth
  obtain ⟨u, hu, huval, huscale⟩ := exactFor_of_isReadable haread .divide
  obtain ⟨v, hv, hvval, hvscale⟩ := exactFor_of_isReadable hbread .divide
  have hne : Operation.divides .divide = true → v.toRat ≠ 0 := by
    intro _
    rw [hvval, hbworth]
    exact_mod_cast hj
  obtain ⟨m, hm, hmread, hmworth, hmscale⟩ := Operation.onExact_of_ne (a := u) (fun h => absurd rfl h) hne
  refine ⟨.calculation (.number a) .divide (.number b), m, ?_, ?_, hmread, ?_, ?_⟩
  · rw [Operand.ofDocument, ha, hb]
    rfl
  · simp [Operand.resolve, hu, hv, hm, bind, Except.bind]
  · rw [hmworth, huval, hvval, haworth, hbworth]
    rfl
  · have hzero : ∀ k : Int, (Decimal.ofInt k).scale = 0 := fun _ => rfl
    rw [hzero] at hascale hbscale
    omega

/-- What a number is written as is read as a number of its settled value, and as the same decimal if it
is one. -/
theorem exists_reread (h : n.IsReadable) :
    ∃ m, (Operand.number n).Rereads m ∧ m.IsReadable ∧ m.worth = settled n.worth ∧ m.decimalScale ≤ n.decimalScale ∧
      ∀ e, n.toExact = .ok (.decimal e) → m.toExact = .ok (.decimal e) := by
  have hisOne := isOne_of_isReadable h
  have hisZero := isZero_of_isReadable h
  by_cases hone : n.worth = 1
  · refine exists_rereads_of_integer h (i := 1) (by simpa using hone) ?_
    simp [toDocument, hisOne, hone, bind, Except.bind, pure, Except.pure]
    rfl
  by_cases hzero : n.worth = 0
  · refine exists_rereads_of_integer h (i := 0) (by simpa using hzero) ?_
    simp [toDocument, hisOne, hisZero, hzero, bind, Except.bind, pure, Except.pure]
    rfl
  cases n with
  | decimal d =>
    have hdoc : (decimal d).toDocument = .ok (.number d.text) := by
      simp [toDocument, plainDocument, hisOne, hisZero, hone, hzero, bind, Except.bind, pure, Except.pure, text]
    refine exists_rereads_of_text hdoc d.ofText?_text rfl le_rfl ?_
    intro e he
    simpa [toExact, toDecimal, Except.map, eq_comm] using he
  | numeral s | amount s =>
    obtain ⟨d, hd⟩ := Option.isSome_iff_exists.mp h
    refine exists_rereads_of_text ?_ hd (by simp [worth, hd]) (by simp [decimalScale, hd]) ?_
    · simp [toDocument, plainDocument, hisOne, hisZero, hone, hzero, bind, Except.bind, pure, Except.pure, text]
    · intro e he
      exact Decimal.toRat_injective ((toRat_of_toExact h he).trans (by simp [worth, hd]))
  | rational r =>
    by_cases hden : r.den = 1
    · refine exists_rereads_of_integer h (Rat.den_eq_one_iff r |>.mp hden).symm ?_
      simp [toDocument, plainDocument, hisOne, hisZero, hone, hzero, hden, bind, Except.bind, pure, Except.pure]
    · have hdoc : (rational r).toDocument =
          .ok (.calculation (.number (toString r.num)) .divide (.number (toString (r.den : Int)))) := by
        simp [toDocument, plainDocument, hisOne, hisZero, hone, hzero, hden, bind, Except.bind, pure, Except.pure]
        rfl
      have hj : (r.den : Int) ≠ 0 := by exact_mod_cast r.den_ne_zero
      obtain ⟨y, m, hy, hm, hread, hworth, hscale⟩ := exists_resolve_quotient r.num r.den hj
      refine ⟨m, ⟨_, y, hdoc, hy, hm⟩, hread, ?_, ?_, ?_⟩
      · rw [hworth]
        congr 1
        exact_mod_cast Rat.num_div_den r
      · rw [hscale]
        exact Nat.zero_le _
      · intro e he
        simp [toExact] at he

end Number

end ExactCalc
