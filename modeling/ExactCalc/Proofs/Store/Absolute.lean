import Mathlib
import ExactCalc.Proofs.Entry
import ExactCalc.Proofs.Number.Recurring
import ExactCalc.Proofs.Store.ShortCircuit

/-!
# Absolute values of nodes

The absolute value of a node whose value is not below zero is the node itself, or that of the expression if it
is a phrase (`Node.abs_self_refines`). Any other value is subtracted from zero, so it is a result like any
other: exact if its expansion ends, and simplified otherwise (`Operand.IsReadable.abs_of_neg`). In every session
this is all that an absolute value changes, and the second one changes nothing: `Machine.abs_settled`.
-/

namespace ExactCalc

/-! ## Values -/

/-- The value that an absolute value is kept with. -/
def settledAbs (v : Rat) : Rat := if 0 ≤ v then v else settled (-v)

theorem settledAbs_of_nonneg {v : Rat} (h : 0 ≤ v) : settledAbs v = v := if_pos h

theorem settledAbs_of_neg {v : Rat} (h : v < 0) : settledAbs v = settled (-v) := if_neg h.not_ge

theorem settledAbs_nonneg (v : Rat) : 0 ≤ settledAbs v := by
  rcases le_or_gt 0 v with h | h
  · rwa [settledAbs_of_nonneg h]
  · rw [settledAbs_of_neg h]
    exact settled_nonneg (neg_nonneg.mpr h.le)

theorem settledAbs_eq_abs {v : Rat} (h : settled v = v) : settledAbs v = |v| := by
  rcases le_or_gt 0 v with hnonneg | hneg
  · rw [settledAbs_of_nonneg hnonneg, abs_of_nonneg hnonneg]
  · rw [settledAbs_of_neg hneg, settled_neg, h, abs_of_neg hneg]

theorem abs_settledAbs_sub_lt (v : Rat) : |settledAbs v - (|v|)| < 2⁻¹ ^ 52 := by
  rcases le_or_gt 0 v with hnonneg | hneg
  · rw [settledAbs_of_nonneg hnonneg, abs_of_nonneg hnonneg, sub_self, abs_zero]
    norm_num
  · rw [settledAbs_of_neg hneg, abs_of_neg hneg, ← defaultTolerance_eq]
    exact abs_settled_sub_lt (-v)

namespace Operand

variable {x y : Operand}

theorem opened_of_ne (h : ∀ p, x ≠ phrase p) : x.opened = .ok x := by
  cases x with
  | phrase p => exact absurd rfl (h p)
  | number n | calculation left op right => rfl

theorem ne_phrase_of_opened (h : x.opened = .ok y) (p : Phrase) : y ≠ phrase p := by
  cases x with
  | phrase q =>
    obtain ⟨e, -, rfl⟩ := exists_of_map_ok h
    exact e.toOperand_ne_phrase p
  | number n | calculation left op right =>
    obtain rfl := Except.ok.inj h
    exact Operand.noConfusion

theorem IsReadable.abs_of_neg (hx : x.IsReadable) (hne : ∀ p, x ≠ phrase p) (hneg : x.worth < 0) :
    ∃ n, x.abs = .ok (number n) ∧ n.IsReadable ∧ n.worth = settledAbs x.worth := by
  have hzero : (number (.decimal .zero)).IsReadable := ⟨_, rfl, trivial⟩
  have hworth : (number (.decimal .zero)).worth = 0 := by decide +kernel
  have hnonzero : x.isZero = .ok false := by rw [hx.isZero_eq, decide_eq_false hneg.ne]
  have hcompare : x.compare (number (.decimal .zero)) = .ok .lt := by
    rw [hx.compare_eq hzero, hworth, (cmp_eq_lt_iff _ _).mpr hneg]
  have hside : shortCircuit (number .zero) .minus x = .ok none := by
    rw [shortCircuit, hnonzero]
    rfl
  have ha : (number .zero).exactFor .minus = .ok (.decimal .zero) := by cbv
  obtain ⟨b, hb, hvalue⟩ := hx.exists_exactFor .minus
  have hscale : Operation.minus ≠ .divide → (Exact.decimal .zero).scale + b.scale < Decimal.scaleLimit := by
    have hnone : (Exact.decimal .zero).scale = 0 := rfl
    rw [hnone, Nat.zero_add]
    exact fun _ => b.scale_lt
  obtain ⟨n, hn, hread, hresult, -⟩ := Operation.onExact_of_ne hscale (by simp [Operation.divides])
  rw [hvalue] at hresult
  refine ⟨n, ?_, hread, ?_⟩
  · have hreduce : reduce (number .zero) .minus x = .ok (number n) := by
      rw [reduce_of_none hside, resolve_calculation ha hb, hn]
      rfl
    simp [abs, opened_of_ne hne, hnonzero, hcompare, hreduce, bind, Except.bind]
  · rw [settledAbs_of_neg hneg, hresult, Operation.exact, show (Exact.decimal .zero).toRat = 0 from hworth, zero_sub]

end Operand

variable {st : Store} {id : NodeId} {x y : Operand}

namespace Node

theorem openedId_self_refines (hid : st.Holds id x) (hne : ∀ p, x ≠ .phrase p) :
    (openedId id).Refines st (.ok ()) fun _ i _ => i = id := by
  intro hst
  have hrun : (openedId id).run.run st = (.ok id, st) := run_openedId_of_ne (hid.2 ▸ hne)
  rw [hrun]
  exact ⟨.refl st, hst, .ok rfl⟩

theorem abs_self_refines (hid : st.Holds id x) (hne : ∀ p, x ≠ .phrase p) (hx : x.IsReadable) (hnonneg : 0 ≤ x.worth) :
    (abs id).Refines st (.ok ()) fun _ i _ => i = id := by
  refine Attempt.Refines.bind (g := fun _ => .ok ()) (openedId_self_refines hid hne) fun i _ st₁ hgrows₁ hi => ?_
  subst hi
  have hid₁ := hid.mono hgrows₁.toExtends
  have hzero := (isZero_via hid₁).of_eq_ok hx.isZero_eq
  refine Attempt.Refines.bind (g := fun _ => .ok ()) hzero fun b _ st₂ hgrows₂ hb => ?_
  subst hb
  by_cases hworth : x.worth = 0
  · simp only [hworth, decide_true, if_true]
    exact .pure rfl
  have hid₂ := hid₁.mono hgrows₂.toExtends
  have hcompare : (do x.compare (← .ok (.number (.decimal .zero))) : Result Ordering) = .ok (cmp x.worth 0) := by
    have hworth : (Operand.number (.decimal .zero)).worth = 0 := by decide +kernel
    rw [← hworth]
    exact hx.compare_eq ⟨_, rfl, trivial⟩
  have horder := (compare_refines hid₂ (z := .input (.integer 0)) rfl).of_eq_ok hcompare
  simp only [hworth, decide_false, Bool.false_eq_true, if_false]
  refine Attempt.Refines.bind (g := fun _ => .ok ()) horder fun o _ st₃ _ ho => ?_
  subst ho
  have hlt : cmp x.worth 0 ≠ .lt := by
    rw [ne_eq, cmp_eq_lt_iff]
    exact hnonneg.not_gt
  simp only [hlt, if_false]
  exact .pure rfl

/-- The absolute value of a node is that of the node that it opens as. -/
theorem run_abs {i : NodeId} {st₁ : Store} (h : (openedId id).run.run st = (.ok i, st₁))
    (hne : ∀ p, st₁.operand i ≠ .phrase p) : (abs id).run.run st = (abs i).run.run st₁ := by
  rw [abs, abs, Attempt.run_bind, Attempt.run_bind, h, run_openedId_of_ne hne]

/-- The absolute value of a node with a value: the node that it opens as, or a number of the opposite value. -/
theorem exists_abs (hst : st.Coherent) (hid : st.Holds id x) (hx : x.IsReadable) :
    ∃ i k z, ((openedId id).run.run st).1 = .ok i ∧ ((abs id).run.run st).1 = .ok k ∧
      ((abs id).run.run st).2.Holds k z ∧ (∀ p, z ≠ .phrase p) ∧ z.IsReadable ∧
      z.worth = settledAbs x.worth ∧ (0 ≤ x.worth → k = i) := by
  obtain ⟨y, hy, hread, hworth⟩ := hx.exists_opened
  have hne := Operand.ne_phrase_of_opened hy
  have hopened := openedId_refines hid
  rw [hy] at hopened
  obtain ⟨-, hst₁, -⟩ := hopened hst
  obtain ⟨i, hi, hholds⟩ := hopened.exists_fst hst
  have hrun : (openedId id).run.run st = (.ok i, ((openedId id).run.run st).2) := Prod.ext hi rfl
  have habs := run_abs hrun (fun p => hholds.2 ▸ hne p)
  rw [habs, ← hworth]
  by_cases hnonneg : 0 ≤ y.worth
  · have hself := abs_self_refines hholds hne hread hnonneg
    obtain ⟨k, hk, rfl⟩ := hself.exists_fst hst₁
    exact ⟨k, k, y, hi, hk, hholds.mono (hself hst₁).1.toExtends, hne, hread,
      (settledAbs_of_nonneg hnonneg).symm, fun _ => rfl⟩
  · obtain ⟨n, hn, hnread, hnworth⟩ := hread.abs_of_neg hne (not_le.mp hnonneg)
    have hresult := abs_refines hholds
    rw [hn] at hresult
    obtain ⟨k, hk, hholds'⟩ := hresult.exists_fst hst₁
    exact ⟨i, k, .number n, hi, hk, hholds', fun p => Operand.noConfusion, ⟨n, rfl, hnread⟩, hnworth,
      fun h => absurd h hnonneg⟩

end Node

/-! ## Sessions -/

namespace Machine

/-- The answer to a request for the absolute value, the node that the operand opens as, and what the machine
holds then. -/
theorem Represents.exists_abs {m : Machine} {env : Nat → Operand} (h : m.Represents env) {a : Nat} (t : Nat)
    (hread : (env a).IsReadable) :
    let m' := m.step ⟨.abs a, some t⟩
    ∃ i k z, m.answer ⟨.parsed a, none⟩ = .node i ∧ ((∀ p, env a ≠ .phrase p) → i = m.register a) ∧
      m.answer ⟨.abs a, some t⟩ = .node k ∧ m'.register t = k ∧ m'.store.Holds k z ∧ (∀ p, z ≠ .phrase p) ∧
      z.IsReadable ∧ z.worth = settledAbs (env a).worth ∧ (0 ≤ (env a).worth → k = i) := by
  intro m'
  obtain ⟨i, k, z, hi, hk, hholds, hne, hz, hworth, hsame⟩ := Node.exists_abs h.coherent (h.holds a) hread
  have hanswer : m.answer ⟨.abs a, some t⟩ = .node k := Answer.ofAttempt_of_eq hk
  have hregister : m'.register t = k := by
    show (m.step ⟨.abs a, some t⟩).register t = k
    rw [Machine.step, hanswer]
    exact Function.update_self ..
  have hstore : m'.store = ((Node.abs (m.register a)).run.run m.store).2 :=
    congrArg Prod.snd (Answer.run_ofAttempt .node (Node.abs (m.register a)) m.store)
  refine ⟨i, k, z, Answer.ofAttempt_of_eq hi, fun hphrase => ?_, hanswer, hregister, hstore ▸ hholds, hne, hz,
    hworth, hsame⟩
  rw [Node.run_openedId_of_ne ((h.holds a).2 ▸ hphrase)] at hi
  exact (Except.ok.inj hi).symm

/-- After every script the absolute value of an operand with an exact value is the operand itself, or what a phrase
stands for, unless it is below zero; if it is, it is the opposite value, kept as results are. The absolute value of an
absolute value is the same node. -/
theorem abs_settled (script : List Step) (a t : Nat) (hread : ((start.run script).operand a).IsReadable) :
    let m := start.run script
    let v := (m.operand a).worth
    let m' := m.step ⟨.abs a, some t⟩
    m.answer ⟨.abs a, some t⟩ = .node (m'.register t) ∧ (m'.operand t).IsReadable ∧
      (m'.operand t).worth = settledAbs v ∧ (settled v = v → (m'.operand t).worth = |v|) ∧
      |(m'.operand t).worth - (|v|)| < 2⁻¹ ^ 52 ∧
      (0 ≤ v → m.answer ⟨.parsed a, none⟩ = .node (m'.register t) ∧
        ((∀ p, m.operand a ≠ .phrase p) → m'.register t = m.register a)) ∧
      m'.answer ⟨.abs t, none⟩ = .node (m'.register t) := by
  intro m v m'
  obtain ⟨env, hm⟩ := start_represents.run script
  obtain rfl : m.operand = env := funext fun t => (hm.holds t).2
  obtain ⟨i, k, z, hopened, hitself, hanswer, hregister, hholds, hne, hz, hworth, hsame⟩ := hm.exists_abs t hread
  have hoperand : m'.operand t = z := by rw [operand, hregister, hholds.2]
  rw [hoperand, hworth]
  refine ⟨hregister.symm ▸ hanswer, hz, rfl, settledAbs_eq_abs, abs_settledAbs_sub_lt v, fun hnonneg => ?_, ?_⟩
  · obtain rfl := hsame hnonneg
    exact ⟨hregister.symm ▸ hopened, fun hphrase => hregister.trans (hitself hphrase)⟩
  · have hself := Node.abs_self_refines hholds hne hz (hworth ▸ settledAbs_nonneg v)
    obtain ⟨j, hj, rfl⟩ := hself.exists_fst (hm.step ⟨.abs a, some t⟩).1.coherent
    rw [← hregister] at hj
    exact Answer.ofAttempt_of_eq hj

def negativeScript : List Step := [⟨.phrase "2 - 5", some 0⟩]

/-- The absolute value of the phrase is three, and its own absolute value. -/
theorem abs_settled_phrase :
    let m' := (start.run negativeScript).step ⟨.abs 0, some 1⟩
    (m'.operand 1).worth = 3 ∧ m'.answer ⟨.abs 1, none⟩ = .node (m'.register 1) := by
  intro m'
  have hwritten : (Operand.phrase (.written "2 - 5")).resolve = .ok (.decimal (.ofInt (-3))) := by cbv
  have hphrase : ((start.run negativeScript).operand 0).resolve = .ok (.decimal (.ofInt (-3))) := hwritten
  have hworth : ((start.run negativeScript).operand 0).worth = -3 :=
    (Operand.worth_eq hphrase).trans (Decimal.toRat_ofInt (-3))
  obtain ⟨-, -, -, hexact, -, -, hagain⟩ := abs_settled negativeScript 0 1 ⟨_, hphrase, trivial⟩
  have hsettled : settled (-3) = -3 := by simpa using settled_intCast (-3)
  rw [hworth] at hexact
  exact ⟨(hexact hsettled).trans (by norm_num), hagain⟩

/-- A literal with a period is not simplified when it is read, but its absolute value is, and can be zero. -/
theorem abs_settled_ne :
    ∃ n z, Number.create (.text "-0.(0000000000000001)") = .ok n ∧ (Operand.number n).resolve = .ok n ∧
      n.toRational = .ok (-(1 / 9999999999999999)) ∧ (Operand.number n).abs = .ok z ∧ z.toRational = .ok 0 := by
  have hproper : Recurring.IsProper ⟨true, ['0'], [], List.replicate 15 '0' ++ ['1']⟩ := by
    have hzeros : Digits (List.replicate 15 '0') := by
      intro c hc
      rw [List.eq_of_mem_replicate hc]
      decide
    exact ⟨digits_singleton rfl, by decide, by simp [Digits],
      List.forall_mem_append.mpr ⟨hzeros, digits_singleton rfl⟩, by decide⟩
  have hspells : Recurring.Spells ⟨true, ['0'], [], List.replicate 15 '0' ++ ['1']⟩ "-0.(0000000000000001)".toList :=
    .enclosed (.inl ⟨rfl, rfl⟩) (.inl rfl)
  have hsum : Recurring.sum ⟨true, ['0'], [], List.replicate 15 '0' ++ ['1']⟩ = -(1 / 9999999999999999) := by
    have hwhole : Text.natOfDigits ['0'] = 0 := rfl
    have hfixed : Text.natOfDigits [] = 0 := rfl
    have hperiod : Text.natOfDigits (List.replicate 15 '0' ++ ['1']) = 1 := rfl
    simp only [Recurring.sum, hwhole, hfixed, hperiod]
    norm_num
  have hn : Number.create (.text "-0.(0000000000000001)") = .ok (.rational (-(1 / 9999999999999999))) := by
    rw [Number.create, Recurring.ofText_of_spells hproper hspells, if_pos (by decide), hsum]
  have hneg : (-(1 / 9999999999999999) : Rat) < 0 := by norm_num
  have hzero : settledAbs (-(1 / 9999999999999999)) = 0 := by
    have hinfinite : isFiniteDecimal (mkRat 1 9999999999999999) = false := by cbv
    rw [Rat.mkRat_eq_div] at hinfinite
    rw [settledAbs_of_neg hneg, neg_neg, settled_eq_zero_iff, ← isFiniteDecimal_iff, defaultTolerance_eq]
    refine .inr ⟨by simpa using hinfinite, ?_⟩
    rw [abs_of_pos (by norm_num)]
    norm_num
  have hread : (Operand.number (.rational (-(1 / 9999999999999999)))).IsReadable := ⟨_, rfl, trivial⟩
  obtain ⟨z, hz, hzread, hzworth⟩ := hread.abs_of_neg (fun p => Operand.noConfusion) hneg
  refine ⟨_, .number z, hn, rfl, rfl, hz, ?_⟩
  have hzrational : (Operand.number z).toRational = .ok z.worth := Number.toRational_of_isReadable hzread
  rw [hzrational, hzworth]
  exact congrArg _ hzero

end Machine

end ExactCalc
