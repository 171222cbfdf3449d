import Mathlib
import ExactCalc.Proofs.Store.Comparison

/-!
# Short circuits of nodes

In every session an operation that has one of its sides as its result answers with the very node of this side, and the
value of this node is the exact result, without any rounding or simplification. A right side that is neutral is left
out of an operation, whether the left side is a phrase, which asks for nothing but the right side, or not
(`Node.apply_neutral_refines`). For the answers of a session this is `Machine.shortCircuit_exact`.
-/

namespace ExactCalc

namespace Operation

variable {op : Operation} {u v : Rat}

/-- A neutral right side is found, and the left side is the result, unless it is the zero of a sum. -/
theorem shortCircuit_of_neutral (h : op.Neutral v) (hu : op = .plus → u ≠ 0) :
    op.shortCircuit (m := Result) (.ok (decide (u = 0))) (.ok (decide (u = 1))) (.ok (decide (v = 0)))
      (.ok (decide (v = 1))) = .ok (some .left) := by
  cases op with
  | plus =>
    have hv : v = 0 := h
    simp [shortCircuit, hv, hu rfl, bind, Except.bind, pure, Except.pure]
  | minus =>
    have hv : v = 0 := h
    simp [shortCircuit, hv, bind, Except.bind, pure, Except.pure]
  | multiply | times =>
    have hv : v = 1 := h
    by_cases hzero : u = 0 <;> simp [shortCircuit, hv, hzero, bind, Except.bind, pure, Except.pure]
  | divide =>
    have hv : v = 1 := h
    simp [shortCircuit, hv, bind, Except.bind, pure, Except.pure]
  | modulo => exact h.elim

end Operation

namespace Operand

variable {x y : Operand} {op : Operation}

theorem IsReadable.isNeutral_eq (hy : y.IsReadable) (h : op.Neutral y.worth) :
    op.isNeutral y.isZero y.isOne = .ok true := by
  obtain ⟨b, hb, hneutral⟩ := op.exists_isNeutral y.worth
  rw [hy.isZero_eq, hy.isOne_eq, hb, hneutral.mpr h]

theorem IsReadable.shortCircuit_of_neutral (hx : x.IsReadable) (hy : y.IsReadable) (h : op.Neutral y.worth)
    (hplus : op = .plus → x.worth ≠ 0) : shortCircuit x op y = .ok (some .left) := by
  rw [shortCircuit, hx.isZero_eq, hx.isOne_eq, hy.isZero_eq, hy.isOne_eq]
  exact Operation.shortCircuit_of_neutral h hplus

end Operand

variable {st : Store} {id l k : NodeId} {x y : Operand} {op : Operation} {z : Argument}

namespace Node

theorem reduce_side_refines {s : Side} (hl : st.Holds l x) (hk : st.Holds k y)
    (h : Operand.shortCircuit x op y = .ok (some s)) :
    (reduce l op k).Refines st (.ok ()) fun _ i _ => i = s.pick l k := by
  refine Attempt.Refines.bind (g := fun _ => .ok ()) ((shortCircuit_refines hl hk op).of_eq_ok h) fun i _ st₁ _ hi => ?_
  subst hi
  exact .pure rfl

/-- An operation with a neutral right side gives the node that it is applied to, a phrase also if it is zero. -/
theorem apply_neutral_refines (hid : st.Holds id x) (hz : z.Means st (.ok y)) (hx : x.IsReadable) (hy : y.IsReadable)
    (h : op.Neutral y.worth) (hplus : op = .plus → x.worth ≠ 0 ∨ ∃ p, x = .phrase p) :
    (apply id op z).Refines st (.ok ()) fun _ i _ => i = id := by
  have hmake : ∀ st', st.Grows st' → (ofArgument z).Refines st' (.ok ()) fun st'' k _ => st''.Holds k y :=
    fun st' hgrows => (ofArgument_refines (hz.mono hgrows.toExtends)).of_eq_ok rfl
  refine bind_lift_operandOf hid ?_
  by_cases hphrase : ∃ p, x = .phrase p
  · -- a phrase only asks whether the right side is neutral
    obtain ⟨p, rfl⟩ := hphrase
    refine Attempt.Refines.bind (g := fun _ => .ok ()) (hmake st (.refl st)) fun k _ st₁ _ hk => ?_
    have hask := (Attempt.Refines.isNeutral op (isZero_via hk) (isOne_via hk)).of_eq_ok (hy.isNeutral_eq h)
    refine Attempt.Refines.bind (g := fun _ => .ok ()) hask fun b _ st₂ _ hb => ?_
    subst hb
    exact .pure rfl
  · have hne : op = .plus → x.worth ≠ 0 := fun hop => (hplus hop).resolve_right hphrase
    have hside := hx.shortCircuit_of_neutral hy h hne
    have hreduce : ∀ st', st.Grows st' →
        (do reduce id op (← ofArgument z) : Attempt NodeId).Refines st' (.ok ()) fun _ i _ => i = id := by
      intro st₁ hgrows₁
      refine Attempt.Refines.bind (g := fun _ => .ok ()) (hmake st₁ hgrows₁) fun k _ st₂ hgrows₂ hk => ?_
      exact reduce_side_refines (hid.mono (hgrows₁.trans hgrows₂).toExtends) hk hside
    have hnonzero : (do
        if op = .plus then
          if ← via isZero id then return ← ofArgument z
        reduce id op (← ofArgument z) : Attempt NodeId).Refines st (.ok ()) fun _ i _ => i = id := by
      by_cases hop : op = .plus
      · simp only [if_pos hop]
        have hask := (isZero_via hid).of_eq_ok (hx.isZero_eq.trans (congrArg _ (decide_eq_false (hne hop))))
        refine Attempt.Refines.bind (g := fun _ => .ok ()) hask fun b _ st₁ hgrows₁ hb => ?_
        subst hb
        exact hreduce st₁ hgrows₁
      · simp only [if_neg hop]
        exact hreduce st (.refl st)
    cases x with
    | number n | calculation left o right => exact hnonzero
    | phrase p => exact absurd ⟨p, rfl⟩ hphrase

end Node

/-! ## Sessions -/

theorem Answer.ofAttempt_of_eq {α : Type} {f : α → Answer} {m : Attempt α} {a : α} (h : (m.run.run st).1 = .ok a) :
    ((ofAttempt f m).run st).1 = f a := by
  rw [run_ofAttempt, h]

namespace Machine

/-- Short circuits in the machine are exact and keep identity. -/
structure ShortCircuitsExactly (m : Machine) : Prop where
  /-- A side that is the result is the very node of this side. -/
  side : ∀ a op b o, m.answer ⟨.shortCircuit a op b, none⟩ = .node o → o = m.register a ∨ o = m.register b
  /-- Its value is the exact result of the operation, which is no division by zero. -/
  exact : ∀ a op b o, (m.operand a).IsReadable → (m.operand b).IsReadable →
    m.answer ⟨.shortCircuit a op b, none⟩ = .node o →
      (m.store.operand o).IsReadable ∧ (op.divides = true → (m.operand b).worth ≠ 0) ∧
        (m.store.operand o).worth = op.exact (m.operand a).worth (m.operand b).worth
  /-- An operation with a neutral argument gives the very node that it is applied to, unless this is the zero of a sum
  and no phrase. -/
  neutral : ∀ a op z y, (m.operand a).IsReadable → z.made m.operand = .ok y → y.IsReadable → op.Neutral y.worth →
    (op = .plus → (m.operand a).worth ≠ 0 ∨ ∃ p, m.operand a = .phrase p) →
      m.answer ⟨.apply a op z, none⟩ = .node (m.register a)

namespace Represents

variable {m : Machine} {env : Nat → Operand}

theorem answer_shortCircuit_iff (h : m.Represents env) {a b : Nat} {op : Operation} {o : NodeId} :
    m.answer ⟨.shortCircuit a op b, none⟩ = .node o ↔
      ∃ s : Side, Operand.shortCircuit (env a) op (env b) = .ok (some s) ∧
        o = s.pick (m.register a) (m.register b) := by
  have hmatches := (Node.shortCircuit_refines (h.holds a) (h.holds b) op h.coherent).2.2
  have hanswer : m.answer ⟨.shortCircuit a op b, none⟩ = _ := congrArg Prod.fst (Answer.run_ofAttempt _ _ m.store)
  rw [hanswer]
  generalize ((Node.shortCircuit (m.register a) op (m.register b)).run.run m.store).1 = r at hmatches
  generalize Operand.shortCircuit (env a) op (env b) = r' at hmatches
  cases hmatches with
  | error e => simp
  | @ok i side hi =>
    subst hi
    cases side with
    | none => simp
    | some s => simp [eq_comm]

theorem answer_apply_neutral (h : m.Represents env) {a : Nat} {op : Operation} {z : Argument} {y : Operand}
    (hx : (env a).IsReadable) (hz : z.made env = .ok y) (hy : y.IsReadable) (hneutral : op.Neutral y.worth)
    (hplus : op = .plus → (env a).worth ≠ 0 ∨ ∃ p, env a = .phrase p) :
    m.answer ⟨.apply a op z, none⟩ = .node (m.register a) := by
  have hmeans := hz ▸ z.means_rename h.holds
  obtain ⟨i, hi, rfl⟩ := (Node.apply_neutral_refines (h.holds a) hmeans hx hy hneutral hplus).exists_fst h.coherent
  exact Answer.ofAttempt_of_eq hi

end Represents

/-- After every script short circuits are exact and keep identity. -/
theorem shortCircuit_exact (script : List Step) : (start.run script).ShortCircuitsExactly := by
  obtain ⟨env, hm⟩ := start_represents.run script
  obtain rfl : (start.run script).operand = env := funext fun t => (hm.holds t).2
  constructor
  case side =>
    intro a op b o ho
    obtain ⟨s, -, rfl⟩ := hm.answer_shortCircuit_iff.mp ho
    cases s with
    | left => exact .inl rfl
    | right => exact .inr rfl
  case exact =>
    intro a op b o ha hb ho
    obtain ⟨s, hs, rfl⟩ := hm.answer_shortCircuit_iff.mp ho
    obtain ⟨side, hside, hshort, -⟩ := ha.exists_shortCircuit hb op
    obtain rfl := Except.ok.inj (hs.symm.trans hside)
    have hexact := hshort s rfl
    refine ⟨?_, hexact.ne_zero, ?_⟩
    · cases s with
      | left => exact ha
      | right => exact hb
    · rw [hexact.exact_eq]
      cases s <;> rfl
  case neutral => exact fun a op z y hx hz hy hneutral hplus => hm.answer_apply_neutral hx hz hy hneutral hplus

def differenceScript : List Step :=
  [⟨.one, some 0⟩, ⟨.create (.integer 3), some 1⟩, ⟨.calculation 0 .minus 1, some 0⟩, ⟨.phrase "2 - 1", some 1⟩]

/-- The difference times the phrase is the difference itself, as is its sum with zero, and the phrase over itself is the
phrase. -/
theorem shortCircuit_exact_difference :
    let m := start.run differenceScript
    m.answer ⟨.shortCircuit 0 .times 1, none⟩ = .node (m.register 0) ∧
      (m.store.operand (m.register 0)).worth = Operation.times.exact (m.operand 0).worth (m.operand 1).worth ∧
      m.answer ⟨.apply 1 .divide (.node 1), none⟩ = .node (m.register 1) ∧
      m.answer ⟨.apply 0 .plus (.input (.integer 0)), none⟩ = .node (m.register 0) := by
  intro m
  have hcircuits : m.ShortCircuitsExactly := shortCircuit_exact differenceScript
  have hcomputed : (Operand.calculation (.number .one) .minus (.number (.decimal (.ofInt 3)))).resolve =
      .ok (.decimal (.ofInt (-2))) := by
    cbv
  have hdifference : (m.operand 0).resolve = .ok (.decimal (.ofInt (-2))) := hcomputed
  have hwritten : (Operand.phrase (.written "2 - 1")).resolve = .ok (.decimal (.ofInt 1)) := by cbv
  have hphrase : (m.operand 1).resolve = .ok (.decimal (.ofInt 1)) := hwritten
  have hread₀ : (m.operand 0).IsReadable := ⟨_, hdifference, trivial⟩
  have hread₁ : (m.operand 1).IsReadable := ⟨_, hphrase, trivial⟩
  have hone : (m.operand 1).worth = 1 := (Operand.worth_eq hphrase).trans (by decide +kernel)
  have hne : (m.operand 0).worth ≠ 0 := by
    rw [Operand.worth_eq hdifference]
    decide +kernel
  have hside : m.answer ⟨.shortCircuit 0 .times 1, none⟩ = .node (m.register 0) := by
    obtain ⟨env, hm⟩ := start_represents.run differenceScript
    have hneutral : Operation.times.Neutral (m.operand 1).worth := hone
    have hcircuit := hread₀.shortCircuit_of_neutral hread₁ hneutral (by simp)
    rw [show m.operand = env from funext fun t => (hm.holds t).2] at hcircuit
    exact hm.answer_shortCircuit_iff.mpr ⟨.left, hcircuit, rfl⟩
  have hzero : (Operand.number (.decimal .zero)).worth = 0 := by decide +kernel
  exact ⟨hside, (hcircuits.exact 0 .times 1 _ hread₀ hread₁ hside).2.2,
    hcircuits.neutral 1 .divide (.node 1) _ hread₁ rfl hread₁ hone (by simp),
    hcircuits.neutral 0 .plus (.input (.integer 0)) _ hread₀ rfl ⟨_, rfl, trivial⟩ hzero fun _ => .inl hne⟩

/-- A number in the digits of another script resolves to itself, and cannot be multiplied by one. -/
theorem shortCircuit_exact_ne :
    ¬ ∀ (script : List Step) (a b : Nat) (n k : Number), ((start.run script).operand a).resolve = .ok n →
      ((start.run script).operand b).resolve = .ok k → k.isOne = .ok true →
      (start.run script).answer ⟨.apply a .times (.node b), none⟩ = .node ((start.run script).register a) := by
  intro h
  have hanswer := h foreignScript 0 1 (.amount "٣") .one rfl rfl (by cbv)
  have hfailed : ∃ e, (start.run foreignScript).answer ⟨.apply 0 .times (.node 1), none⟩ = .failed e := ⟨_, by cbv⟩
  obtain ⟨e, he⟩ := hfailed
  cases he.symm.trans hanswer

end Machine

end ExactCalc
