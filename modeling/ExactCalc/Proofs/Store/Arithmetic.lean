import Mathlib
import ExactCalc.Proofs.Operand.ShortCircuit
import ExactCalc.Proofs.Store.Conversion

/-!
# Operations on nodes

An operation on nodes gives a node of what the operation on their operands gives, or fails with the same error.
-/

namespace ExactCalc

/-! ## Without a store -/

namespace Operand

/-- An operation on an operand that may have to be made first. Adding to zero does not look at the other operand. -/
def applyTo (x : Operand) (op : Operation) (y : Result Operand) : Result Operand := do
  match x with
  | phrase _ => x.apply op (← y)
  | _ =>
    if op = .plus then
      if ← x.isZero then return ← y
    reduce x op (← y)

theorem reduce_plus_of_isZero {x : Operand} (h : x.isZero = .ok true) (y : Operand) : reduce x .plus y = .ok y := by
  simp [reduce, shortCircuit, Operation.shortCircuit, h, bind, Except.bind, pure, Except.pure]

theorem reduce_plus_of_error {x : Operand} {e : CalcError} (h : x.isZero = .error e) (y : Operand) :
    reduce x .plus y = .error e := by
  simp [reduce, shortCircuit, Operation.shortCircuit, h, bind, Except.bind]

theorem applyTo_ok (x : Operand) (op : Operation) (y : Operand) : x.applyTo op (.ok y) = x.apply op y := by
  have hreduce : (do
      if op = .plus then
        if ← x.isZero then return ← .ok y
      reduce x op (← .ok y) : Result Operand) = reduce x op y := by
    by_cases hop : op = .plus
    · subst hop
      rcases hx : x.isZero with e | (- | -)
      · rw [reduce_plus_of_error hx]
        rfl
      · rfl
      · rw [reduce_plus_of_isZero hx]
        rfl
    · rw [if_neg hop]
      rfl
  cases x with
  | phrase p => rfl
  | number n | calculation left o right => exact hreduce

/-- The extremum of operands that may have to be made first, each when its turn comes. -/
def extremumOf (worse : Ordering) (best : Operand) : List (Result Operand) → Result Operand
  | [] => .ok best
  | y :: ys => do
    let z ← y
    if (← best.compare z) = worse then extremumOf worse z ys else extremumOf worse best ys

end Operand

def Argument.Means (st : Store) : Argument → Result Operand → Prop
  | .node id, r => ∃ x, st.Holds id x ∧ r = .ok x
  | .input i, r => r = (Number.create i).map Operand.number

variable {st : Store} {id : Nat} {x y : Operand} {op : Operation} {z : Argument} {r : Result Operand}

theorem Argument.Means.mono {st' : Store} (h : z.Means st r) (hext : st.Extends st') : z.Means st' r := by
  cases z with
  | node id =>
    obtain ⟨x, hid, hr⟩ := h
    exact ⟨x, hid.mono hext, hr⟩
  | input i => exact h

/-! ## Operations -/

namespace Node

theorem ofArgument_refines (hz : z.Means st r) : (ofArgument z).Refines st r fun st' i x => st'.Holds i x := by
  cases z with
  | node id =>
    obtain ⟨x, hid, rfl⟩ := hz
    exact .pure hid
  | input i =>
    obtain rfl : r = (Number.create i).map Operand.number := hz
    refine Attempt.Refines.ofResult.bind_map fun n _ st' _ hn => ?_
    subst hn
    exact .lift (Session.newNumber_gives n) fun _ _ _ h => h

theorem bind_lift_operandOf {α β : Type} {f : Operand → Attempt α} {r : Result β} {R : Store → α → β → Prop}
    (hid : st.Holds id x) (h : (f x).Refines st r R) : Attempt.Refines (liftM (operandOf id) >>= f) st r R := by
  intro hst
  rw [← hid.2] at h
  exact h hst

theorem via_refines {α β : Type} {f : Operand → NodeId → Attempt α} {r : Result β} {R : Store → α → β → Prop}
    (hid : st.Holds id x) (hf : (f x id).Refines st r R) : (via f id).Refines st r R :=
  bind_lift_operandOf hid hf

theorem isZero_via (hid : st.Holds id x) : (via isZero id).Refines st x.isZero fun _ a b => a = b :=
  via_refines hid (isZero_refines hid)

theorem isOne_via (hid : st.Holds id x) : (via isOne id).Refines st x.isOne fun _ a b => a = b :=
  via_refines hid (isOne_refines hid)

theorem shortCircuit_refines {l k : Nat} (hl : st.Holds l x) (hk : st.Holds k y) (op : Operation) :
    (shortCircuit l op k).Refines st (Operand.shortCircuit x op y) fun _ i side =>
      i = side.map fun s => s.pick l k := by
  refine (Attempt.Refines.shortCircuit op (fun st' h => isZero_via (hl.mono h.toExtends))
    (fun st' h => isOne_via (hl.mono h.toExtends)) (fun st' h => isZero_via (hk.mono h.toExtends))
    (fun st' h => isOne_via (hk.mono h.toExtends))).bind_ok fun side _ st' _ hside => ?_
  subst hside
  rcases side with - | (- | -) <;> exact .pure rfl

theorem reduce_refines {l k : Nat} (hl : st.Holds l x) (hk : st.Holds k y) (op : Operation) :
    (reduce l op k).Refines st (Operand.reduce x op y) fun st' i w => st'.Holds i w := by
  refine (shortCircuit_refines hl hk op).bind fun i side st₁ hgrows₁ hi => ?_
  subst hi
  have hl₁ := hl.mono hgrows₁.toExtends
  have hk₁ := hk.mono hgrows₁.toExtends
  rcases side with - | (- | -)
  · refine .bind_lift (Session.newCalculation_gives hl₁ hk₁ op) fun i st₂ _ hi => ?_
    refine (via_refines hi (resolution_refines _ hi)).bind fun a n st₃ _ ha => ?_
    obtain ⟨n, j⟩ := a
    obtain ⟨rfl, hj⟩ := ha
    exact .pure hj
  · exact .pure hl₁
  · exact .pure hk₁

theorem apply_refines (hid : st.Holds id x) (op : Operation) (hz : z.Means st r) :
    (apply id op z).Refines st (x.applyTo op r) fun st' i w => st'.Holds i w := by
  refine bind_lift_operandOf hid ?_
  have hreduce : ∀ st', st.Grows st' →
      (do reduce id op (← ofArgument z) : Attempt NodeId).Refines st' (do Operand.reduce x op (← r)) fun st' i w =>
        st'.Holds i w := by
    intro st₁ hgrows₁
    refine (ofArgument_refines (hz.mono hgrows₁.toExtends)).bind fun k y st₂ hgrows₂ hk => ?_
    exact reduce_refines (hid.mono (hgrows₁.trans hgrows₂).toExtends) hk op
  have hplus : (do
      if op = .plus then
        if ← via isZero id then return ← ofArgument z
      reduce id op (← ofArgument z) : Attempt NodeId).Refines st (do
        if op = .plus then
          if ← x.isZero then return ← r
        Operand.reduce x op (← r)) fun st' i w => st'.Holds i w := by
    by_cases hop : op = .plus
    · simp only [if_pos hop]
      refine (isZero_via hid).bind_bool fun st₁ zero hgrows₁ => ?_
      cases zero with
      | true => exact ofArgument_refines (hz.mono hgrows₁.toExtends)
      | false => exact hreduce st₁ hgrows₁
    · simp only [if_neg hop]
      exact hreduce st (.refl st)
  cases x with
  | number n | calculation left o right => exact hplus
  | phrase p =>
    refine (ofArgument_refines hz).bind fun k y st₁ hgrows₁ hk => ?_
    refine (Attempt.Refines.isNeutral op (isZero_via hk) (isOne_via hk)).bind_bool fun st₂ neutral hgrows₂ => ?_
    have hid₂ := hid.mono (hgrows₁.trans hgrows₂).toExtends
    have hk₂ := hk.mono hgrows₂.toExtends
    cases neutral with
    | true => exact .pure hid₂
    | false =>
      refine bind_lift_operandOf hk₂ ?_
      have hsides := Session.isCoherent_sides (x := .phrase (.extended p op y)) hid₂ hk₂
      exact .lift (Session.newNode_gives_holds (fun _ => hsides) rfl) fun _ _ _ h => h

theorem openedId_refines (hid : st.Holds id x) : (openedId id).Refines st x.opened fun st' i y => st'.Holds i y := by
  refine (via_refines hid (opened_refines hid)).bind_ok fun v y st' _ hv => ?_
  obtain ⟨y, i⟩ := v
  obtain ⟨rfl, hi⟩ := hv
  exact .pure hi

theorem compare_refines (hid : st.Holds id x) (hz : z.Means st r) :
    (compare id z).Refines st (do x.compare (← r)) fun _ a b => a = b := by
  refine (ofArgument_refines hz).bind fun k y st₁ hgrows₁ hk => ?_
  have hid₁ := hid.mono hgrows₁.toExtends
  refine (via_refines hid₁ (exact_refines hid₁)).bind fun a _ st₂ hgrows₂ hab => ?_
  subst hab
  have hk₂ := hk.mono hgrows₂.toExtends
  refine (via_refines hk₂ (exact_refines hk₂)).bind fun b _ st₃ _ hab => ?_
  subst hab
  exact .pure rfl

theorem abs_refines (hid : st.Holds id x) : (abs id).Refines st x.abs fun st' i y => st'.Holds i y := by
  refine (openedId_refines hid).bind fun i y st₁ hgrows₁ hi => ?_
  refine (isZero_via hi).bind_bool fun st₂ zero hgrows₂ => ?_
  have hi₂ := hi.mono hgrows₂.toExtends
  cases zero with
  | true => exact .pure hi₂
  | false =>
    have hzero : (Argument.input (.integer 0)).Means st₂ (.ok (.number (.decimal .zero))) := rfl
    refine (compare_refines hi₂ hzero).bind fun o _ st₃ hgrows₃ ho => ?_
    subst ho
    have hi₃ := hi₂.mono hgrows₃.toExtends
    by_cases hlt : o = .lt
    · simp only [if_pos hlt]
      exact fun hst => reduce_refines hst.zero hi₃ .minus hst
    · simp only [if_neg hlt]
      exact .pure hi₃

theorem extremum_refines (worse : Ordering) {zs : List Argument} {rs : List (Result Operand)}
    (hzs : List.Forall₂ (Argument.Means st) zs rs) {i : Nat} (hi : st.Holds i x) :
    (extremum worse i zs).Refines st (x.extremumOf worse rs) fun st' i y => st'.Holds i y := by
  induction zs generalizing st rs i x with
  | nil =>
    cases hzs
    exact .pure hi
  | cons z zs ih =>
    obtain _ | ⟨hz, hzs⟩ := hzs
    refine (ofArgument_refines hz).bind fun k y st₁ hgrows₁ hk => ?_
    have hi₁ := hi.mono hgrows₁.toExtends
    refine (compare_refines hi₁ (z := .node k) ⟨y, hk, rfl⟩).bind fun o _ st₂ hgrows₂ ho => ?_
    subst ho
    have hzs₂ := hzs.imp fun _ _ h => h.mono (hgrows₁.trans hgrows₂).toExtends
    by_cases hworse : o = worse
    · simp only [if_pos hworse]
      exact ih hzs₂ (hk.mono hgrows₂.toExtends)
    · simp only [if_neg hworse]
      exact ih hzs₂ (hi₁.mono hgrows₂.toExtends)

theorem max_refines {zs : List Argument} {rs : List (Result Operand)} (hid : st.Holds id x)
    (hzs : List.Forall₂ (Argument.Means st) zs rs) :
    (max id zs).Refines st (do (← x.opened).extremumOf .lt rs) fun st' i y => st'.Holds i y := by
  refine (openedId_refines hid).bind fun i y st₁ hgrows hi => ?_
  exact extremum_refines .lt (hzs.imp fun _ _ h => h.mono hgrows.toExtends) hi

theorem min_refines {zs : List Argument} {rs : List (Result Operand)} (hid : st.Holds id x)
    (hzs : List.Forall₂ (Argument.Means st) zs rs) :
    (min id zs).Refines st (do (← x.opened).extremumOf .gt rs) fun st' i y => st'.Holds i y := by
  refine (openedId_refines hid).bind fun i y st₁ hgrows hi => ?_
  exact extremum_refines .gt (hzs.imp fun _ _ h => h.mono hgrows.toExtends) hi

end Node

end ExactCalc
