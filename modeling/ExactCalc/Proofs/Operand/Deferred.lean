import Mathlib
import ExactCalc.Proofs.Expr.Writing

/-!
# Phrases that are extended

An operation on a phrase only writes it down, to be read when a value is asked for; on any other operand it is computed
at once. Both ways give the same value as long as each operand is read as it was meant (`Operand.IsLegible`): written in
parentheses it is one operand, with the value that it resolves to.

`Phrase.Reads` is what a phrase is known to stand for, on its own and on the left of an operation, and
`Operand.Stands` the same for the operand that is computed, which may be a phrase itself once a zero or a one has been
left out. An operation takes both to the same new value (`Operand.Stands.apply`), and so does a list of them.
-/

namespace ExactCalc

open Text

/-! ## Operands as they are read -/

/-- What an operand is written as on a side of an operation, where its parts are read with the values they have. -/
inductive Operand.IsReadAs : Operand → Primary → Prop
  | number {n : Number} : n.IsReadable → n.KeepsValue → IsReadAs (.number n) n.primary
  | calculation {left right : Operand} {op : Operation} {P Q : Primary} : IsReadAs left P → IsReadAs right Q →
      Q.readsInside = true → IsReadAs (.calculation left op right) (.group (P.formula.followedBy op Q))
  | phrase {p : Phrase} {f : Formula} : f.HasNumerals → f.IsWrittenAs p.text → (∀ n ∈ f.toExpr.leaves, n.IsReadable) →
      IsReadAs (.phrase p) (.group f)

theorem Number.toExpr_primary (n : Number) : n.primary.formula.toExpr = n.primary.formula.tree :=
  (Formula.toExpr_eq_tree_iff _).mpr n.isRegular_primary.1

theorem Phrase.parsed_eq {p : Phrase} {f : Formula} (hf : f.HasNumerals) (hp : f.IsWrittenAs p.text) :
    p.parsed = .ok f.toExpr :=
  Expr.ofText_eq_toExpr hf hp

theorem Phrase.resolve_eq {p : Phrase} {e : Expr} (h : p.parsed = .ok e) : (Operand.phrase p).resolve = e.resolve := by
  rw [Operand.resolve, h]
  rfl

namespace Operand.IsReadAs

variable {x : Operand} {P : Primary} {n : Number}

theorem hasNumerals (h : x.IsReadAs P) : P.formula.HasNumerals := by
  induction h with
  | number hread _ => exact (Number.primary_spec hread).1
  | @calculation left right op P Q _ _ _ ihl ihr => exact ihl.followedBy op ihr
  | phrase hf _ _ => exact hf

theorem isWrittenAs (h : x.IsReadAs P) : P.formula.IsWrittenAs x.sideText := by
  induction h with
  | @number n _ _ => exact n.isWrittenAs_primary
  | @calculation left right op P Q _ _ _ ihl ihr =>
    have htext : (Operand.calculation left op right).sideText =
        "(" ++ (left.sideText ++ " " ++ op.text ++ " " ++ right.sideText) ++ ")" := by
      simp only [sideText, String.append_assoc]
    rw [htext]
    exact (ihl.followedBy op ihr).group
  | phrase _ hp _ => exact hp.group

theorem scaleSum_le (h : x.IsReadAs P) : P.formula.toExpr.scaleSum ≤ x.sideText.toList.length :=
  Formula.scaleSum_toExpr_le h.isWrittenAs

theorem exists_value (h : x.IsReadAs P) (hn : x.resolve = .ok n)
    (hscale : P.formula.toExpr.scaleSum < Decimal.scaleLimit) :
    ∃ v, P.formula.toExpr.HasValue v ∧ x.Resolves v P.formula.toExpr.scaleSum := by
  induction h generalizing n with
  | @number m hread hkeep =>
    obtain ⟨-, ⟨v, hv, hworth⟩, hle, -⟩ := Number.primary_spec hread
    rw [m.toExpr_primary]
    exact ⟨v, hv, m, rfl, hread, (hworth hkeep).symm, hle⟩
  | @calculation left right op P Q _ _ hinside ihl ihr =>
    have hexpr : (Primary.group (P.formula.followedBy op Q)).formula.toExpr =
        .binary P.formula.toExpr op Q.formula.toExpr :=
      (Formula.toExpr_group _).trans (Formula.toExpr_followedBy op hinside)
    rw [hexpr, Expr.scaleSum_binary] at hscale ⊢
    obtain ⟨a, b, ha, hb, -⟩ := exists_exactFor_of_resolve hn
    obtain ⟨l, hl, -⟩ := exists_of_bind_ok ha
    obtain ⟨r, hr, -⟩ := exists_of_bind_ok hb
    obtain ⟨u, hu, hleft⟩ := ihl hl (by omega)
    obtain ⟨v, hv, hright⟩ := ihr hr (by omega)
    obtain ⟨hne, m, hm, hspec⟩ := hleft.calculation hright hscale hn
    obtain rfl := Except.ok.inj hm
    exact ⟨_, hu.binary hv hne, n, hn, hspec⟩
  | @phrase p f hf hp hread =>
    have hexpr : (Primary.group f).formula.toExpr = f.toExpr := f.toExpr_group
    rw [hexpr] at hscale ⊢
    rw [Phrase.resolve_eq (Phrase.parsed_eq hf hp)] at hn
    obtain ⟨hvalue, -⟩ := Expr.exists_value_of_evaluates hread hscale hn
    obtain ⟨m, hm, hspec⟩ := hvalue.exists_resolve hscale
    exact ⟨n.worth, hvalue, m, (Phrase.resolve_eq (Phrase.parsed_eq hf hp)).trans hm, hspec⟩

end Operand.IsReadAs

/-- The operand is read as one where it is a side, with its value, and its value is settled. -/
def Operand.IsLegible (x : Operand) : Prop :=
  ∃ P n, x.IsReadAs P ∧ P.readsInside = true ∧ x.resolve = .ok n ∧ settled n.worth = n.worth

/-! ## Phrases -/

/-- A formula on the left of an operation that is written after it: the number that it is, or in parentheses. -/
def Formula.operand (f : Formula) : Primary :=
  match f.toExpr with
  | .number n => n.primary
  | .binary .. => .group f

/-- What a phrase stands for: it is written as this formula, and has this value wherever it is written. -/
structure Phrase.Reads (p : Phrase) (f : Formula) (v : Rat) (k : Nat) : Prop where
  numerals : f.HasNumerals
  written : f.IsWrittenAs p.text
  value : f.toExpr.HasValue v
  operand_numerals : f.operand.formula.HasNumerals
  operand_value : f.operand.formula.toExpr.HasValue v
  scale_le : f.toExpr.scaleSum ≤ k
  operand_scale_le : f.operand.formula.toExpr.scaleSum ≤ k

namespace Phrase

variable {p : Phrase} {f : Formula} {v w : Rat} {j k : Nat}

theorem Reads.mono (h : p.Reads f v j) (hjk : j ≤ k) : p.Reads f v k :=
  { h with scale_le := h.scale_le.trans hjk, operand_scale_le := h.operand_scale_le.trans hjk }

theorem Reads.resolves (h : p.Reads f v k) (hk : k < Decimal.scaleLimit) : (Operand.phrase p).Resolves v k := by
  obtain ⟨n, hn, hread, hworth, hle⟩ := h.value.exists_resolve (h.scale_le.trans_lt hk)
  exact ⟨n, (resolve_eq (parsed_eq h.numerals h.written)).trans hn, hread, hworth, hle.trans h.scale_le⟩

theorem reads_of_hasValue (hf : f.HasNumerals) (hp : f.IsWrittenAs p.text) (hv : f.toExpr.HasValue v)
    (hkeep : ∀ n, f.toExpr = .number n → n.KeepsValue) (hk : p.text.toList.length + Expansion.digitLimit ≤ k) :
    p.Reads f v k := by
  have hscale := Formula.scaleSum_toExpr_le hp
  cases he : f.toExpr with
  | binary left op right =>
    have hoperand : f.operand = .group f := by rw [Formula.operand, he]
    have hexpr : f.operand.formula.toExpr = f.toExpr := by rw [hoperand]; exact f.toExpr_group
    exact ⟨hf, hp, hv, by rw [hoperand]; exact hf, by rwa [hexpr], by omega, by rw [hexpr]; omega⟩
  | number n =>
    have hoperand : f.operand = n.primary := by rw [Formula.operand, he]
    have hread : n.IsReadable := hv.readable n (by rw [he]; simp [Expr.leaves])
    have hworth : n.worth = v := by
      have hrational := hv.rational_eq
      rwa [he] at hrational
    have hself : f.toExpr.scaleSum = n.decimalScale := by rw [he]; simp [Expr.scaleSum, Expr.leaves]
    obtain ⟨hnumerals, ⟨u, hu, hvalue⟩, -, hle⟩ := Number.primary_spec hread
    have huv : u = v := (hvalue (hkeep n he)).trans hworth
    refine ⟨hf, hp, hv, ?_, ?_, by omega, ?_⟩
    · rwa [hoperand]
    · rw [hoperand, n.toExpr_primary]
      exact huv ▸ hu
    · rw [hoperand, n.toExpr_primary]
      omega

theorem Reads.isWrittenAs_extended (h : p.Reads f v k) {y : Operand} {Q : Primary} (hy : y.IsReadAs Q)
    (op : Operation) :
    (f.operand.formula.followedBy op Q).IsWrittenAs (extended p op y).text := by
  have hparsed : Expr.ofText p.text = .ok f.toExpr := parsed_eq h.numerals h.written
  rw [text, hparsed]
  refine Formula.IsWrittenAs.followedBy op ?_ hy.isWrittenAs
  rw [Formula.operand]
  cases f.toExpr with
  | number n => exact n.isWrittenAs_primary
  | binary left o right => exact h.written.group

theorem Reads.extended (h : p.Reads f v k) {y : Operand} {Q : Primary} {op : Operation} (hy : y.IsReadAs Q)
    (hinside : Q.readsInside = true) (hw : Q.formula.toExpr.HasValue w) (hj : Q.formula.toExpr.scaleSum ≤ j)
    (hne : op.divides = true → w ≠ 0) :
    (Phrase.extended p op y).Reads (f.operand.formula.followedBy op Q) (settled (op.exact v w)) (k + j) := by
  have hexpr := Formula.toExpr_followedBy (e := f.operand.formula) op hinside
  have hoperand : (f.operand.formula.followedBy op Q).operand = .group (f.operand.formula.followedBy op Q) := by
    rw [Formula.operand, hexpr]
  have hsame : (f.operand.formula.followedBy op Q).operand.formula.toExpr =
      .binary f.operand.formula.toExpr op Q.formula.toExpr := by
    rw [hoperand]
    exact (Formula.toExpr_group _).trans hexpr
  have hnumerals := h.operand_numerals.followedBy op hy.hasNumerals
  have hvalue : (Expr.binary _ op _).HasValue _ := h.operand_value.binary hw hne
  have hscale := Nat.add_le_add h.operand_scale_le hj
  refine ⟨hnumerals, h.isWrittenAs_extended hy op, ?_, ?_, ?_, ?_, ?_⟩
  · rwa [hexpr]
  · rwa [hoperand]
  · rwa [hsame]
  · rwa [hexpr, Expr.scaleSum_binary]
  · rwa [hsame, Expr.scaleSum_binary]

/-- An operation on a phrase that resolves is no division by zero. -/
theorem Reads.ne_zero (h : p.Reads f v k) {y : Operand} {Q : Primary} {op : Operation} (hy : y.IsReadAs Q)
    (hinside : Q.readsInside = true) (hw : Q.formula.toExpr.HasValue w) (hj : Q.formula.toExpr.scaleSum ≤ j)
    (hkj : k + j < Decimal.scaleLimit) {n : Number} (hn : (Operand.phrase (.extended p op y)).resolve = .ok n) :
    op.divides = true → w ≠ 0 := by
  have hparsed := parsed_eq (h.operand_numerals.followedBy op hy.hasNumerals) (h.isWrittenAs_extended hy op)
  rw [Formula.toExpr_followedBy op hinside] at hparsed
  rw [resolve_eq hparsed] at hn
  have hscale : (Expr.binary f.operand.formula.toExpr op Q.formula.toExpr).scaleSum < Decimal.scaleLimit := by
    rw [Expr.scaleSum_binary]
    exact (Nat.add_le_add h.operand_scale_le hj).trans_lt hkj
  have hread : ∀ m ∈ (Expr.binary f.operand.formula.toExpr op Q.formula.toExpr).leaves, m.IsReadable :=
    List.forall_mem_append.mpr ⟨h.operand_value.readable, hw.readable⟩
  obtain ⟨hvalue, -⟩ := Expr.exists_value_of_evaluates hread hscale hn
  obtain ⟨-, -, hne, -⟩ := hvalue.of_binary
  rwa [hw.rational_eq] at hne

end Phrase

/-! ## One operation -/

namespace Operand

/-- What an operand that is computed stands for. -/
structure Stands (x : Operand) (v : Rat) (k : Nat) : Prop where
  resolves : x.Resolves v k
  reads : ∀ p, x = phrase p → ∃ f, p.Reads f v k

variable {x y z : Operand} {p : Phrase} {f : Formula} {Q : Primary} {op : Operation} {u v w : Rat} {j k : Nat}

theorem Stands.mono (h : x.Stands v j) (hjk : j ≤ k) : x.Stands v k := by
  refine ⟨h.resolves.mono hjk, fun p hp => ?_⟩
  obtain ⟨f, hf⟩ := h.reads p hp
  exact ⟨f, hf.mono hjk⟩

theorem Resolves.stands_number {n : Number} (h : (number n).Resolves v k) : (number n).Stands v k :=
  ⟨h, by simp⟩

theorem IsReadAs.stands (hy : y.IsReadAs Q) (hw : Q.formula.toExpr.HasValue w)
    (hresolves : y.Resolves w Q.formula.toExpr.scaleSum) (hsettled : settled w = w)
    (hk : y.sideText.toList.length + Expansion.digitLimit ≤ k) : y.Stands w k := by
  refine ⟨hresolves.mono ?_, fun p hp => ?_⟩
  · have hle := hy.scaleSum_le
    omega
  · subst hp
    cases hy with
    | @phrase _ f hf hp hread =>
      have hvalue : f.toExpr.HasValue w := f.toExpr_group ▸ hw
      have hlen : p.text.toList.length ≤ (Operand.phrase p).sideText.toList.length := by
        simp only [sideText, String.toList_append, List.length_append]
        omega
      refine ⟨f, Phrase.reads_of_hasValue hf hp hvalue (fun n hn => .inr ?_) (by omega)⟩
      have hworth := hvalue.rational_eq
      rw [hn] at hworth
      rw [show n.worth = w from hworth, hsettled]

/-- An operation on a phrase leaves it as it is, or is written after it. -/
theorem apply_phrase (hy : y.Resolves w j) (p : Phrase) (op : Operation) :
    (op.Neutral w ∧ (phrase p).apply op y = .ok (phrase p)) ∨
      ¬ op.Neutral w ∧ (phrase p).apply op y = .ok (phrase (.extended p op y)) := by
  obtain ⟨b, hb, hneutral⟩ := op.exists_isNeutral w
  simp only [apply, hy.isZero_eq, hy.isOne_eq, hb, bind, Except.bind]
  cases b with
  | true => exact .inl ⟨hneutral.mp rfl, rfl⟩
  | false => exact .inr ⟨fun h => by simpa using hneutral.mpr h, rfl⟩

theorem apply_of_ne_phrase (hx : ∀ p, x ≠ phrase p) (op : Operation) (y : Operand) : x.apply op y = reduce x op y := by
  cases x with
  | phrase p => exact absurd rfl (hx p)
  | number n => rfl
  | calculation left o right => rfl

theorem Stands.apply_neutral (hx : x.Stands v j) (hy : y.Stands w k) (hjk : j ≤ k) (hw : op.Neutral w)
    (hz : x.apply op y = .ok z) : z.Stands v k := by
  by_cases hphrase : ∃ p, x = phrase p
  · obtain ⟨p, rfl⟩ := hphrase
    obtain ⟨-, hp⟩ | ⟨hno, -⟩ := apply_phrase hy.resolves p op
    · obtain rfl := Except.ok.inj (hp.symm.trans hz)
      exact hx.mono hjk
    · exact absurd hw hno
  · rw [apply_of_ne_phrase (fun p hp => hphrase ⟨p, hp⟩)] at hz
    obtain ⟨side, hshort, hsome, hreduce⟩ := hx.resolves.exists_reduce hy.resolves op
    obtain ⟨s, rfl⟩ := Option.ne_none_iff_exists'.mp (hsome hw)
    obtain rfl : s.pick x y = z := Except.ok.inj (hreduce.symm.trans hz)
    cases s with
    | left => exact hx.mono hjk
    | right =>
      have hvw : v = w := (hw.short v).exact_eq.symm.trans (hshort _ rfl).exact_eq
      exact hvw ▸ hy

theorem Stands.reduce (hx : x.Stands v k) (hy : y.Stands w (k + j)) (hyj : y.Resolves w j) (hsettled : settled w = w)
    (hw : ¬ op.Neutral w) (hkj : k + j < Decimal.scaleLimit) (hz : reduce x op y = .ok z) :
    (op.divides = true → w ≠ 0) ∧ z.Stands (settled (op.exact v w)) (k + j) := by
  obtain ⟨side, hshort, -, hreduce⟩ := hx.resolves.exists_reduce hyj op
  rw [hreduce] at hz
  cases side with
  | none =>
    cases hn : (calculation x op y).resolve with
    | error e => simp [hn, Except.map] at hz
    | ok n =>
      rw [hn] at hz
      obtain rfl : number n = z := Except.ok.inj hz
      obtain ⟨hne, hresolves⟩ := hx.resolves.calculation hyj hkj hn
      exact ⟨hne, hresolves.stands_number⟩
  | some s =>
    obtain rfl : s.pick x y = z := Except.ok.inj hz
    have hs := hshort s rfl
    refine ⟨hs.ne_zero, ?_⟩
    rw [hs.exact_eq]
    cases s with
    | left =>
      have hv : v = 0 := hs.left_eq_zero hw
      have hzero : ExactCalc.settled v = v := by
        rw [hv]
        simpa using settled_intCast 0
      show x.Stands (ExactCalc.settled v) (k + j)
      rw [hzero]
      exact hx.mono (Nat.le_add_right k j)
    | right =>
      show y.Stands (ExactCalc.settled w) (k + j)
      rwa [hsettled]

/-- An operation takes a phrase and an operand of its value to the same new value. -/
theorem Stands.apply (hx : x.Stands v k) (hp : p.Reads f v k) (hy : y.IsLegible) (hz : x.apply op y = .ok z)
    (hresolves : ∃ n, z.resolve = .ok n) (hdigits : Expansion.digitLimit ≤ k)
    (hk : k + y.sideText.toList.length < Decimal.scaleLimit) :
    ∃ q g u, (phrase p).apply op y = .ok (phrase q) ∧ q.Reads g u (k + y.sideText.toList.length) ∧
      z.Stands u (k + y.sideText.toList.length) := by
  obtain ⟨Q, n, hQ, hinside, hn, hsettled⟩ := hy
  have hj := hQ.scaleSum_le
  obtain ⟨w, hw, hyw⟩ := hQ.exists_value hn (by omega)
  obtain rfl : n.worth = w := by
    obtain ⟨m, hm, -, hworth, -⟩ := hyw
    obtain rfl := Except.ok.inj (hn.symm.trans hm)
    exact hworth
  have hstands := hQ.stands hw hyw hsettled (k := k + y.sideText.toList.length) (by omega)
  have hyj := hyw.mono hj
  obtain ⟨hneutral, happly⟩ | ⟨hneutral, happly⟩ := apply_phrase hyw p op
  · have hle := Nat.le_add_right k y.sideText.toList.length
    exact ⟨p, f, v, happly, hp.mono hle, hx.apply_neutral hstands hle hneutral hz⟩
  · suffices hspec : (op.divides = true → n.worth ≠ 0) ∧
        z.Stands (settled (op.exact v n.worth)) (k + y.sideText.toList.length) by
      exact ⟨_, _, _, happly, hp.extended hQ hinside hw hj hspec.1, hspec.2⟩
    by_cases hphrase : ∃ r, x = phrase r
    · -- the operand that is computed has become a phrase, and is extended as well
      obtain ⟨r, rfl⟩ := hphrase
      obtain ⟨g, hr⟩ := hx.reads r rfl
      obtain ⟨hyes, -⟩ | ⟨-, hsame⟩ := apply_phrase hyw r op
      · exact absurd hyes hneutral
      · obtain rfl := Except.ok.inj (hsame.symm.trans hz)
        obtain ⟨m, hm⟩ := hresolves
        have hne := hr.ne_zero hQ hinside hw hj hk hm
        have hextended := hr.extended hQ hinside hw hj hne
        refine ⟨hne, hextended.resolves hk, fun q hq => ?_⟩
        obtain rfl := phrase.inj hq
        exact ⟨_, hextended⟩
    · rw [apply_of_ne_phrase (fun r hr => hphrase ⟨r, hr⟩)] at hz
      exact hx.reduce hstands hyj hsettled hneutral hk hz

/-! ## Lists of operations -/

def applyAll (x : Operand) : List (Operation × Operand) → Result Operand
  | [] => .ok x
  | s :: steps => do (← x.apply s.1 s.2).applyAll steps

/-- The operand resolves, and so does what each of the operations gives. -/
def StepsResolve (x : Operand) : List (Operation × Operand) → Prop
  | [] => ∃ n, x.resolve = .ok n
  | s :: steps => (∃ n, x.resolve = .ok n) ∧ ∃ y, x.apply s.1 s.2 = .ok y ∧ y.StepsResolve steps

theorem StepsResolve.exists_resolve {steps : List (Operation × Operand)} (h : x.StepsResolve steps) :
    ∃ n, x.resolve = .ok n := by
  cases steps with
  | nil => exact h
  | cons s steps => exact h.1

theorem Stands.applyAll {steps : List (Operation × Operand)} (hx : x.Stands v k) (hp : p.Reads f v k)
    (hlegible : ∀ s ∈ steps, s.2.IsLegible) (hsteps : x.StepsResolve steps) (hdigits : Expansion.digitLimit ≤ k)
    (hk : k + (steps.map fun s => s.2.sideText.toList.length).sum < Decimal.scaleLimit) :
    ∃ q z u, (phrase p).applyAll steps = .ok (phrase q) ∧ x.applyAll steps = .ok z ∧
      (phrase q).toRational = .ok u ∧ z.toRational = .ok u := by
  induction steps generalizing x p f v k with
  | nil =>
    have hk' : k < Decimal.scaleLimit := by simpa using hk
    exact ⟨p, x, v, rfl, rfl, (hp.resolves hk').toRational_eq, hx.resolves.toRational_eq⟩
  | cons s steps ih =>
    obtain ⟨-, y, hy, hrest⟩ := hsteps
    rw [List.map_cons, List.sum_cons] at hk
    obtain ⟨hs, hlegible⟩ := List.forall_mem_cons.mp hlegible
    obtain ⟨q, g, u, hq, hreads, hstands⟩ := hx.apply hp hs hy hrest.exists_resolve hdigits (by omega)
    obtain ⟨q', z, u', hq', hz, hvalue⟩ := ih hstands hreads hlegible hrest (by omega) (by omega)
    refine ⟨q', z, u', ?_, ?_, hvalue⟩
    · rw [Operand.applyAll, hq]
      exact hq'
    · rw [Operand.applyAll, hy]
      exact hz

/-- Operations applied to a phrase, which are written down and read when the value is asked for, give the value of the
same operations applied to what the phrase stands for, if each of these resolves and the operands are legible. -/
theorem applyAll_phrase {e : Expr} {steps : List (Operation × Operand)} (hf : f.HasNumerals) (hp : f.IsWrittenAs p.text)
    (he : p.parsed = .ok e) (hread : ∀ n ∈ e.leaves, n.IsReadable) (hkeep : ∀ n, e = .number n → n.KeepsValue)
    (hlegible : ∀ s ∈ steps, s.2.IsLegible) (hsteps : e.toOperand.StepsResolve steps)
    (hsize : p.text.toList.length + Expansion.digitLimit + (steps.map fun s => s.2.sideText.toList.length).sum <
      Decimal.scaleLimit) :
    ∃ q x v, (phrase p).applyAll steps = .ok (phrase q) ∧ e.toOperand.applyAll steps = .ok x ∧
      (phrase q).toRational = .ok v ∧ x.toRational = .ok v := by
  obtain rfl : f.toExpr = e := Except.ok.inj ((Phrase.parsed_eq hf hp).symm.trans he)
  have hscale := Formula.scaleSum_toExpr_le hp
  obtain ⟨n, hn⟩ := hsteps.exists_resolve
  rw [Expr.resolve_toOperand] at hn
  obtain ⟨hvalue, -⟩ := Expr.exists_value_of_evaluates hread (by omega) hn
  have hreads := Phrase.reads_of_hasValue hf hp hvalue hkeep le_rfl
  have hstands : f.toExpr.toOperand.Stands n.worth (p.text.toList.length + Expansion.digitLimit) := by
    obtain ⟨m, hm, hmread, hmworth, hle⟩ := hvalue.exists_resolve (by omega)
    refine ⟨⟨m, f.toExpr.resolve_toOperand.trans hm, hmread, hmworth, by omega⟩, fun q hq => ?_⟩
    cases he : f.toExpr with
    | number l => simp [he, Expr.toOperand] at hq
    | binary left op right => simp [he, Expr.toOperand] at hq
  exact hstands.applyAll hreads hlegible hsteps (Nat.le_add_left _ _) hsize

theorem applyAll_phrase_quarter :
    let e : Expr := .binary (.number (.amount "1")) .divide (.number (.amount "4"))
    let steps : List (Operation × Operand) :=
      [(.minus, phrase (.written "2+3")),
        (.times, calculation (number (.amount "2")) .plus (number (.decimal (.ofInt 7))))]
    ∃ q x v, (phrase (.written "1/4")).applyAll steps = .ok (phrase q) ∧ e.toOperand.applyAll steps = .ok x ∧
      (phrase q).toRational = .ok v ∧ x.toRational = .ok v := by
  intro e steps
  have h₁ : IsLiteral "1" := isLiteral_digit (c := '1') rfl
  have h₂ : IsLiteral "2" := isLiteral_digit (c := '2') rfl
  have h₃ : IsLiteral "3" := isLiteral_digit (c := '3') rfl
  have h₄ : IsLiteral "4" := isLiteral_digit (c := '4') rfl
  have hread₁ : (Number.amount "1").IsReadable := show (Decimal.ofText? "1").isSome = true by cbv
  have hread₂ : (Number.amount "2").IsReadable := show (Decimal.ofText? "2").isSome = true by cbv
  have hread₃ : (Number.amount "3").IsReadable := show (Decimal.ofText? "3").isSome = true by cbv
  have hread₄ : (Number.amount "4").IsReadable := show (Decimal.ofText? "4").isSome = true by cbv
  have hsum : (phrase (.written "2+3")).IsLegible := by
    have hleaves : (Formula.thenLiteral (.literal "2") .plus "3").toExpr.leaves = [.amount "2", .amount "3"] := by cbv
    refine ⟨.group (.thenLiteral (.literal "2") .plus "3"), .decimal (.ofInt 5),
      .phrase (Formula.IsWellFormed.hasNumerals ⟨h₂, h₃⟩) (Formula.isWrittenAs_text _) ?_, rfl, by cbv,
      settled_of_terminates (Decimal.terminates_toRat _)⟩
    simpa [hleaves] using ⟨hread₂, hread₃⟩
  have hcalculation : (calculation (number (.amount "2")) .plus (number (.decimal (.ofInt 7)))).IsLegible :=
    ⟨_, .decimal (.ofInt 9), .calculation (.number hread₂ (.inl trivial)) (.number trivial (.inl trivial)) rfl, rfl,
      by cbv, settled_of_terminates (Decimal.terminates_toRat _)⟩
  refine applyAll_phrase (f := .thenLiteral (.literal "1") .divide "4") (Formula.IsWellFormed.hasNumerals ⟨h₁, h₄⟩)
    (Formula.isWrittenAs_text _) ?_ ?_ ?_ ?_ ?_ ?_
  · cbv
  · simpa [e, Expr.leaves] using ⟨hread₁, hread₄⟩
  · simp [e]
  · simp only [steps, List.forall_mem_cons]
    exact ⟨hsum, hcalculation, by simp⟩
  · exact ⟨⟨_, by cbv⟩, _, by cbv, ⟨_, by cbv⟩, _, by cbv, _, by cbv⟩
  · cbv

/-- The sum `2 + 3 + 4` is not read as one operand: its last number is added after the subtraction. -/
theorem applyAll_phrase_ne :
    ¬ ∀ (p : Phrase) (f : Formula) (e : Expr) (steps : List (Operation × Operand)), f.IsWellFormed →
      f.IsWrittenAs p.text → p.parsed = .ok e → (∀ q, phrase q ∈ steps.map Prod.snd → q.isValid = true) →
      e.toOperand.StepsResolve steps →
      ∃ q x v, (phrase p).applyAll steps = .ok (phrase q) ∧ e.toOperand.applyAll steps = .ok x ∧
        (phrase q).toRational = .ok v ∧ x.toRational = .ok v := by
  intro h
  have hvalid : (Phrase.written "2 + 3 + 4").isValid = true := by cbv
  obtain ⟨q, x, v, hq, hx, hdeferred, hcomputed⟩ := h (.written "1") (.literal "1") (.number (.amount "1"))
    [(.minus, phrase (.written "2 + 3 + 4"))] (isLiteral_digit (c := '1') rfl)
    (Formula.isWrittenAs_literal "1") (by cbv) (by simpa using hvalid) ⟨⟨_, by cbv⟩, _, by cbv, _, by cbv⟩
  have hphrase : (phrase (.written "1")).applyAll [(.minus, phrase (.written "2 + 3 + 4"))] =
      .ok (phrase (.extended (.written "1") .minus (phrase (.written "2 + 3 + 4")))) := by
    cbv
  obtain rfl := phrase.inj (Except.ok.inj (hphrase.symm.trans hq))
  have hnumber : (Expr.number (.amount "1")).toOperand.applyAll [(.minus, phrase (.written "2 + 3 + 4"))] =
      .ok (number (.decimal (.ofInt (-8)))) := by
    cbv
  obtain rfl := Except.ok.inj (hnumber.symm.trans hx)
  have hzero : (phrase (.extended (.written "1") .minus (phrase (.written "2 + 3 + 4")))).resolve =
      .ok (.decimal (.ofInt 0)) := by
    cbv
  rw [toRational, hzero] at hdeferred
  have hv : (Decimal.ofInt 0).toRat = (Decimal.ofInt (-8)).toRat := Except.ok.inj (hdeferred.trans hcomputed.symm)
  rw [Decimal.toRat_ofInt, Decimal.toRat_ofInt] at hv
  norm_num at hv

end Operand

end ExactCalc
