import Mathlib
import ExactCalc.Store.Session

/-!
# Coherent stores

A store is coherent if every filled slot of every memo holds what its operand gives when nothing is remembered
(`Memo.Agrees`), and the sides of every node are nodes of the sides of its operand. Nodes are only added, their operands
never change, and a number that a calculation once resolved to keeps its node until the memo is emptied
(`Store.Grows`).
-/

namespace ExactCalc

/-! ## Cells -/

namespace Store

variable (st : Store) (id j : Nat) (f : Memo → Memo) (c : Cell)

theorem size_push : (st.push c).2.cells.size = st.cells.size + 1 := by
  simp [push]

theorem cell_push_size : (st.push c).2.cell st.cells.size = c := by
  simp [push, cell]

theorem cell_push_of_ne (h : id ≠ st.cells.size) : (st.push c).2.cell id = st.cell id := by
  simp only [push, cell, Array.getD_eq_getD_getElem?, Array.getElem?_push, if_neg h]

theorem size_updateMemo : (st.updateMemo id f).cells.size = st.cells.size := by
  simp [updateMemo]

theorem cell_updateMemo_of_ne (h : j ≠ id) : (st.updateMemo id f).cell j = st.cell j := by
  simp only [updateMemo, cell, Array.getD_eq_getD_getElem?, Array.getElem?_modify, if_neg (Ne.symm h)]

theorem cell_updateMemo_self (h : id < st.cells.size) :
    (st.updateMemo id f).cell id = { st.cell id with memo := f (st.memo id) } := by
  simp only [updateMemo, cell, memo, Array.getD_eq_getD_getElem?, Array.getElem?_modify, Array.getElem?_eq_getElem h]
  simp

theorem updateMemo_of_size_le (h : st.cells.size ≤ id) : st.updateMemo id f = st := by
  have hcells : st.cells.modify id (fun c => { c with memo := f c.memo }) = st.cells := by
    refine Array.ext (by simp) fun i hi _ => ?_
    have hne : id ≠ i := by
      rw [Array.size_modify] at hi
      omega
    rw [Array.getElem_modify, if_neg hne]
  rw [updateMemo, hcells]

theorem memo_updateMemo_of_ne (h : j ≠ id) : (st.updateMemo id f).memo j = st.memo j := by
  rw [memo, cell_updateMemo_of_ne _ _ _ _ h]
  rfl

theorem memo_updateMemo_self (h : id < st.cells.size) : (st.updateMemo id f).memo id = f (st.memo id) := by
  rw [memo, cell_updateMemo_self _ _ _ h]

theorem memo_updateMemo_cases :
    (st.updateMemo id f).memo j = f (st.memo j) ∨ (st.updateMemo id f).memo j = st.memo j := by
  by_cases hlt : id < st.cells.size
  · by_cases hj : j = id
    · subst hj
      exact .inl (memo_updateMemo_self _ _ _ hlt)
    · exact .inr (memo_updateMemo_of_ne _ _ _ _ hj)
  · rw [updateMemo_of_size_le _ _ _ (by omega)]
    exact .inr rfl

theorem cell_updateMemo_eq : ∃ m, (st.updateMemo id f).cell j = { st.cell j with memo := m } := by
  by_cases hlt : id < st.cells.size
  · by_cases hj : j = id
    · subst hj
      exact ⟨_, cell_updateMemo_self _ _ _ hlt⟩
    · exact ⟨_, cell_updateMemo_of_ne _ _ _ _ hj⟩
  · rw [updateMemo_of_size_le _ _ _ (by omega)]
    exact ⟨_, rfl⟩

theorem operand_updateMemo : (st.updateMemo id f).operand j = st.operand j := by
  obtain ⟨m, hm⟩ := st.cell_updateMemo_eq id j f
  rw [operand, hm]
  rfl

end Store

/-! ## Growth -/

/-- The node is in the store, and this is its operand. -/
def Store.Holds (st : Store) (id : Nat) (x : Operand) : Prop := id < st.cells.size ∧ st.operand id = x

/-- A later store: nodes have been added, and a calculation that resolves to another node than before resolves to a new
one. -/
structure Store.Extends (st st' : Store) : Prop where
  size_le : st.cells.size ≤ st'.cells.size
  operand_eq : ∀ id : Nat, id < st.cells.size → st'.operand id = st.operand id
  renewed : ∀ id : Nat, id < st.cells.size → ∀ n, ∀ i : Nat, (st'.memo id).resolved = some (n, i) →
    (st.memo id).resolved = some (n, i) ∨ st.cells.size ≤ i

/-- A later store in which no calculation has forgotten what it resolves to. -/
structure Store.Grows (st st' : Store) : Prop extends Store.Extends st st' where
  kept : ∀ id : Nat, id < st.cells.size → ∀ v, (st.memo id).resolved = some v → (st'.memo id).resolved = some v

namespace Store

variable {st st' st'' : Store} {x : Operand} {id : Nat}

theorem Extends.refl (st : Store) : st.Extends st := ⟨le_rfl, fun _ _ => rfl, fun _ _ _ _ h => .inl h⟩

theorem Extends.trans (h : st.Extends st') (h' : st'.Extends st'') : st.Extends st'' := by
  refine ⟨h.size_le.trans h'.size_le, fun id hid => ?_, fun id hid n i hi => ?_⟩
  · exact (h'.operand_eq id (hid.trans_le h.size_le)).trans (h.operand_eq id hid)
  · rcases h'.renewed id (hid.trans_le h.size_le) n i hi with hi | hi
    · exact h.renewed id hid n i hi
    · exact .inr (h.size_le.trans hi)

theorem Grows.refl (st : Store) : st.Grows st := { Extends.refl st with kept := fun _ _ _ h => h }

theorem Grows.trans (h : st.Grows st') (h' : st'.Grows st'') : st.Grows st'' :=
  { h.toExtends.trans h'.toExtends with
    kept := fun id hid v hv => h'.kept id (hid.trans_le h.size_le) v (h.kept id hid v hv) }

theorem Holds.mono (h : st.Holds id x) (hext : st.Extends st') : st'.Holds id x :=
  ⟨h.1.trans_le hext.size_le, (hext.operand_eq id h.1).trans h.2⟩

theorem grows_push (st : Store) (c : Cell) : st.Grows (st.push c).2 := by
  have hcell : ∀ id : Nat, id < st.cells.size → (st.push c).2.cell id = st.cell id :=
    fun id hid => st.cell_push_of_ne id c (by omega)
  refine ⟨⟨by rw [size_push]; omega, fun id hid => ?_, fun id hid n i hi => ?_⟩, fun id hid v hv => ?_⟩
  · rw [operand, hcell id hid]
    rfl
  · rw [memo, hcell id hid] at hi
    exact .inl hi
  · rw [memo, hcell id hid]
    exact hv

end Store

/-! ## Coherence -/

/-- Both succeed with values so related, or both fail with the same error. -/
inductive Result.Matches {α β : Type} (R : α → β → Prop) : Result α → Result β → Prop
  | ok {a : α} {b : β} : R a b → Matches R (.ok a) (.ok b)
  | error (e : CalcError) : Matches R (.error e) (.error e)

theorem Result.Matches.imp {α β : Type} {R S : α → β → Prop} {r : Result α} {r' : Result β} (h : Matches R r r')
    (hRS : ∀ {a b}, R a b → S a b) : Matches S r r' := by
  cases h with
  | ok hab => exact .ok (hRS hab)
  | error e => exact .error e

theorem Result.Matches.eq {α : Type} {r r' : Result α} (h : Result.Matches (fun a b => a = b) r r') : r = r' := by
  cases h with
  | ok hab => rw [hab]
  | error e => rfl

theorem Result.Matches.exists_of_ok {α β : Type} {R : α → β → Prop} {r : Result α} {b : β} (h : Matches R r (.ok b)) :
    ∃ a, r = .ok a ∧ R a b := by
  cases h with
  | ok hab => exact ⟨_, rfl, hab⟩

theorem Result.Matches.comp {α β γ : Type} {R : α → γ → Prop} {S : β → γ → Prop} {T : α → β → Prop} {r : Result α}
    {r' : Result β} {r'' : Result γ} (h : Matches R r r'') (h' : Matches S r' r'')
    (hT : ∀ {a b c}, R a c → S b c → T a b) : Matches T r r' := by
  cases h with
  | ok hac =>
    cases h' with
    | ok hbc => exact .ok (hT hac hbc)
  | error e =>
    cases h' with
    | error e => exact .error e

theorem Result.Matches.isOk_eq {α β : Type} {R : α → β → Prop} {r : Result α} {r' : Result β} (h : Matches R r r') :
    r.isOk = r'.isOk := by
  cases h <;> rfl

/-- The left side of a calculation, or the phrase that was extended. -/
def Operand.leftSide : Operand → Operand
  | calculation left _ _ => left
  | phrase (.extended p _ _) => phrase p
  | _ => number .zero

/-- The right side of a calculation, or the operand that a phrase was extended by. -/
def Operand.rightSide : Operand → Operand
  | calculation _ _ right => right
  | phrase (.extended _ _ x) => x
  | _ => number .zero

/-- Every filled slot holds what the operand gives without it. -/
structure Memo.Agrees (m : Memo) (x : Operand) (st : Store) : Prop where
  resolved : ∀ n id, m.resolved = some (n, id) → x.resolve = .ok n ∧ st.Holds id (.number n)
  decimal : ∀ v, m.decimal = some v → x.toDecimal = .ok v
  rational : ∀ v, m.rational = some v → x.toRational = .ok v
  text : ∀ v, m.text = some v → x.valueText = .ok v
  amount : ∀ v, m.amount = some v → x.amountText .default = .ok v
  tokens : ∀ ts, m.tokens = some ts → ts = Token.scan x.text
  parsed : ∀ r, m.parsed = some r →
    Result.Matches (fun v e => v.1 = e ∧ st.Holds v.2 e.toOperand) r (Expr.ofText x.text)
  valid : ∀ b, m.valid = some b → b = (Expr.ofText x.text).isOk

/-- The sides of a node are nodes of the sides of its operand, and its memo agrees with the operand. -/
structure Cell.IsCoherent (c : Cell) (st : Store) : Prop where
  left : st.Holds c.left c.operand.leftSide
  right : st.Holds c.right c.operand.rightSide
  memo : c.memo.Agrees c.operand st

structure Store.Coherent (st : Store) : Prop where
  zero : st.Holds zeroId (.number .zero)
  one : st.Holds oneId (.number .one)
  cell : ∀ id, (st.cell id).IsCoherent st

theorem Memo.agrees_empty (x : Operand) (st : Store) : ({} : Memo).Agrees x st := by
  constructor <;> simp

section
variable {st st' : Store} {x : Operand}

theorem Memo.Agrees.mono {m : Memo} (h : m.Agrees x st) (hmore : ∀ {id y}, st.Holds id y → st'.Holds id y) :
    m.Agrees x st' :=
  { h with
    resolved := fun n id hn => ⟨(h.resolved n id hn).1, hmore (h.resolved n id hn).2⟩
    parsed := fun r hr => (h.parsed r hr).imp fun hv => ⟨hv.1, hmore hv.2⟩ }

theorem Cell.IsCoherent.mono {c : Cell} (h : c.IsCoherent st) (hmore : ∀ {id y}, st.Holds id y → st'.Holds id y) :
    c.IsCoherent st' :=
  ⟨hmore h.left, hmore h.right, h.memo.mono hmore⟩

end

namespace Store

variable {st : Store} {id : Nat} {x : Operand}

theorem Coherent.push {c : Cell} (h : st.Coherent) (hc : c.IsCoherent st) : (st.push c).2.Coherent := by
  have hmore : ∀ {id y}, st.Holds id y → (st.push c).2.Holds id y := fun hy => hy.mono (st.grows_push c).toExtends
  refine ⟨hmore h.zero, hmore h.one, fun id => ?_⟩
  by_cases hid : id = st.cells.size
  · rw [hid, cell_push_size]
    exact hc.mono hmore
  · rw [cell_push_of_ne _ _ _ hid]
    exact (h.cell id).mono hmore

theorem Coherent.memo_agrees (h : st.Coherent) (hid : st.Holds id x) : (st.memo id).Agrees x st :=
  hid.2 ▸ (h.cell id).memo

theorem Holds.updateMemo (h : st.Holds id x) (j : Nat) (f : Memo → Memo) : (st.updateMemo j f).Holds id x := by
  rw [Holds, size_updateMemo, operand_updateMemo]
  exact h

theorem Coherent.updateMemo {f : Memo → Memo} (h : st.Coherent) (hf : (f (st.memo id)).Agrees (st.operand id) st) :
    (st.updateMemo id f).Coherent := by
  have hmore : ∀ {j y}, st.Holds j y → (st.updateMemo id f).Holds j y := fun hy => hy.updateMemo id f
  refine ⟨hmore h.zero, hmore h.one, fun j => ?_⟩
  by_cases hlt : id < st.cells.size
  · by_cases hj : j = id
    · subst hj
      rw [cell_updateMemo_self _ _ _ hlt]
      have hcell := h.cell j
      exact ⟨hmore hcell.left, hmore hcell.right, hf.mono hmore⟩
    · rw [cell_updateMemo_of_ne _ _ _ _ hj]
      exact (h.cell j).mono hmore
  · rw [updateMemo_of_size_le _ _ _ (by omega)]
    exact h.cell j

end Store

end ExactCalc
