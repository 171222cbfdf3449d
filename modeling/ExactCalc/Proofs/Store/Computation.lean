import Mathlib
import ExactCalc.Proofs.Store.Coherence

/-!
# Computations in a store

Every computation is specified against the operand alone: `Session.Gives` says what a computation yields in a later
coherent store, and `Attempt.Refines` that it succeeds or fails as a computation without a store does. A value that is
remembered may be taken from the memo or computed anew (`Session.Gives.remember`, `Attempt.Refines.remember`).
-/

namespace ExactCalc

/-- In a coherent store the computation leads to a later coherent store and to a value of which this holds. -/
def Session.Gives {α : Type} (m : Session α) (st : Store) (Q : Store → α → Prop) : Prop :=
  st.Coherent → st.Grows (m.run st).2 ∧ (m.run st).2.Coherent ∧ Q (m.run st).2 (m.run st).1

namespace Session.Gives

variable {α β : Type} {st : Store} {m : Session α} {Q : Store → α → Prop} {S : Store → β → Prop}

theorem pure {a : α} (h : Q st a) : Session.Gives (Pure.pure a) st Q := fun hst => ⟨.refl st, hst, h⟩

theorem bind {f : α → Session β} (hm : Session.Gives m st Q)
    (hf : ∀ a st', st.Grows st' → Q st' a → Session.Gives (f a) st' S) : Session.Gives (m >>= f) st S := by
  intro hst
  obtain ⟨hgrows, hcoherent, hQ⟩ := hm hst
  obtain ⟨hgrows', hcoherent', hS⟩ := hf _ _ hgrows hQ hcoherent
  exact ⟨hgrows.trans hgrows', hcoherent', hS⟩

theorem bind_get {f : Store → Session β} (h : st.Coherent → Session.Gives (f st) st S) :
    Session.Gives (get >>= f) st S :=
  fun hst => h hst hst

theorem imp {Q' : Store → α → Prop} (hm : Session.Gives m st Q) (h : ∀ st' a, st.Grows st' → Q st' a → Q' st' a) :
    Session.Gives m st Q' := by
  intro hst
  obtain ⟨hgrows, hcoherent, hQ⟩ := hm hst
  exact ⟨hgrows, hcoherent, h _ _ hgrows hQ⟩

end Session.Gives

/-- The computation gives what a computation without a store gives, up to this relation between the values. -/
def Attempt.Refines {α β : Type} (m : Attempt α) (st : Store) (r : Result β) (R : Store → α → β → Prop) : Prop :=
  Session.Gives m.run st fun st' a => Result.Matches (R st') a r

namespace Attempt.Refines

variable {α β γ δ : Type} {st : Store} {m : Attempt α} {r : Result β} {R : Store → α → β → Prop}
  {S : Store → γ → δ → Prop}

theorem pure {a : α} {b : β} (h : R st a b) : Attempt.Refines (Pure.pure a) st (.ok b) R :=
  Session.Gives.pure (.ok h)

theorem bind {f : α → Attempt γ} {g : β → Result δ} (hm : Attempt.Refines m st r R)
    (hf : ∀ a b st', st.Grows st' → R st' a b → Attempt.Refines (f a) st' (g b) S) :
    Attempt.Refines (m >>= f) st (r >>= g) S := by
  show Session.Gives (m.run >>= ExceptT.bindCont f) st _
  refine Session.Gives.bind hm fun a st' hgrows hab => ?_
  cases hab with
  | ok hab => exact hf _ _ st' hgrows hab
  | error e => exact Session.Gives.pure (.error e)

theorem bind_map {f : α → Attempt γ} {g : β → δ} (hm : Attempt.Refines m st r R)
    (hf : ∀ a b st', st.Grows st' → R st' a b → Attempt.Refines (f a) st' (.ok (g b)) S) :
    Attempt.Refines (m >>= f) st (r.map g) S := by
  have hbind : r.map g = r >>= fun b => .ok (g b) := by cases r <;> rfl
  rw [hbind]
  exact bind hm hf

theorem bind_ok {S : Store → γ → β → Prop} {f : α → Attempt γ} (hm : Attempt.Refines m st r R)
    (hf : ∀ a b st', st.Grows st' → R st' a b → Attempt.Refines (f a) st' (.ok b) S) :
    Attempt.Refines (m >>= f) st r S := by
  have hbind : r = r >>= .ok := by cases r <;> rfl
  rw [hbind]
  exact bind hm hf

theorem lift {m : Session α} {Q : Store → α → Prop} {b : β} (hm : Session.Gives m st Q)
    (h : ∀ st' a, st.Grows st' → Q st' a → R st' a b) : Attempt.Refines (liftM m) st (.ok b) R :=
  Session.Gives.bind hm fun a st' hgrows hQ => Session.Gives.pure (.ok (h st' a hgrows hQ))

theorem bind_lift {m : Session α} {Q : Store → α → Prop} {f : α → Attempt γ} {r : Result δ} (hm : Session.Gives m st Q)
    (hf : ∀ a st', st.Grows st' → Q st' a → Attempt.Refines (f a) st' r S) :
    Attempt.Refines (liftM m >>= f) st r S :=
  bind (R := fun st' a (_ : Unit) => Q st' a) (r := .ok ()) (lift hm fun _ _ _ h => h)
    fun a _ st' hgrows hQ => hf a st' hgrows hQ

theorem of_coherent (h : st.Coherent → Attempt.Refines m st r R) : Attempt.Refines m st r R := fun hst => h hst hst

theorem ofResult {r : Result α} : Attempt.Refines (Attempt.ofResult r) st r fun _ a b => a = b := by
  refine Session.Gives.pure ?_
  cases r with
  | ok a => exact .ok rfl
  | error e => exact .error e

theorem observe {m : Attempt α} {r : Result α} (hm : Attempt.Refines m st r fun _ a b => a = b) :
    Attempt.Refines (Attempt.observe m) st (observed r) fun _ a b => a = b := by
  refine Session.Gives.bind hm fun a st' _ hab => Session.Gives.pure ?_
  rw [hab.eq]
  generalize observed r = o
  cases o with
  | ok res => exact .ok rfl
  | error e => exact .error e

theorem fst_eq {r : Result α} (hm : Attempt.Refines m st r fun _ a b => a = b) (hst : st.Coherent) :
    (m.run.run st).1 = r :=
  (hm hst).2.2.eq

theorem of_eq_ok {b : β} (hm : Attempt.Refines m st r R) (hr : r = .ok b) :
    Attempt.Refines m st (.ok ()) fun st' a _ => R st' a b := by
  subst hr
  refine Session.Gives.imp hm fun st' res _ hmatches => ?_
  obtain ⟨a, rfl, hab⟩ := hmatches.exists_of_ok
  exact .ok hab

theorem exists_fst {b : β} (hm : Attempt.Refines m st (.ok b) R) (hst : st.Coherent) :
    ∃ a, (m.run.run st).1 = .ok a ∧ R (m.run.run st).2 a b :=
  (hm hst).2.2.exists_of_ok

end Attempt.Refines

/-! ## Slots -/

/-- The slot is for values of which this holds, and filling it leaves the number alone that a calculation
resolves to. -/
structure Memo.Remembers {α : Type} (slot : Memo → Option α) (fill : α → Memo → Memo) (P : Operand → Store → α → Prop) :
    Prop where
  holds : ∀ {m : Memo} {x : Operand} {st : Store} {v : α}, m.Agrees x st → slot m = some v → P x st v
  agrees : ∀ {m : Memo} {x : Operand} {st : Store} {v : α}, m.Agrees x st → P x st v → (fill v m).Agrees x st
  mono : ∀ {x : Operand} {st st' : Store} {v : α}, (∀ {id y}, st.Holds id y → st'.Holds id y) → P x st v → P x st' v
  resolved_eq : ∀ v m, (fill v m).resolved = m.resolved

namespace Memo

theorem remembers_decimal :
    Remembers decimal (fun v m => { m with decimal := some v }) fun x _ v => x.toDecimal = .ok v where
  holds := fun h hv => h.decimal _ hv
  agrees := fun h hv => { h with decimal := by simpa using hv }
  mono := fun _ hv => hv
  resolved_eq := fun _ _ => rfl

theorem remembers_rational :
    Remembers rational (fun v m => { m with rational := some v }) fun x _ v => x.toRational = .ok v where
  holds := fun h hv => h.rational _ hv
  agrees := fun h hv => { h with rational := by simpa using hv }
  mono := fun _ hv => hv
  resolved_eq := fun _ _ => rfl

theorem remembers_text : Remembers text (fun v m => { m with text := some v }) fun x _ v => x.valueText = .ok v where
  holds := fun h hv => h.text _ hv
  agrees := fun h hv => { h with text := by simpa using hv }
  mono := fun _ hv => hv
  resolved_eq := fun _ _ => rfl

theorem remembers_amount :
    Remembers amount (fun v m => { m with amount := some v }) fun x _ v => x.amountText .default = .ok v where
  holds := fun h hv => h.amount _ hv
  agrees := fun h hv => { h with amount := by simpa using hv }
  mono := fun _ hv => hv
  resolved_eq := fun _ _ => rfl

theorem remembers_tokens :
    Remembers tokens (fun v m => { m with tokens := some v }) fun x _ ts => ts = Token.scan x.text where
  holds := fun h hv => h.tokens _ hv
  agrees := fun h hv => { h with tokens := by simpa using hv }
  mono := fun _ hv => hv
  resolved_eq := fun _ _ => rfl

theorem remembers_parsed : Remembers parsed (fun v m => { m with parsed := some v }) fun x st r =>
    Result.Matches (fun v e => v.1 = e ∧ st.Holds v.2 e.toOperand) r (Expr.ofText x.text) where
  holds := fun h hv => h.parsed _ hv
  agrees := fun h hv => { h with parsed := by simpa using hv }
  mono := fun hmore hv => hv.imp fun hab => ⟨hab.1, hmore hab.2⟩
  resolved_eq := fun _ _ => rfl

theorem remembers_valid :
    Remembers valid (fun v m => { m with valid := some v }) fun x _ b => b = (Expr.ofText x.text).isOk where
  holds := fun h hv => h.valid _ hv
  agrees := fun h hv => { h with valid := by simpa using hv }
  mono := fun _ hv => hv
  resolved_eq := fun _ _ => rfl

end Memo

namespace Store

variable {st : Store} {id : Nat} {f : Memo → Memo}

theorem memo_updateMemo_resolved (hf : ∀ m, (f m).resolved = m.resolved) (j : Nat) :
    ((st.updateMemo id f).memo j).resolved = (st.memo j).resolved := by
  rcases st.memo_updateMemo_cases id j f with h | h
  · rw [h, hf]
  · rw [h]

theorem grows_updateMemo (hf : ∀ m, (f m).resolved = m.resolved) : st.Grows (st.updateMemo id f) := by
  refine ⟨⟨by rw [size_updateMemo], fun j _ => st.operand_updateMemo id j f, fun j _ n i hi => ?_⟩, fun j _ v hv => ?_⟩
  · rw [memo_updateMemo_resolved hf] at hi
    exact .inl hi
  · rw [memo_updateMemo_resolved hf]
    exact hv

theorem Grows.updateMemo_resolved {st' : Store} {n : Number} {i : Nat} (h : st.Grows st')
    (hnone : (st.memo id).resolved = none) (hnew : st.cells.size ≤ i) :
    st.Grows (st'.updateMemo id fun m => { m with resolved := some (n, i) }) := by
  refine ⟨⟨by rw [size_updateMemo]; exact h.size_le, fun j hj => ?_, fun j hj m k hk => ?_⟩, fun j hj v hv => ?_⟩
  · exact (st'.operand_updateMemo id j _).trans (h.operand_eq j hj)
  · by_cases hne : j = id
    · subst hne
      rw [memo_updateMemo_self _ _ _ (hj.trans_le h.size_le)] at hk
      obtain ⟨-, rfl⟩ := Prod.mk.inj (Option.some.inj hk)
      exact .inr hnew
    · rw [memo_updateMemo_of_ne _ _ _ _ hne] at hk
      exact h.renewed j hj m k hk
  · have hne : j ≠ id := by
      rintro rfl
      rw [hnone] at hv
      simp at hv
    rw [memo_updateMemo_of_ne _ _ _ _ hne]
    exact h.kept j hj v hv

end Store

namespace Session

variable {α : Type} {st st' : Store} {id : Nat} {x : Operand} {slot : Memo → Option α} {fill : α → Memo → Memo}
  {compute : Session α}

theorem run_get_bind {β : Type} (f : Store → Session β) (st : Store) :
    StateT.run (m := Id) (get >>= f) st = (f st).run st := rfl

theorem run_remember_of_some {v : α} (h : slot (st.memo id) = some v) :
    (remember id slot fill compute).run st = (v, st) := by
  rw [remember, run_get_bind, h]
  rfl

theorem run_remember_of_none (h : slot (st.memo id) = none) :
    (remember id slot fill compute).run st =
      ((compute.run st).1, (compute.run st).2.updateMemo id (fill (compute.run st).1)) := by
  rw [remember, run_get_bind, h]
  rfl

theorem memo_remember {v : α} (hfill : ∀ v m, slot (fill v m) = some v)
    (hrun : (remember id slot fill compute).run st = (v, st')) (hid : id < st'.cells.size) :
    slot (st'.memo id) = some v := by
  cases hv : slot (st.memo id) with
  | some w =>
    rw [run_remember_of_some hv] at hrun
    obtain ⟨rfl, rfl⟩ := Prod.mk.inj hrun
    exact hv
  | none =>
    rw [run_remember_of_none hv] at hrun
    obtain ⟨rfl, rfl⟩ := Prod.mk.inj hrun
    rw [Store.size_updateMemo] at hid
    rw [Store.memo_updateMemo_self _ _ _ hid]
    exact hfill _ _

/-- Of a value that is remembered there holds what would hold of one that is computed; and if it is not remembered yet,
also what is known of the computation. -/
theorem Gives.remember {P : Operand → Store → α → Prop} {Q : α → Prop}
    (hslot : Memo.Remembers slot fill P) (hid : st.Holds id x)
    (hcompute : compute.Gives st fun st' v => P x st' v ∧ Q v) :
    (ExactCalc.remember id slot fill compute).Gives st fun st' v =>
      P x st' v ∧ (slot (st.memo id) = some v ∨ slot (st.memo id) = none ∧ Q v) := by
  intro hst
  cases hv : slot (st.memo id) with
  | some v =>
    rw [run_remember_of_some hv]
    exact ⟨.refl st, hst, hslot.holds (hst.memo_agrees hid) hv, .inl rfl⟩
  | none =>
    obtain ⟨hgrows, hcoherent, hP, hQ⟩ := hcompute hst
    rw [run_remember_of_none hv]
    generalize compute.run st = out at hgrows hcoherent hP hQ
    obtain ⟨v, st₁⟩ := out
    have hid₁ := hid.mono hgrows.toExtends
    have hmore : ∀ {j y}, st₁.Holds j y → (st₁.updateMemo id (fill v)).Holds j y := fun hy => hy.updateMemo id _
    refine ⟨hgrows.trans (Store.grows_updateMemo (hslot.resolved_eq v)), hcoherent.updateMemo ?_, hslot.mono hmore hP,
      .inr ⟨rfl, hQ⟩⟩
    rw [hid₁.2]
    exact hslot.agrees (hcoherent.memo_agrees hid₁) hP

end Session

namespace Attempt

variable {α β : Type} {st st' : Store} {id : Nat} {x : Operand} {slot : Memo → Option α} {fill : α → Memo → Memo}
  {compute : Attempt α}

theorem run_bind (m : Attempt α) (f : α → Attempt β) (st : Store) :
    (m >>= f).run.run st =
      match m.run.run st with
      | (.ok a, st') => (f a).run.run st'
      | (.error e, st') => (.error e, st') := by
  show (m.run >>= ExceptT.bindCont f).run st = _
  rw [StateT.run_bind]
  obtain ⟨r, st'⟩ := m.run.run st
  cases r <;> rfl

theorem run_get_bind (f : Store → Attempt α) (st : Store) : (get >>= f).run.run st = (f st).run.run st :=
  rfl

theorem run_bind_pure (m : Attempt α) (g : α → β) (st : Store) :
    (do let v ← m; return g v : Attempt β).run.run st = ((m.run.run st).1.map g, (m.run.run st).2) := by
  rw [run_bind]
  obtain ⟨r, st'⟩ := m.run.run st
  cases r <;> rfl

theorem run_observe (m : Attempt α) (st : Store) :
    (observe m).run.run st = (observed (m.run.run st).1, (m.run.run st).2) :=
  rfl

theorem run_remember_of_some {v : α} (h : slot (st.memo id) = some v) :
    (remember id slot fill compute).run.run st = (.ok v, st) := by
  rw [remember, run_get_bind, h]
  rfl

theorem run_remember_of_none (h : slot (st.memo id) = none) :
    (remember id slot fill compute).run.run st =
      match compute.run.run st with
      | (.ok v, st') => (.ok v, st'.updateMemo id (fill v))
      | (.error e, st') => (.error e, st') := by
  rw [remember, run_get_bind, h]
  exact run_bind compute _ st

theorem memo_remember {v : α}
    (hfill : ∀ v m, slot (fill v m) = some v) (hrun : (remember id slot fill compute).run.run st = (.ok v, st'))
    (hid : id < st'.cells.size) : slot (st'.memo id) = some v := by
  cases hv : slot (st.memo id) with
  | some w =>
    rw [run_remember_of_some hv] at hrun
    obtain ⟨h, rfl⟩ := Prod.mk.inj hrun
    rw [hv, Except.ok.inj h]
  | none =>
    rw [run_remember_of_none hv] at hrun
    generalize compute.run.run st = out at hrun
    obtain ⟨r, st₁⟩ := out
    cases r with
    | error e => cases (Prod.mk.inj hrun).1
    | ok w =>
      obtain ⟨h, rfl⟩ := Prod.mk.inj hrun
      obtain rfl := Except.ok.inj h
      rw [Store.size_updateMemo] at hid
      rw [Store.memo_updateMemo_self _ _ _ hid]
      exact hfill w _

/-- A value that is remembered is the one that would be computed. -/
theorem Refines.remember {value : Operand → Result α} (hslot : Memo.Remembers slot fill fun x _ v => value x = .ok v)
    (hid : st.Holds id x) (hcompute : compute.Refines st (value x) fun _ a b => a = b) :
    (ExactCalc.remember id slot fill compute).Refines st (value x) fun _ a b => a = b := by
  intro hst
  cases hv : slot (st.memo id) with
  | some v =>
    rw [run_remember_of_some hv, hslot.holds (hst.memo_agrees hid) hv]
    exact ⟨.refl st, hst, .ok rfl⟩
  | none =>
    obtain ⟨hgrows, hcoherent, hmatches⟩ := hcompute hst
    rw [run_remember_of_none hv]
    generalize compute.run.run st = out at hgrows hcoherent hmatches
    obtain ⟨r, st'⟩ := out
    generalize hvalue : value x = r' at hmatches
    cases hmatches with
    | error e => exact ⟨hgrows, hcoherent, .error e⟩
    | @ok v _ hab =>
      obtain rfl := hab
      have hid' := hid.mono hgrows.toExtends
      refine ⟨hgrows.trans (Store.grows_updateMemo (hslot.resolved_eq v)), hcoherent.updateMemo ?_, .ok rfl⟩
      rw [hid'.2]
      exact hslot.agrees (hcoherent.memo_agrees hid') hvalue

/-- The number that a calculation resolves to is a new one, or the one that is remembered. -/
theorem Refines.remember_resolved {compute : Attempt (Number × NodeId)} (hid : st.Holds id x)
    (hcompute : compute.Refines st x.resolve fun st' v n =>
      v.1 = n ∧ st'.Holds v.2 (.number n) ∧ (st.cells.size : Nat) ≤ v.2) :
    (ExactCalc.remember id Memo.resolved (fun v m => { m with resolved := some v }) compute).Refines st x.resolve
      fun st' v n => v.1 = n ∧ st'.Holds v.2 (.number n) := by
  intro hst
  cases hv : (st.memo id).resolved with
  | some v =>
    obtain ⟨n, i⟩ := v
    obtain ⟨hresolve, hholds⟩ := (hst.memo_agrees hid).resolved n i hv
    rw [run_remember_of_some hv, hresolve]
    exact ⟨.refl st, hst, .ok ⟨rfl, hholds⟩⟩
  | none =>
    obtain ⟨hgrows, hcoherent, hmatches⟩ := hcompute hst
    rw [run_remember_of_none hv]
    generalize compute.run.run st = out at hgrows hcoherent hmatches
    obtain ⟨r, st'⟩ := out
    generalize hvalue : x.resolve = r' at hmatches
    cases hmatches with
    | error e => exact ⟨hgrows, hcoherent, .error e⟩
    | @ok v _ hab =>
      obtain ⟨n, i⟩ := v
      obtain ⟨rfl, hholds, hnew⟩ := hab
      have hid' := hid.mono hgrows.toExtends
      have hfilled : (st'.updateMemo id fun m => { m with resolved := some (n, i) }).Coherent := by
        refine hcoherent.updateMemo ?_
        rw [hid'.2]
        exact { hcoherent.memo_agrees hid' with resolved := by rintro _ _ ⟨⟩; exact ⟨hvalue, hholds⟩ }
      exact ⟨hgrows.updateMemo_resolved hv hnew, hfilled, .ok ⟨rfl, hholds.updateMemo _ _⟩⟩

end Attempt

/-! ## Choices -/

namespace Attempt.Refines

theorem bind_bool {α β : Type} {st : Store} {m : Attempt Bool} {b : Result Bool} {f : Bool → Attempt α}
    {g : Bool → Result β} {R : Store → α → β → Prop} (hm : m.Refines st b fun _ a b => a = b)
    (hf : ∀ st' b, st.Grows st' → (f b).Refines st' (g b) R) : (m >>= f).Refines st (b >>= g) R := by
  refine hm.bind fun a b st' hgrows hab => ?_
  subst hab
  exact hf st' a hgrows

section
variable {st : Store} {a b c d : Attempt Bool} {a' b' c' d' : Result Bool}

theorem shortCircuit (op : Operation) (ha : ∀ st', st.Grows st' → a.Refines st' a' fun _ a b => a = b)
    (hb : ∀ st', st.Grows st' → b.Refines st' b' fun _ a b => a = b)
    (hc : ∀ st', st.Grows st' → c.Refines st' c' fun _ a b => a = b)
    (hd : ∀ st', st.Grows st' → d.Refines st' d' fun _ a b => a = b) :
    (op.shortCircuit a b c d).Refines st (op.shortCircuit a' b' c' d') fun _ a b => a = b := by
  have hask : ∀ {m : Attempt Bool} {m' : Result Bool} {side : Option Side} {k : Attempt (Option Side)}
      {k' : Result (Option Side)} {st' : Store}, st.Grows st' →
      (∀ st', st.Grows st' → m.Refines st' m' fun _ a b => a = b) →
      (∀ st'', st.Grows st'' → k.Refines st'' k' fun _ a b => a = b) →
      (m >>= fun yes => if yes = true then Pure.pure side else k).Refines st'
        (m' >>= fun yes => if yes = true then .ok side else k') fun _ a b => a = b := by
    intro m m' side k k' st' hgrows hm hk
    refine (hm st' hgrows).bind_bool fun st'' answer hgrows' => ?_
    cases answer with
    | true => exact .pure rfl
    | false => exact hk st'' (hgrows.trans hgrows')
  have hnone : ∀ {st' : Store}, (Pure.pure none : Attempt (Option Side)).Refines st' (.ok none) fun _ a b => a = b :=
    .pure rfl
  cases op with
  | plus => exact hask (.refl st) ha fun _ h₁ => hask h₁ hc fun _ _ => hnone
  | minus => exact hask (.refl st) hc fun _ _ => hnone
  | multiply | times =>
    exact hask (.refl st) ha fun _ h₁ => hask h₁ hd fun _ h₂ => hask h₂ hc fun _ h₃ => hask h₃ hb fun _ _ => hnone
  | divide => exact hask (.refl st) hd fun _ _ => hnone
  | modulo => exact hnone

theorem isNeutral (op : Operation) (ha : a.Refines st a' fun _ a b => a = b) (hb : b.Refines st b' fun _ a b => a = b) :
    (op.isNeutral a b).Refines st (op.isNeutral a' b') fun _ a b => a = b := by
  cases op with
  | plus | minus => exact ha
  | multiply | times | divide => exact hb
  | modulo => exact .pure rfl

end

end Attempt.Refines

end ExactCalc
