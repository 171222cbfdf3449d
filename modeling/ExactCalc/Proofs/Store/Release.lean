import Mathlib
import ExactCalc.Proofs.Store.Arithmetic

/-!
# Released nodes

A release empties a memo and changes nothing else: the store stays coherent, and every other node keeps what it
remembers. An operation that releases its left side afterwards gives what the operation gives.
-/

namespace ExactCalc

/-- A later coherent store in which only these nodes may have forgotten what they resolve to. -/
structure Store.Leads (st st' : Store) (released : Nat → Prop) : Prop extends Store.Extends st st' where
  coherent : st'.Coherent
  kept : ∀ id : Nat, id < st.cells.size → ¬ released id → ∀ v, (st.memo id).resolved = some v →
    (st'.memo id).resolved = some v

/-- The node that an operation on a node takes for its left side: the node itself, or what a phrase is known to stand
for. -/
def Store.IsLeftOf (st : Store) (id j : Nat) : Prop :=
  match st.operand id with
  | .phrase _ => ∃ e, (st.memo id).parsed = some (.ok (e, j))
  | _ => j = id

variable {st st' st'' : Store} {id : Nat} {x : Operand} {op : Operation} {z : Argument} {r : Result Operand}
  {released released' : Nat → Prop}

namespace Store

theorem Grows.leads (h : st.Grows st') (hst' : st'.Coherent) : st.Leads st' released :=
  { h.toExtends with coherent := hst', kept := fun id hid _ => h.kept id hid }

theorem Grows.trans_leads (h : st.Grows st') (h' : st'.Leads st'' released) : st.Leads st'' released :=
  { h.toExtends.trans h'.toExtends with
    coherent := h'.coherent
    kept := fun id hid hno v hv => h'.kept id (hid.trans_le h.size_le) hno v (h.kept id hid v hv) }

theorem Leads.trans (h : st.Leads st' released) (h' : st'.Leads st'' released')
    (hsub : ∀ id : Nat, id < st.cells.size → released' id → released id) : st.Leads st'' released :=
  { h.toExtends.trans h'.toExtends with
    coherent := h'.coherent
    kept := fun id hid hno v hv =>
      h'.kept id (hid.trans_le h.size_le) (fun hyes => hno (hsub id hid hyes)) v (h.kept id hid hno v hv) }

theorem Leads.imp (h : st.Leads st' released) (hsub : ∀ id : Nat, id < st.cells.size → released id → released' id) :
    st.Leads st' released' :=
  { h with kept := fun id hid hno => h.kept id hid fun hyes => hno (hsub id hid hyes) }

theorem leads_updateMemo (hst : st.Coherent) {f : Memo → Memo}
    (hf : (f (st.memo id)).Agrees (st.operand id) st) (hnone : (f (st.memo id)).resolved = none) :
    st.Leads (st.updateMemo id f) (· = id) := by
  refine ⟨⟨by rw [size_updateMemo], fun j _ => st.operand_updateMemo id j f, fun j hj n i hi => .inl ?_⟩,
    hst.updateMemo hf, fun j _ hj v hv => by rw [memo_updateMemo_of_ne _ _ _ _ hj]; exact hv⟩
  by_cases hne : j = id
  · subst hne
    rw [memo_updateMemo_self _ _ _ hj, hnone] at hi
    simp at hi
  · rwa [memo_updateMemo_of_ne _ _ _ _ hne] at hi

end Store

/-- What a release leaves of the memo of an operand. -/
def Memo.forget (m : Memo) : Operand → Memo
  | .phrase _ => { m with parsed := none }
  | _ => { m with resolved := none, decimal := none, rational := none, text := none, amount := none }

theorem Memo.Agrees.forget {m : Memo} (h : m.Agrees x st) (y : Operand) : (m.forget y).Agrees x st := by
  cases y with
  | phrase p => exact { h with parsed := by simp [Memo.forget] }
  | number n | calculation left op right =>
    exact { h with
      resolved := by simp [Memo.forget]
      decimal := by simp [Memo.forget]
      rational := by simp [Memo.forget]
      text := by simp [Memo.forget]
      amount := by simp [Memo.forget] }

namespace Session

theorem run_release (id : Nat) (st : Store) :
    ((release id).run st).2 = st.updateMemo id fun m => m.forget (st.operand id) :=
  rfl

/-- A release forgets what the node resolves to, unless it is a phrase. -/
theorem release_leads (hst : st.Coherent) (id : Nat) :
    st.Leads ((release id).run st).2 fun j => j = id ∧ ∀ p, st.operand id ≠ .phrase p := by
  have hagrees : ∀ y, ((st.memo id).forget y).Agrees (st.operand id) st := fun y => (hst.cell id).memo.forget y
  rw [run_release]
  cases hx : st.operand id with
  | phrase p =>
    have hgrows : st.Grows (st.updateMemo id fun m => m.forget (.phrase p)) := Store.grows_updateMemo fun _ => rfl
    exact hgrows.leads (hst.updateMemo (hagrees _))
  | number n =>
    exact (Store.leads_updateMemo hst (f := fun m => m.forget (.number n)) (hagrees _) rfl).imp
      fun j _ hj => ⟨hj, by simp⟩
  | calculation left op right =>
    exact (Store.leads_updateMemo hst (f := fun m => m.forget (.calculation left op right)) (hagrees _) rfl).imp
      fun j _ hj => ⟨hj, by simp⟩

theorem memo_release_self (hid : id < st.cells.size) (hx : ∀ p, st.operand id ≠ .phrase p) :
    (((release id).run st).2.memo id).resolved = none := by
  rw [run_release, Store.memo_updateMemo_self _ _ _ hid]
  cases h : st.operand id with
  | phrase p => exact absurd h (hx p)
  | number n | calculation left op right => rfl

theorem memo_release_of_none {j : Nat} (h : (st.memo j).resolved = none) :
    (((release id).run st).2.memo j).resolved = none := by
  rw [run_release]
  rcases st.memo_updateMemo_cases id j fun m => m.forget (st.operand id) with hj | hj
  · rw [hj]
    cases st.operand id with
    | phrase p => exact h
    | number n | calculation left op right => rfl
  · rw [hj]
    exact h

end Session

namespace Node

theorem run_applyAndReleaseValue (id : Nat) (op : Operation) (z : Argument) (st : Store) :
    (applyAndReleaseValue id op z).run.run st =
      match (apply id op z).run.run st with
      | (.ok k, st₁) => (.ok k, if k ≠ id then ((Session.release id).run st₁).2 else st₁)
      | (.error e, st₁) => (.error e, st₁) := by
  rw [applyAndReleaseValue, Attempt.run_bind]
  obtain ⟨res, st₁⟩ := (apply id op z).run.run st
  cases res with
  | error e => rfl
  | ok k =>
    show ((if k ≠ id then _ else _ : Attempt NodeId).run.run st₁) = _
    by_cases hk : k ≠ id
    · simp only [if_pos hk]
      rfl
    · simp only [if_neg hk]
      rfl

/-- An operation on a number or a calculation releases it if something else is the result. -/
theorem applyAndReleaseValue_leads (hst : st.Coherent) (hid : st.Holds id x) (hz : z.Means st r) (op : Operation) :
    let out := (applyAndReleaseValue id op z).run.run st
    st.Leads out.2 (fun j => j = id ∧ ∃ k, out.1 = .ok k ∧ k ≠ id) ∧
      Result.Matches out.2.Holds out.1 (x.applyTo op r) := by
  intro out
  obtain ⟨hgrows, hcoherent, hmatches⟩ := apply_refines hid op hz hst
  have hout : out = _ := run_applyAndReleaseValue id op z st
  generalize (apply id op z).run.run st = applied at hgrows hcoherent hmatches hout
  obtain ⟨res, st₁⟩ := applied
  rw [hout]
  cases res with
  | error e => exact ⟨hgrows.leads hcoherent, hmatches⟩
  | ok k =>
    by_cases hk : k = id
    · simp only [hk, ne_eq, not_true_eq_false, if_false]
      exact ⟨hgrows.leads hcoherent, hk ▸ hmatches⟩
    · simp only [ne_eq, hk, not_false_eq_true, if_true]
      have hrelease := Session.release_leads hcoherent id
      refine ⟨hgrows.trans_leads (hrelease.imp fun j _ hj => ⟨hj.1, k, rfl, hk⟩), ?_⟩
      exact hmatches.imp fun hab => hab.mono hrelease.toExtends

/-- After an operation that released its left side, that has forgotten what it resolves to. -/
theorem applyAndReleaseValue_forgets (hst : st.Coherent) (hid : st.Holds id x) (hx : ∀ p, x ≠ .phrase p)
    (hz : z.Means st r) {k : NodeId} (hk : ((applyAndReleaseValue id op z).run.run st).1 = .ok k) (hne : k ≠ id) :
    (((applyAndReleaseValue id op z).run.run st).2.memo id).resolved = none := by
  obtain ⟨hgrows, -, -⟩ := apply_refines hid op hz hst
  rw [run_applyAndReleaseValue] at hk ⊢
  generalize (apply id op z).run.run st = applied at hgrows hk
  obtain ⟨res, st₁⟩ := applied
  cases res with
  | error e => simp at hk
  | ok k' =>
    obtain rfl : k' = k := Except.ok.inj hk
    have hid₁ := hid.mono hgrows.toExtends
    simp only [if_pos hne]
    exact Session.memo_release_self hid₁.1 fun p => hid₁.2 ▸ hx p

/-- The node that a phrase is read as: the one that is remembered; if there is none, that of a number, or a new one. -/
theorem openedId_refines_phrase {p : Phrase} (hid : st.Holds id (.phrase p)) :
    (openedId id).Refines st p.parsed fun st' i e => st'.Holds i e.toOperand ∧
      ((∃ e', (st.memo id).parsed = some (.ok (e', i))) ∨
        (st.memo id).parsed = none ∧ ((∃ n, e = .number n) ∨ (st.cells.size : Nat) ≤ i)) := by
  have hparsed : (parsed p id).Refines st p.parsed fun st' v e => v.1 = e ∧ st'.Holds v.2 e.toOperand ∧
      ((st.memo id).parsed = some (.ok v) ∨
        (st.memo id).parsed = none ∧ ((∃ n, v.1 = .number n) ∨ (st.cells.size : Nat) ≤ v.2)) := by
    refine (parsedWith_gives (x := .phrase p) hid fun _ hgrows => phraseText_gives p (hid.mono hgrows.toExtends)).imp ?_
    rintro st' a - ⟨hmatches, hnew⟩
    change Result.Matches _ a p.parsed at hmatches
    generalize p.parsed = r at hmatches
    cases hmatches with
    | error e => exact .error e
    | ok hab => exact .ok ⟨hab.1, hab.2, hnew.imp_right fun h => ⟨h.1, h.2 _ rfl⟩⟩
  refine (via_refines hid (hparsed.bind_ok fun v e st' _ hv => ?_)).bind_ok fun v e st' _ hv => .pure hv
  obtain ⟨e, i⟩ := v
  obtain ⟨rfl, hi, hnew⟩ := hv
  exact .pure ⟨hi, hnew.imp_left fun h => ⟨e, h⟩⟩

theorem run_operandOf_bind {α : Type} (f : Operand → Attempt α) (id : Nat) (st : Store) :
    (do f (← operandOf id) : Attempt α).run.run st = (f (st.operand id)).run.run st :=
  rfl

theorem run_applyAndRelease_of_ne (hid : st.Holds id x) (hx : ∀ p, x ≠ .phrase p) (op : Operation) (z : Argument) :
    (applyAndRelease id op z).run.run st = (applyAndReleaseValue id op z).run.run st := by
  rw [applyAndRelease, run_operandOf_bind, hid.2]
  cases x with
  | phrase p => exact absurd rfl (hx p)
  | number n | calculation left o right => rfl

theorem isLeftOf_iff_of_ne (hid : st.Holds id x) (hx : ∀ p, x ≠ .phrase p) {j : Nat} : st.IsLeftOf id j ↔ j = id := by
  rw [Store.IsLeftOf, hid.2]
  cases x with
  | phrase p => exact absurd rfl (hx p)
  | number n | calculation left o right => rfl

/-- A release after an attempt takes place also if that failed, but not after an overflow. -/
theorem exists_run_observe (m : Attempt NodeId) (id : Nat) (st : Store) :
    ∃ st', (do
        let result ← Attempt.observe m
        Session.release id
        Attempt.ofResult result : Attempt NodeId).run.run st = ((m.run.run st).1, st') ∧
      (st' = (m.run.run st).2 ∨ st' = ((Session.release id).run (m.run.run st).2).2) := by
  rw [Attempt.run_bind, Attempt.run_observe]
  obtain ⟨res, st₁⟩ := m.run.run st
  rcases res with e | k
  · cases e with
    | overflow => exact ⟨_, rfl, .inl rfl⟩
    | _ => exact ⟨_, rfl, .inr rfl⟩
  · exact ⟨_, rfl, .inr rfl⟩

theorem run_applyAndRelease_of_error {p : Phrase} {e : CalcError} {st₁ : Store} (hid : st.operand id = .phrase p)
    (h : (openedId id).run.run st = (.error e, st₁)) (op : Operation) (z : Argument) :
    (applyAndRelease id op z).run.run st = (.error e, st₁) := by
  rw [applyAndRelease, run_operandOf_bind, hid]
  refine (Attempt.run_bind (openedId id) _ st).trans ?_
  rw [h]

/-- Of a phrase the node that it is read as takes part, and then the phrase is released. -/
theorem exists_run_applyAndRelease {p : Phrase} {i : NodeId} {st₁ : Store} (hid : st.operand id = .phrase p)
    (h : (openedId id).run.run st = (.ok i, st₁)) (op : Operation) (z : Argument) :
    let out := (applyAndReleaseValue i op z).run.run st₁
    ∃ st₂, (applyAndRelease id op z).run.run st = (out.1, st₂) ∧
      (st₂ = out.2 ∨ st₂ = ((Session.release id).run out.2).2) := by
  rw [applyAndRelease, run_operandOf_bind, hid]
  have hrun := (Attempt.run_bind (openedId id) (fun i => do
    let result ← Attempt.observe (applyAndReleaseValue i op z)
    Session.release id
    Attempt.ofResult result) st)
  rw [h] at hrun
  obtain ⟨st₂, hst₂, hcases⟩ := exists_run_observe (applyAndReleaseValue i op z) id st₁
  exact ⟨st₂, hrun.trans hst₂, hcases⟩

/-- An operation with a release makes its left side forget what it resolves to, unless that is the result. -/
theorem applyAndRelease_leads (hst : st.Coherent) (hid : st.Holds id x) (hz : z.Means st r) (op : Operation) :
    let out := (applyAndRelease id op z).run.run st
    st.Leads out.2 (fun j => (∃ n, st.operand j = .number n) ∨ ∃ k, out.1 = .ok k ∧ k ≠ j ∧ st.IsLeftOf id j) ∧
      Result.Matches out.2.Holds out.1 (do (← x.opened).applyTo op r) := by
  intro out
  by_cases hphrase : ∃ p, x = .phrase p
  · obtain ⟨p, rfl⟩ := hphrase
    have hpure : (do (← (Operand.phrase p).opened).applyTo op r : Result Operand) =
        p.parsed >>= fun e => e.toOperand.applyTo op r := by
      rw [Operand.opened]
      cases p.parsed <;> rfl
    rw [hpure]
    obtain ⟨hgrows, hcoherent, hmatches⟩ := openedId_refines_phrase hid hst
    generalize hopened : (openedId id).run.run st = opened at hgrows hcoherent hmatches
    obtain ⟨res, st₁⟩ := opened
    generalize p.parsed = parsed at hmatches
    cases hmatches with
    | error e =>
      have hout : out = _ := run_applyAndRelease_of_error hid.2 hopened op z
      rw [hout]
      exact ⟨hgrows.leads hcoherent, .error e⟩
    | @ok i e hab =>
      obtain ⟨hi, hnew⟩ := hab
      obtain ⟨hleads, hmatches⟩ := applyAndReleaseValue_leads hcoherent hi (hz.mono hgrows.toExtends) op
      obtain ⟨st₂, hout, hst₂⟩ := exists_run_applyAndRelease hid.2 hopened op z
      change out = _ at hout
      rw [hout]
      -- the phrase itself has no number to forget
      have hid₂ := (hid.mono hgrows.toExtends).mono hleads.toExtends
      have hrelease : Store.Leads ((applyAndReleaseValue i op z).run.run st₁).2 st₂ fun _ => False := by
        rcases hst₂ with rfl | rfl
        · exact (Store.Grows.refl _).leads hleads.coherent
        · exact (Session.release_leads hleads.coherent id).imp fun j _ hj => hj.2 p hid₂.2
      refine ⟨(hgrows.trans_leads (hleads.trans hrelease fun _ _ h => h.elim)).imp fun j hj hyes => ?_,
        hmatches.imp fun hab => hab.mono hrelease.toExtends⟩
      obtain ⟨rfl, k, hk, hne⟩ := hyes
      obtain ⟨e', he'⟩ | ⟨-, ⟨n, rfl⟩ | hle⟩ := hnew
      · refine .inr ⟨k, hk, hne, ?_⟩
        rw [Store.IsLeftOf, hid.2]
        exact ⟨e', he'⟩
      · exact .inl ⟨n, (hgrows.operand_eq j hj).symm.trans hi.2⟩
      · exact absurd hle (Nat.not_le.mpr hj)
  · have hx : ∀ p, x ≠ .phrase p := fun p hp => hphrase ⟨p, hp⟩
    have hout : out = (applyAndReleaseValue id op z).run.run st := run_applyAndRelease_of_ne hid hx op z
    have hopened : (do (← x.opened).applyTo op r : Result Operand) = x.applyTo op r := by
      cases x with
      | phrase p => exact absurd rfl (hx p)
      | number n | calculation left o right => rfl
    obtain ⟨hleads, hmatches⟩ := applyAndReleaseValue_leads hst hid hz op
    rw [hout, hopened]
    refine ⟨hleads.imp fun j _ hj => ?_, hmatches⟩
    obtain ⟨rfl, k, hk, hne⟩ := hj
    exact .inr ⟨k, hk, hne, (isLeftOf_iff_of_ne hid hx).mpr rfl⟩

theorem applyAndRelease_forgets (hst : st.Coherent) (hid : st.Holds id x) (hz : z.Means st r) {j : Nat} {k : NodeId}
    (hj : ∀ p, st.operand j ≠ .phrase p) (hlt : j < st.cells.size)
    (hk : ((applyAndRelease id op z).run.run st).1 = .ok k) (hne : k ≠ j) (hleft : st.IsLeftOf id j) :
    (((applyAndRelease id op z).run.run st).2.memo j).resolved = none := by
  by_cases hphrase : ∃ p, x = .phrase p
  · obtain ⟨p, rfl⟩ := hphrase
    rw [Store.IsLeftOf, hid.2] at hleft
    obtain ⟨e, he⟩ := hleft
    obtain ⟨hgrows, hcoherent, hmatches⟩ := openedId_refines_phrase hid hst
    generalize hopened : (openedId id).run.run st = opened at hgrows hcoherent hmatches
    obtain ⟨res, st₁⟩ := opened
    generalize p.parsed = parsed at hmatches
    cases hmatches with
    | error e =>
      rw [run_applyAndRelease_of_error hid.2 hopened] at hk
      simp at hk
    | @ok i e' hab =>
      obtain ⟨hi, hnew⟩ := hab
      obtain ⟨st₂, hout, hst₂⟩ := exists_run_applyAndRelease hid.2 hopened op z
      rw [hout] at hk ⊢
      obtain rfl : i = j := by
        obtain ⟨e'', he''⟩ | ⟨hnone, -⟩ := hnew
        · rw [he] at he''
          have hsame : e'' = e ∧ i = j := by simpa using he''.symm
          exact hsame.2
        · simp [he] at hnone
      have hi' : ∀ q, e'.toOperand ≠ .phrase q := by
        intro q hq
        cases e' <;> simp [Expr.toOperand] at hq
      have hforgets := applyAndReleaseValue_forgets hcoherent hi hi' (hz.mono hgrows.toExtends) hk hne
      rcases hst₂ with rfl | rfl
      · exact hforgets
      · exact Session.memo_release_of_none hforgets
  · have hx : ∀ p, x ≠ .phrase p := fun p hp => hphrase ⟨p, hp⟩
    obtain rfl := (isLeftOf_iff_of_ne hid hx).mp hleft
    rw [run_applyAndRelease_of_ne hid hx] at hk ⊢
    exact applyAndReleaseValue_forgets hst hid hx hz hk hne

end Node

end ExactCalc
