import Mathlib
import ExactCalc.Proofs.Store.Request

/-!
# Sessions

A script is a list of requests that name their nodes by registers (`Step`), so that it can be run with or without the
releases in it. In every run each filled slot of each memo holds what is computed anew when all memos are empty
(`Store.IsFaithful`), the answers are those of the script without its releases, and a calculation resolves to one node
between two releases of it.
-/

namespace ExactCalc

/-! ## Computing anew -/

def Store.forgotten (st : Store) : Store := ⟨st.cells.map fun c => { c with memo := {} }⟩

/-- Every filled slot of the memo of a node holds what is computed for the node when all memos are empty, up to the
identity of the nodes made for it. -/
structure Store.IsFaithful (st : Store) (id : Nat) : Prop where
  resolved : ∀ n i, (st.memo id).resolved = some (n, i) →
    let out := (Node.via Node.resolve id).run.run st.forgotten
    ∃ m, out.1 = .ok m ∧ m.number = n ∧ out.2.operand m.id = st.operand i
  decimal : ∀ v, (st.memo id).decimal = some v → ((Node.via Node.decimal id).run.run st.forgotten).1 = .ok v
  rational : ∀ v, (st.memo id).rational = some v → ((Node.via Node.rational id).run.run st.forgotten).1 = .ok v
  text : ∀ v, (st.memo id).text = some v → ((Node.via Node.valueText id).run.run st.forgotten).1 = .ok v
  amount : ∀ v, (st.memo id).amount = some v → ((Node.via Node.amount id).run.run st.forgotten).1 = .ok v
  tokens : ∀ ts, (st.memo id).tokens = some ts →
    ((do Node.tokens (← Session.phraseOf id) id : Session _).run st.forgotten).1 = ts
  parsed : ∀ r, (st.memo id).parsed = some r →
    let out := (do Node.parsed (← Session.phraseOf id) id : Attempt _).run.run st.forgotten
    Result.Matches (fun v w => v.1 = w.1 ∧ out.2.operand v.2 = st.operand w.2) out.1 r
  valid : ∀ b, (st.memo id).valid = some b →
    ((do Node.isValid (← Session.phraseOf id) id : Session _).run st.forgotten).1 = b

namespace Store

variable {st : Store} {id : Nat} {x : Operand}

theorem cell_forgotten (st : Store) (id : NodeId) : st.forgotten.cell id = { st.cell id with memo := {} } := by
  simp only [forgotten, cell, Array.getD_eq_getD_getElem?, Array.getElem?_map]
  cases st.cells[id]? <;> rfl

theorem holds_forgotten : st.forgotten.Holds id x ↔ st.Holds id x := by
  have hsize : st.forgotten.cells.size = st.cells.size := by simp [forgotten]
  have hoperand : st.forgotten.operand id = st.operand id := by rw [operand, cell_forgotten]; rfl
  rw [Holds, Holds, hsize, hoperand]

theorem Coherent.forgotten (h : st.Coherent) : st.forgotten.Coherent := by
  refine ⟨holds_forgotten.mpr h.zero, holds_forgotten.mpr h.one, fun id => ?_⟩
  rw [cell_forgotten]
  exact ⟨holds_forgotten.mpr (h.cell id).left, holds_forgotten.mpr (h.cell id).right, Memo.agrees_empty _ _⟩

theorem lt_size_of_calculation {left right : Operand} {op : Operation}
    (h : st.operand id = .calculation left op right) :
    id < st.cells.size := by
  by_contra hle
  rw [operand, cell, Array.getD_eq_getD_getElem?, Array.getElem?_eq_none (by omega)] at h
  simp at h

theorem Coherent.isFaithful (h : st.Coherent) (id : Nat) : st.IsFaithful id := by
  by_cases hlt : id < st.cells.size
  case neg =>
    have hempty : st.memo id = {} := by
      rw [memo, Store.cell, Array.getD_eq_getD_getElem?, Array.getElem?_eq_none (by omega)]
      rfl
    constructor <;> simp [hempty]
  have hagrees := h.memo_agrees ⟨hlt, rfl⟩
  have hid : st.forgotten.Holds id (st.operand id) := holds_forgotten.mpr ⟨hlt, rfl⟩
  have hst := h.forgotten
  constructor
  case resolved =>
    intro n i hn out
    obtain ⟨hresolve, hi⟩ := hagrees.resolved n i hn
    obtain ⟨-, -, hmatches⟩ := Node.via_refines hid (Node.resolution_refines _ hid) hst
    rw [hresolve] at hmatches
    obtain ⟨m, hm, hnumber, hholds⟩ := hmatches.exists_of_ok
    exact ⟨m, hm, hnumber, hholds.2.trans hi.2.symm⟩
  case decimal =>
    intro v hv
    exact ((Node.via_refines hid (Node.decimal_refines hid)).fst_eq hst).trans (hagrees.decimal v hv)
  case rational =>
    intro v hv
    exact ((Node.via_refines hid (Node.rational_refines hid)).fst_eq hst).trans (hagrees.rational v hv)
  case text =>
    intro v hv
    exact ((Node.via_refines hid (Node.valueText_refines hid)).fst_eq hst).trans (hagrees.text v hv)
  case amount =>
    intro v hv
    exact ((Node.via_refines hid (Node.amount_refines hid)).fst_eq hst).trans (hagrees.amount v hv)
  case tokens =>
    intro ts hts
    have hgives := (Node.phraseOf_gives hid).bind fun p st₁ hgrows hp =>
      Node.tokens_gives (hid.mono hgrows.toExtends) hp
    exact (hgives hst).2.2.trans (hagrees.tokens ts hts).symm
  case parsed =>
    intro r hr out
    have hrefines : (do Node.parsed (← Session.phraseOf id) id : Attempt _).Refines st.forgotten
        (Expr.ofText (st.operand id).text) fun st' v e => v.1 = e ∧ st'.Holds v.2 e.toOperand :=
      .bind_lift (Node.phraseOf_gives hid) fun p st₁ hgrows hp =>
        (Node.parsedWith_gives (hid.mono hgrows.toExtends) hp).imp fun _ _ _ h => h.1
    refine (hrefines hst).2.2.comp (hagrees.parsed r hr) ?_
    rintro v w e ⟨rfl, hv⟩ ⟨hw, hw'⟩
    exact ⟨hw.symm, hv.2.trans hw'.2.symm⟩
  case valid =>
    intro b hb
    have hgives := (Node.phraseOf_gives hid).bind fun p st₁ hgrows hp =>
      Node.isValid_gives (hid.mono hgrows.toExtends) hp
    exact (hgives hst).2.2.trans (hagrees.valid b hb).symm

end Store

/-! ## Scripts -/

/-- A request for the nodes in registers, and the register for the node of its answer. -/
structure Step where
  request : Request
  target : Option Nat := none

/-- A store with the nodes that have a name. -/
structure Machine where
  store : Store
  register : Nat → NodeId

namespace Machine

def start : Machine := ⟨.empty, fun _ => Store.zeroId⟩

def requestOf (m : Machine) (s : Step) : Request := s.request.rename m.register

def answer (m : Machine) (s : Step) : Answer := (m.store.perform (m.requestOf s)).1

def step (m : Machine) (s : Step) : Machine where
  store := (m.store.perform (m.requestOf s)).2
  register :=
    match m.answer s, s.target with
    | .node id, some t => Function.update m.register t id
    | _, _ => m.register

def run (m : Machine) (steps : List Step) : Machine := steps.foldl step m

/-- What is seen of the answers, of those of releases apart. -/
def views (m : Machine) : List Step → List View
  | [] => []
  | s :: steps =>
    if s.request.isRelease then (m.step s).views steps
    else (m.answer s).view (m.step s).store :: (m.step s).views steps

/-- No step releases the node. -/
def Spares (m : Machine) (id : NodeId) : List Step → Prop
  | [] => True
  | s :: steps => ¬ (m.requestOf s).Releases m.store id ∧ (m.step s).Spares id steps

/-- The registers hold these operands, in a coherent store. -/
structure Represents (m : Machine) (env : Nat → Operand) : Prop where
  coherent : m.store.Coherent
  holds : ∀ t, m.store.Holds (m.register t) (env t)

end Machine

def Step.assign (s : Step) (env : Nat → Operand) : View → Nat → Operand
  | .node x => match s.target with
    | some t => Function.update env t x
    | none => env
  | .plain _ => env

def Step.withoutReleases (script : List Step) : List Step := script.filter fun s => !s.request.isRelease

theorem Step.withoutReleases_cons (s : Step) (script : List Step) :
    withoutReleases (s :: script) =
      if s.request.isRelease then withoutReleases script else s :: withoutReleases script := by
  rw [withoutReleases, List.filter_cons]
  cases s.request.isRelease <;> rfl

def Step.meanings (env : Nat → Operand) : List Step → List View
  | [] => []
  | s :: steps => s.request.meaning env :: meanings (s.assign env (s.request.meaning env)) steps

theorem Store.coherent_empty : Store.empty.Coherent := by
  have hzero : Store.empty.Holds zeroId (.number .zero) := ⟨by decide, rfl⟩
  have hone : Store.empty.Holds oneId (.number .one) := ⟨by decide, rfl⟩
  refine ⟨hzero, hone, fun id => ?_⟩
  have hcell : ∃ n, Store.empty.cell id = { operand := .number n } := by
    match id with
    | 0 => exact ⟨_, rfl⟩
    | 1 => exact ⟨_, rfl⟩
    | id + 2 =>
      refine ⟨.zero, ?_⟩
      rw [Store.cell, Array.getD_eq_getD_getElem?, Array.getElem?_eq_none (by simp [Store.empty])]
      rfl
  obtain ⟨n, hn⟩ := hcell
  rw [hn]
  exact ⟨hzero, hzero, Memo.agrees_empty _ _⟩

namespace Machine

variable {m : Machine} {env : Nat → Operand} {id : Nat}

theorem start_represents : start.Represents fun _ => .number .zero :=
  ⟨Store.coherent_empty, fun _ => Store.coherent_empty.zero⟩

/-- A step leads to the registers that it means, and shows what it means. -/
theorem Represents.step (h : m.Represents env) (s : Step) :
    (m.step s).Represents (s.assign env (s.request.meaning env)) ∧
      (m.answer s).view (m.step s).store = s.request.meaning env := by
  obtain ⟨hleads, hview, hnode⟩ := Store.perform_leads h.coherent h.holds s.request
  change Answer.view (m.step s).store (m.answer s) = _ at hview
  refine ⟨⟨hleads.coherent, fun t => ?_⟩, hview⟩
  have hkept : (m.step s).store.Holds (m.register t) (env t) := (h.holds t).mono hleads.toExtends
  have hregister : (m.step s).register = match m.answer s, s.target with
    | .node id, some t => Function.update m.register t id
    | _, _ => m.register := rfl
  rw [hregister, ← hview]
  cases ha : m.answer s with
  | node id =>
    cases htarget : s.target with
    | none =>
      simp only [Answer.view, Step.assign, htarget]
      exact hkept
    | some u =>
      simp only [Answer.view, Step.assign, htarget]
      by_cases htu : t = u
      · subst htu
        simp only [Function.update_self]
        exact ⟨hnode id ha, rfl⟩
      · simp only [Function.update_of_ne htu]
        exact hkept
  | _ => exact hkept

theorem Represents.run (h : m.Represents env) (steps : List Step) : ∃ env', (m.run steps).Represents env' := by
  induction steps generalizing m env with
  | nil => exact ⟨env, h⟩
  | cons s steps ih => exact ih (h.step s).1

/-- What is seen of a script is what it means without its releases. -/
theorem Represents.views_eq (h : m.Represents env) (steps : List Step) :
    m.views steps = Step.meanings env (Step.withoutReleases steps) := by
  induction steps generalizing m env with
  | nil => rfl
  | cons s steps ih =>
    obtain ⟨hstep, hview⟩ := h.step s
    rw [views, ih hstep, hview, Step.withoutReleases_cons]
    cases hs : s.request.isRelease with
    | false => rfl
    | true =>
      -- a release shows that it is done, and no register changes
      have hassign : s.assign env (s.request.meaning env) = env := by
        cases hr : s.request with
        | release id => rfl
        | _ => simp [hr, Request.isRelease] at hs
      rw [hassign]
      rfl

/-- A run in which a calculation is not released keeps the number that it remembers. -/
theorem Represents.run_leads (h : m.Represents env) (steps : List Step) :
    m.store.Leads (m.run steps).store fun j => (∃ n, m.store.operand j = .number n) ∨ ¬ m.Spares j steps := by
  induction steps generalizing m env with
  | nil => exact (Store.Grows.refl m.store).leads h.coherent
  | cons s steps ih =>
    have hstep : m.store.Leads (m.step s).store _ := (Store.perform_leads h.coherent h.holds s.request).1
    refine (hstep.imp fun j _ hj => ?_).trans (ih (h.step s).1) fun j hj hyes => ?_
    · exact hj.imp_right fun hreleases hspares => hspares.1 hreleases
    · rw [hstep.operand_eq j hj] at hyes
      exact hyes.imp_right fun hno hspares => hno hspares.2

section
variable {left right : Operand} {op : Operation} {i : NodeId} {s : Step} {steps : List Step}

/-- A calculation that answers with a number answers with the same one until it is released. -/
theorem Represents.perform_resolve_run (h : m.Represents env) (hx : m.store.operand id = .calculation left op right)
    (hs : m.requestOf s = .resolve id) (hi : m.answer s = .node i) (hspares : (m.step s).Spares id steps) :
    (((m.step s).run steps).store.perform (.resolve id)).1 = .node i := by
  have hid := Store.lt_size_of_calculation hx
  have hstep := (Store.perform_leads h.coherent h.holds s.request).1
  have hrun := (h.step s).1.run_leads steps
  change m.store.Leads (m.step s).store _ at hstep
  have hid₁ := hid.trans_le hstep.size_le
  have hx₁ := (hstep.operand_eq id hid).trans hx
  obtain ⟨n, hn⟩ : ∃ n, ((m.step s).store.memo id).resolved = some (n, i) := by
    rw [answer, hs] at hi
    rw [Machine.step, hs] at hid₁ ⊢
    exact Store.memo_perform_resolve hx hi hid₁
  have hkept := hrun.kept id hid₁ (by simp [hx₁, hspares]) _ hn
  rw [Store.perform_resolve_of_some ((hrun.operand_eq id hid₁).trans hx₁) hkept]

/-- After a release of it, a calculation answers with a number that was not there before. -/
theorem Represents.perform_resolve_release (h : m.Represents env) (hx : m.store.operand id = .calculation left op right)
    (hs : (m.requestOf s).Releases m.store id) (hi : (((m.step s).run steps).store.perform (.resolve id)).1 = .node i) :
    (m.step s).store.cells.size ≤ i := by
  have hid := Store.lt_size_of_calculation hx
  have hstep := (Store.perform_leads h.coherent h.holds s.request).1
  have hforgets := Store.perform_forgets h.coherent h.holds (by simp [hx]) hid hs
  have hrun := (h.step s).1.run_leads steps
  change m.store.Leads (m.step s).store _ at hstep
  change ((m.step s).store.memo id).resolved = none at hforgets
  have hid₁ := hid.trans_le hstep.size_le
  have hid₂ := hid₁.trans_le hrun.size_le
  have hx₂ := (hrun.operand_eq id hid₁).trans ((hstep.operand_eq id hid).trans hx)
  have hnode : ∀ _ : Nat, ((m.step s).run steps).store.Holds id (.calculation left op right) := fun _ => ⟨hid₂, hx₂⟩
  have hresolve := (Store.perform_leads hrun.coherent hnode (.resolve 0)).1
  obtain ⟨n, hn⟩ := Store.memo_perform_resolve hx₂ hi (hid₂.trans_le hresolve.size_le)
  refine ((hrun.toExtends.trans hresolve.toExtends).renewed id hid₁ n i hn).resolve_left ?_
  rw [hforgets]
  simp

end

/-- After every script, whatever it has released, each memo holds what is computed anew; the answers are those of every
script that differs from it in releases only; and a calculation answers with one and the same number between two
releases of it, and with a new one after a release. -/
theorem run_coherent (script : List Step) :
    let m := start.run script
    (∀ id, m.store.IsFaithful id) ∧
    (∀ script', Step.withoutReleases script' = Step.withoutReleases script → start.views script' = start.views script) ∧
    ∀ (id i : NodeId) (s : Step) (steps : List Step),
      (∃ left op right, m.store.operand id = .calculation left op right) →
        (m.requestOf s = .resolve id → m.answer s = .node i → (m.step s).Spares id steps →
          (((m.step s).run steps).store.perform (.resolve id)).1 = .node i) ∧
        ((m.requestOf s).Releases m.store id →
          (((m.step s).run steps).store.perform (.resolve id)).1 = .node i → (m.step s).store.cells.size ≤ i) := by
  intro m
  obtain ⟨env, hm⟩ := start_represents.run script
  refine ⟨fun id => hm.coherent.isFaithful id, fun script' h => ?_, ?_⟩
  · rw [start_represents.views_eq, start_represents.views_eq, h]
  · rintro id i s steps ⟨left, op, right, hx⟩
    exact ⟨hm.perform_resolve_run hx, hm.perform_resolve_release hx⟩

def sumScript : List Step := [⟨.one, some 0⟩, ⟨.calculation 0 .plus 0, some 1⟩, ⟨.resolve 1, some 2⟩]

/-- The sum keeps its number over a release of the one, and has a new one after a release of its own. -/
theorem run_coherent_sum :
    (start.run sumScript).store.IsFaithful 2 ∧
      start.views (⟨.release 1, none⟩ :: sumScript) = start.views sumScript ∧
      (start.run sumScript).answer ⟨.resolve 1, none⟩ = .node 5 ∧
      ((start.run (sumScript ++ [⟨.resolve 1, none⟩, ⟨.release 0, none⟩])).store.perform (.resolve 2)).1 = .node 5 ∧
      ((start.run (sumScript ++ [⟨.release 1, none⟩, ⟨.decimal 1, none⟩])).store.perform (.resolve 2)).1 = .node 8 ∧
      (start.run (sumScript ++ [⟨.release 1, none⟩])).store.cells.size ≤ 8 := by
  obtain ⟨hfaithful, hviews, hresolve⟩ := run_coherent sumScript
  have hx : ∃ left op right, (start.run sumScript).store.operand 2 = .calculation left op right := ⟨_, _, _, rfl⟩
  have hspares : ((start.run sumScript).step ⟨.resolve 1, none⟩).Spares 2 [⟨.release 0, none⟩] :=
    ⟨by rintro ⟨⟩, trivial⟩
  have hkept := (hresolve 2 5 ⟨.resolve 1, none⟩ [⟨.release 0, none⟩] hx).1 rfl rfl hspares
  have hnew := (hresolve 2 8 ⟨.release 1, none⟩ [⟨.decimal 1, none⟩] hx).2 rfl rfl
  exact ⟨hfaithful 2, hviews _ rfl, rfl, hkept, rfl, hnew⟩

end Machine

end ExactCalc
