import Mathlib
import ExactCalc.Proofs.Store.Release

/-!
# Requests

What a request means for operands, without a store (`Request.meaning`), and that its answer shows this in every coherent
store: no answer depends on what is remembered, up to the identity of the nodes in it. Every request leads to a later
coherent store, in which only the nodes that it releases may have forgotten what they resolve to (`perform_leads`).
-/

namespace ExactCalc

/-! ## Requests for operands -/

/-- What is seen of an answer: of a node its operand. -/
inductive View
  | node (x : Operand)
  | plain (a : Answer)

namespace View

def ofResult {α : Type} (view : α → View) : Result α → View
  | .ok a => view a
  | .error e => plain (.failed e)

end View

def Answer.view (st : Store) : Answer → View
  | node id => .node (st.operand id)
  | a => .plain a

def Argument.made (env : NodeId → Operand) : Argument → Result Operand
  | node id => .ok (env id)
  | input i => (Number.create i).map .number

/-- What a request shows for operands, without a store. -/
def Request.meaning (env : NodeId → Operand) : Request → View
  | create i => .ofResult .node ((Number.create i).map .number)
  | zero => .node (.number .zero)
  | one => .node (.number .one)
  | phrase s => .node (.phrase (.written s))
  | calculation l op k => .node (.calculation (env l) op (env k))
  | readText s => .ofResult (fun e => .node e.toOperand) (Expr.ofText s)
  | readJson s => .ofResult .node (Operand.ofJson s)
  | enter s =>
    match Entry.read s with
    | .ok x => .node x
    | .error e => .plain (.notValid e)
  | rebuild id => .ofResult .node (do Operand.ofDocument (← (env id).toDocument))
  | reuse x => .ofResult .node (x.made env)
  | left id => .node (env id).leftSide
  | right id => .node (env id).rightSide
  | resolve id => .ofResult (fun n => .node (.number n)) (env id).resolve
  | parsed id => .ofResult .node (env id).opened
  | abs id => .ofResult .node (env id).abs
  | max id xs => .ofResult .node (do (← (env id).opened).extremumOf .lt (xs.map (·.made env)))
  | min id xs => .ofResult .node (do (← (env id).opened).extremumOf .gt (xs.map (·.made env)))
  | apply id op x => .ofResult .node ((env id).applyTo op (x.made env))
  | applyAndRelease id op x => .ofResult .node (do (← (env id).opened).applyTo op (x.made env))
  | shortCircuit l op k =>
    .ofResult (fun | some s => .node (s.pick (env l) (env k)) | none => .plain .none)
      (Operand.shortCircuit (env l) op (env k))
  | reduce l op k => .ofResult .node (Operand.reduce (env l) op (env k))
  | value id => .ofResult (fun s => .plain (.text s)) (env id).valueText
  | amount id => .ofResult (fun s => .plain (.text s)) ((env id).amountText .default)
  | amountWith id policy => .ofResult (fun s => .plain (.text s)) ((env id).amountText policy)
  | exact id => .ofResult (fun v => .plain (.exact v)) (env id).toExact
  | decimal id => .ofResult (fun d => .plain (.decimal d)) (env id).toDecimal
  | rational id => .ofResult (fun r => .plain (.rational r)) (env id).toRational
  | text id => .plain (.text (env id).text)
  | types id => .ofResult (fun s => .plain (.text s)) (env id).typeText
  | json id => .ofResult (fun d => .plain (.text d.text)) (env id).toDocument
  | isZero id => .ofResult (fun b => .plain (.flag b)) (env id).isZero
  | isOne id => .ofResult (fun b => .plain (.flag b)) (env id).isOne
  | shown id => .ofResult (fun s => .plain (.text s)) (env id).shown
  | inspect id => .plain (.text (env id).inspect)
  | compare id x => .ofResult (fun o => .plain (.ordering o)) (do (env id).compare (← x.made env))
  | isLess id x => .ofResult (fun o => .plain (.flag (o == .lt))) (do (env id).compare (← x.made env))
  | isGreater id x => .ofResult (fun o => .plain (.flag (o == .gt))) (do (env id).compare (← x.made env))
  | isValid id => .plain (.flag (Expr.ofText (env id).text).isOk)
  | tokens id =>
    match Token.scan (env id).text with
    | .ok ts => .plain (.tokens ts)
    | .error e => .plain (.notScanned e)
  | release _ => .plain .done

/-! ## Registers -/

def Argument.rename (f : NodeId → NodeId) : Argument → Argument
  | node id => .node (f id)
  | input i => .input i

def Request.rename (f : NodeId → NodeId) : Request → Request
  | calculation l op k => .calculation (f l) op (f k)
  | rebuild id => .rebuild (f id)
  | reuse x => .reuse (x.rename f)
  | left id => .left (f id)
  | right id => .right (f id)
  | resolve id => .resolve (f id)
  | parsed id => .parsed (f id)
  | abs id => .abs (f id)
  | max id xs => .max (f id) (xs.map (·.rename f))
  | min id xs => .min (f id) (xs.map (·.rename f))
  | apply id op x => .apply (f id) op (x.rename f)
  | applyAndRelease id op x => .applyAndRelease (f id) op (x.rename f)
  | shortCircuit l op k => .shortCircuit (f l) op (f k)
  | reduce l op k => .reduce (f l) op (f k)
  | value id => .value (f id)
  | amount id => .amount (f id)
  | amountWith id policy => .amountWith (f id) policy
  | exact id => .exact (f id)
  | decimal id => .decimal (f id)
  | rational id => .rational (f id)
  | text id => .text (f id)
  | types id => .types (f id)
  | json id => .json (f id)
  | isZero id => .isZero (f id)
  | isOne id => .isOne (f id)
  | shown id => .shown (f id)
  | inspect id => .inspect (f id)
  | compare id x => .compare (f id) (x.rename f)
  | isLess id x => .isLess (f id) (x.rename f)
  | isGreater id x => .isGreater (f id) (x.rename f)
  | isValid id => .isValid (f id)
  | tokens id => .tokens (f id)
  | release id => .release (f id)
  | r => r

def Request.isRelease : Request → Bool
  | release _ => true
  | _ => false

/-- The nodes that a request releases: an operation with a release releases its left side, unless that is the result. -/
def Request.Releases (st : Store) (r : Request) (j : NodeId) : Prop :=
  match r with
  | release id => j = id
  | applyAndRelease id _ _ => ∃ k, (st.perform r).1 = .node k ∧ k ≠ j ∧ st.IsLeftOf id j
  | _ => False

/-! ## Answers -/

/-- The answer shows this in the store; its node, if it is one, is there. -/
def Answer.Shows (a : Answer) (st : Store) (v : View) : Prop :=
  a.view st = v ∧ ∀ id, a = .node id → (id : Nat) < st.cells.size

variable {st st' : Store} {id : Nat} {x y : Operand}

theorem Answer.shows_node (h : st.Holds id x) : (Answer.node id).Shows st (.node x) :=
  ⟨congrArg View.node h.2, by rintro _ ⟨⟩; exact h.1⟩

theorem Answer.run_ofAttempt {α : Type} (f : α → Answer) (m : Attempt α) (st : Store) :
    (ofAttempt f m).run st =
      (match (m.run.run st).1 with
        | .ok a => f a
        | .error e => .failed e, (m.run.run st).2) := by
  show (m.run >>= fun r => match r with | .ok a => _ | .error e => _ : Session Answer).run st = _
  rw [StateT.run_bind]
  obtain ⟨r, st'⟩ := m.run.run st
  cases r <;> rfl

theorem Answer.ofAttempt_gives {α β : Type} {m : Attempt α} {r : Result β} {R : Store → α → β → Prop} {f : α → Answer}
    {g : β → View} (hm : m.Refines st r R) (hfg : ∀ st' a b, st.Grows st' → R st' a b → (f a).Shows st' (g b)) :
    (Answer.ofAttempt f m).Gives st fun st' a => a.Shows st' (View.ofResult g r) := by
  refine Session.Gives.bind hm fun res st' hgrows hres => ?_
  cases hres with
  | ok hab => exact .pure (hfg _ _ _ hgrows hab)
  | error e => exact .pure ⟨rfl, by simp⟩

theorem Answer.ofAttempt_node {m : Attempt NodeId} {r : Result Operand}
    (hm : m.Refines st r fun st' i w => st'.Holds i w) :
    (Answer.ofAttempt .node m).Gives st fun st' a => a.Shows st' (View.ofResult .node r) :=
  Answer.ofAttempt_gives hm fun _ _ _ _ => Answer.shows_node

theorem Answer.ofAttempt_plain {α : Type} {m : Attempt α} {r : Result α} {f : α → Answer} (hf : ∀ a id, f a ≠ .node id)
    (hm : m.Refines st r fun _ a b => a = b) :
    (Answer.ofAttempt f m).Gives st fun st' a => a.Shows st' (View.ofResult (fun a => .plain (f a)) r) := by
  refine Answer.ofAttempt_gives hm fun st' a b _ hab => ?_
  subst hab
  refine ⟨?_, fun id h => absurd h (hf a id)⟩
  cases h : f a with
  | node id => exact absurd h (hf a id)
  | _ => rfl

theorem Answer.of_gives {α : Type} {m : Session α} {Q : Store → α → Prop} {f : α → Answer} {v : View}
    (hm : m.Gives st Q) (hf : ∀ st' a, Q st' a → (f a).Shows st' v) :
    Session.Gives (do return f (← m)) st fun st' a => a.Shows st' v :=
  hm.bind fun a st' _ ha => .pure (hf st' a ha)

theorem Answer.of_operand {α : Type} {m : Operand → Session α} {Q : Store → α → Prop} {f : α → Answer} {v : View}
    (hid : st.Holds id x) (hm : (m x).Gives st Q) (hf : ∀ st' a, Q st' a → (f a).Shows st' v) :
    Session.Gives (do return f (← m (← Node.operandOf id))) st fun st' a => a.Shows st' v :=
  Node.bind_operandOf hid (Answer.of_gives hm hf)

/-! ## Requests in a store -/

section
variable {env : NodeId → Operand} {f : NodeId → NodeId}

theorem Argument.means_rename (henv : ∀ i, st.Holds (f i) (env i)) (z : Argument) :
    (z.rename f).Means st (z.made env) := by
  cases z with
  | node id => exact ⟨env id, henv id, rfl⟩
  | input i => rfl

theorem Argument.forall₂_means (henv : ∀ i, st.Holds (f i) (env i)) (zs : List Argument) :
    List.Forall₂ (Argument.Means st) (zs.map (·.rename f)) (zs.map (·.made env)) := by
  rw [List.forall₂_map_left_iff, List.forall₂_map_right_iff, List.forall₂_same]
  exact fun z _ => z.means_rename henv

/-- An entry is read as the operand that it is read as without a store. -/
theorem Session.readEntry_refines (s : String) :
    (readEntry s).Refines st (Entry.readTrimmed s) fun st' i x => st'.Holds i x := by
  rw [readEntry, Entry.readTrimmed]
  split_ifs with hnumeric
  · exact Node.ofArgument_refines (z := .input (.text s)) rfl
  · cases Entry.scientific? s.toList with
    | none =>
      refine Attempt.Refines.ofResult.bind_map fun e _ st' _ he => ?_
      subst he
      exact .lift (newExpr_gives e) fun _ _ _ h => h.1
    | some t =>
      simp only [Entry.Scientific.read]
      cases t.power? with
      | none => exact Session.Gives.pure (.error _)
      | some power =>
        have hmantissa : (do
            let mantissa ← Number.ofText (String.ofList t.mantissa)
            (Operand.number mantissa).apply .times (.number (.decimal power)) : Result Operand) =
            (Number.create (.text (String.ofList t.mantissa))).map Operand.number >>= fun x =>
              x.apply .times (.number (.decimal power)) := by
          rw [Number.create]
          cases Number.ofText (String.ofList t.mantissa) <;> rfl
        simp only [hmantissa]
        refine
          (Node.ofArgument_refines (z := .input (.text (String.ofList t.mantissa))) rfl).bind fun i x st' _ hi => ?_
        rw [← Operand.applyTo_ok]
        exact Node.apply_refines hi .times rfl

/-- The answer to a request that releases nothing. -/
theorem Session.answer_gives (henv : ∀ i, st.Holds (f i) (env i)) (r : Request) (hr : ∀ id, r ≠ .release id)
    (hr' : ∀ id op z, r ≠ .applyAndRelease id op z) :
    (Session.answer (r.rename f)).Gives st fun st' a => a.Shows st' (r.meaning env) := by
  have harg := Argument.means_rename henv
  cases r with
  | create i => exact Answer.ofAttempt_node (Node.ofArgument_refines (z := .input i) rfl)
  | zero => exact fun hst => Session.Gives.pure (Answer.shows_node hst.zero) hst
  | one => exact fun hst => Session.Gives.pure (Answer.shows_node hst.one) hst
  | phrase s =>
    exact Answer.of_gives (Session.newPhrase_gives (.written s) st) fun _ _ => Answer.shows_node
  | calculation l op k =>
    exact Answer.of_gives (Session.newCalculation_gives (henv l) (henv k) op) fun _ _ => Answer.shows_node
  | readText s =>
    refine Answer.ofAttempt_gives (Attempt.Refines.ofResult.bind_ok (S := fun st' i e => st'.Holds i e.toOperand)
      fun e _ st' _ he => ?_) fun _ _ _ _ => Answer.shows_node
    subst he
    exact .lift (Session.newExpr_gives e) fun _ _ _ h => h.1
  | readJson s =>
    refine Answer.ofAttempt_node (Attempt.Refines.ofResult.bind_ok fun x _ st' _ hx => ?_)
    subst hx
    exact .lift (Session.newOperand_gives x st') fun _ _ _ h => h
  | enter s =>
    refine Session.Gives.bind (Session.readEntry_refines (Text.trim s)) fun res st₁ _ hres => ?_
    simp only [Request.meaning, Entry.read]
    generalize Entry.readTrimmed (Text.trim s) = r at hres
    cases hres with
    | ok hab => exact .pure (Answer.shows_node hab)
    | error e => exact .pure ⟨rfl, by simp⟩
  | rebuild id =>
    refine Answer.ofAttempt_node
      ((Node.via_refines (henv id) (Node.document_refines (henv id))).bind fun d _ st₁ _ hd => ?_)
    subst hd
    refine Attempt.Refines.ofResult.bind_ok fun x _ st₂ _ hx => ?_
    subst hx
    exact .lift (Session.newOperand_gives x st₂) fun _ _ _ h => h
  | reuse z => exact Answer.ofAttempt_node (Node.ofArgument_refines (harg z))
  | left id => exact Answer.of_gives (Attempt.sides_gives (henv id)) fun _ _ h => Answer.shows_node h.1
  | right id => exact Answer.of_gives (Attempt.sides_gives (henv id)) fun _ _ h => Answer.shows_node h.2
  | resolve id =>
    exact Answer.ofAttempt_gives (Node.via_refines (henv id) (Node.resolution_refines _ (henv id)))
      fun _ _ _ _ h => Answer.shows_node h.2
  | parsed id => exact Answer.ofAttempt_node (Node.openedId_refines (henv id))
  | abs id => exact Answer.ofAttempt_node (Node.abs_refines (henv id))
  | max id zs => exact Answer.ofAttempt_node (Node.max_refines (henv id) (Argument.forall₂_means henv zs))
  | min id zs => exact Answer.ofAttempt_node (Node.min_refines (henv id) (Argument.forall₂_means henv zs))
  | apply id op z => exact Answer.ofAttempt_node (Node.apply_refines (henv id) op (harg z))
  | applyAndRelease id op z => exact absurd rfl (hr' id op z)
  | shortCircuit l op k =>
    refine Answer.ofAttempt_gives (Node.shortCircuit_refines (henv l) (henv k) op) fun st' i side hgrows hi => ?_
    subst hi
    rcases side with - | (- | -)
    · exact ⟨rfl, by simp⟩
    · exact Answer.shows_node ((henv l).mono hgrows.toExtends)
    · exact Answer.shows_node ((henv k).mono hgrows.toExtends)
  | reduce l op k => exact Answer.ofAttempt_node (Node.reduce_refines (henv l) (henv k) op)
  | value id =>
    exact Answer.ofAttempt_plain (by simp) (Node.via_refines (henv id) (Node.valueText_refines (henv id)))
  | amount id =>
    exact Answer.ofAttempt_plain (by simp) (Node.via_refines (henv id) (Node.amount_refines (henv id)))
  | amountWith id policy =>
    exact Answer.ofAttempt_plain (by simp)
      (Node.via_refines (henv id) (Node.amountWith_refines (henv id) policy))
  | exact id =>
    exact Answer.ofAttempt_plain (by simp) (Node.via_refines (henv id) (Node.exact_refines (henv id)))
  | decimal id =>
    exact Answer.ofAttempt_plain (by simp) (Node.via_refines (henv id) (Node.decimal_refines (henv id)))
  | rational id =>
    exact Answer.ofAttempt_plain (by simp) (Node.via_refines (henv id) (Node.rational_refines (henv id)))
  | text id =>
    exact Answer.of_operand (henv id) (Node.text_gives (henv id)) (by rintro _ _ rfl; exact ⟨rfl, by simp⟩)
  | types id =>
    exact Answer.ofAttempt_plain (by simp) (Node.via_refines (henv id) (Node.typeText_refines (henv id)))
  | json id =>
    exact Answer.ofAttempt_plain (by simp) (Node.via_refines (henv id) (Node.document_refines (henv id)))
  | isZero id => exact Answer.ofAttempt_plain (by simp) (Node.isZero_via (henv id))
  | isOne id => exact Answer.ofAttempt_plain (by simp) (Node.isOne_via (henv id))
  | shown id =>
    exact Answer.ofAttempt_plain (by simp) (Node.via_refines (henv id) (Node.shown_refines (henv id)))
  | inspect id =>
    exact Answer.of_operand (henv id) (Node.inspect_gives _ (henv id)) (by rintro _ _ rfl; exact ⟨rfl, by simp⟩)
  | compare id z => exact Answer.ofAttempt_plain (by simp) (Node.compare_refines (henv id) (harg z))
  | isLess id z => exact Answer.ofAttempt_plain (by simp) (Node.compare_refines (henv id) (harg z))
  | isGreater id z => exact Answer.ofAttempt_plain (by simp) (Node.compare_refines (henv id) (harg z))
  | isValid id =>
    refine (Node.phraseOf_gives (henv id)).bind fun p st₁ hgrows hp => ?_
    exact Answer.of_gives (Node.isValid_gives ((henv id).mono hgrows.toExtends) hp)
      (by rintro _ _ rfl; exact ⟨rfl, by simp⟩)
  | tokens id =>
    refine (Node.phraseOf_gives (henv id)).bind fun p st₁ hgrows hp => ?_
    refine (Node.tokens_gives ((henv id).mono hgrows.toExtends) hp).bind fun ts st₂ _ hts => ?_
    subst hts
    simp only [Request.meaning]
    cases Token.scan (env id).text with
    | ok ts => exact .pure ⟨rfl, by simp⟩
    | error e => exact .pure ⟨rfl, by simp⟩
  | release id => exact absurd rfl (hr id)

theorem Store.perform_applyAndRelease_fst (st : Store) (id : NodeId) (op : Operation) (z : Argument) (k : NodeId) :
    (st.perform (.applyAndRelease id op z)).1 = .node k ↔ ((Node.applyAndRelease id op z).run.run st).1 = .ok k := by
  show ((Answer.ofAttempt .node (Node.applyAndRelease id op z)).run st).1 = _ ↔ _
  rw [Answer.run_ofAttempt]
  cases ((Node.applyAndRelease id op z).run.run st).1 <;> simp

/-- Every request leads to a later coherent store, and its answer shows what the request means. -/
theorem Store.perform_leads (hst : st.Coherent) (henv : ∀ i, st.Holds (f i) (env i)) (r : Request) :
    st.Leads (st.perform (r.rename f)).2 (fun j => (∃ n, st.operand j = .number n) ∨ (r.rename f).Releases st j) ∧
      (st.perform (r.rename f)).1.Shows (st.perform (r.rename f)).2 (r.meaning env) := by
  by_cases hr : ∃ id, r = .release id
  · obtain ⟨id, rfl⟩ := hr
    exact ⟨(Session.release_leads hst (f id)).imp fun j _ hj => .inr hj.1, rfl,
      by simp [perform, Request.rename, Session.answer]⟩
  by_cases hr' : ∃ id op z, r = .applyAndRelease id op z
  · obtain ⟨id, op, z, rfl⟩ := hr'
    obtain ⟨hleads, hmatches⟩ := Node.applyAndRelease_leads hst (henv id) (Argument.means_rename henv z) op
    have hanswer := st.perform_applyAndRelease_fst (f id) op (z.rename f)
    have hrun : st.perform ((Request.applyAndRelease id op z).rename f) = _ := Answer.run_ofAttempt _ _ st
    have hreleases : ∀ j k : Nat, ((Node.applyAndRelease (f id) op (z.rename f)).run.run st).1 = .ok k → k ≠ j →
        st.IsLeftOf (f id) j → ((Request.applyAndRelease id op z).rename f).Releases st j :=
      fun j k hk hne hleft => ⟨k, (hanswer k).mpr hk, hne, hleft⟩
    rw [hrun]
    refine ⟨hleads.imp fun j _ hj => hj.imp_right fun ⟨k, hk, hne, hleft⟩ => hreleases j k hk hne hleft, ?_⟩
    show Answer.Shows _ _ (View.ofResult .node (do (← (env id).opened).applyTo op (z.made env)))
    generalize (do (← (env id).opened).applyTo op (z.made env) : Result Operand) = r at hmatches
    generalize (Node.applyAndRelease (f id) op (z.rename f)).run.run st = out at hmatches
    obtain ⟨res, st'⟩ := out
    cases hmatches with
    | ok hab => exact Answer.shows_node hab
    | error e => exact ⟨rfl, by simp⟩
  · obtain ⟨hgrows, hcoherent, hshows⟩ :=
      Session.answer_gives henv r (fun id h => hr ⟨id, h⟩) (fun id op z h => hr' ⟨id, op, z, h⟩) hst
    exact ⟨hgrows.leads hcoherent, hshows⟩

/-- A node that a request released has forgotten what it resolves to, unless it is a phrase. -/
theorem Store.perform_forgets (hst : st.Coherent) (henv : ∀ i, st.Holds (f i) (env i)) {r : Request} {j : Nat}
    (hj : ∀ p, st.operand j ≠ .phrase p) (hlt : j < st.cells.size) (h : (r.rename f).Releases st j) :
    ((st.perform (r.rename f)).2.memo j).resolved = none := by
  cases r with
  | release id =>
    obtain rfl : j = f id := h
    exact Session.memo_release_self hlt hj
  | applyAndRelease id op z =>
    obtain ⟨k, hk, hne, hleft⟩ := h
    have hrun : st.perform ((Request.applyAndRelease id op z).rename f) = _ := Answer.run_ofAttempt _ _ st
    rw [hrun]
    exact Node.applyAndRelease_forgets hst (henv id) (Argument.means_rename henv z) hj hlt
      ((st.perform_applyAndRelease_fst _ _ _ k).mp hk) hne hleft
  | _ => exact h.elim

end

/-! ## The number of a calculation -/

/-- A calculation answers from its memo, or computes anew. -/
theorem Node.exists_run_resolve (left : Operand) (op : Operation) (right : Operand) (id : NodeId) :
    ∃ compute : Attempt (Number × NodeId), ∀ st : Store,
      let out := (remember id Memo.resolved (fun v m => { m with resolved := some v }) compute).run.run st
      (Node.resolve (.calculation left op right) id).run.run st = (out.1.map fun v => ⟨v.1, v.2⟩, out.2) :=
  ⟨_, fun st => Attempt.run_bind_pure _ (fun v : Number × NodeId => (⟨v.1, v.2⟩ : NumberNode)) st⟩

theorem Store.exists_perform_resolve {left right : Operand} {op : Operation}
    (hx : st.operand id = .calculation left op right) :
    ∃ compute : Attempt (Number × NodeId),
      let out := (remember id Memo.resolved (fun v m => { m with resolved := some v }) compute).run.run st
      st.perform (.resolve id) = (match out.1 with | .ok v => .node v.2 | .error e => .failed e, out.2) := by
  obtain ⟨compute, hcompute⟩ := Node.exists_run_resolve left op right id
  refine ⟨compute, ?_⟩
  have hrun : st.perform (.resolve id) = _ := Answer.run_ofAttempt _ _ st
  have hvia : (Node.via Node.resolve id).run.run st = (Node.resolve (st.operand id) id).run.run st := rfl
  rw [hrun, hvia, hx, hcompute]
  generalize (remember id Memo.resolved _ compute).run.run st = out
  obtain ⟨r, st'⟩ := out
  cases r <;> rfl

theorem Store.perform_resolve_of_some {left right : Operand} {op : Operation} {n : Number} {i : NodeId}
    (hx : st.operand id = .calculation left op right) (h : (st.memo id).resolved = some (n, i)) :
    st.perform (.resolve id) = (.node i, st) := by
  obtain ⟨compute, hperform⟩ := Store.exists_perform_resolve hx
  rw [hperform, Attempt.run_remember_of_some h]

theorem Store.memo_perform_resolve {left right : Operand} {op : Operation} {i : NodeId}
    (hx : st.operand id = .calculation left op right) (h : (st.perform (.resolve id)).1 = .node i)
    (hid : id < (st.perform (.resolve id)).2.cells.size) :
    ∃ n, ((st.perform (.resolve id)).2.memo id).resolved = some (n, i) := by
  obtain ⟨compute, hperform⟩ := Store.exists_perform_resolve hx
  rw [hperform] at h hid ⊢
  generalize hremember : (remember id Memo.resolved _ compute).run.run st = out at h hid ⊢
  obtain ⟨r, st'⟩ := out
  cases r with
  | error e => simp at h
  | ok v =>
    obtain ⟨n, j⟩ := v
    obtain rfl : j = i := by simpa using h
    exact ⟨n, Attempt.memo_remember (fun _ _ => rfl) hremember hid⟩

end ExactCalc
