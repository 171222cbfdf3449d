import Mathlib
import ExactCalc.Proofs.Operand.Comparison
import ExactCalc.Proofs.Store.Session

/-!
# Comparison of nodes

In every session nodes whose operands have exact values are ordered as these values are, in whatever forms they
are held. The largest of some nodes is the earliest of those with the largest value, as the very node that it
is: the fold keeps the first of the largest so far (`Node.exists_extremum`), starting from the node that is
asked, or from that of its expression if it is a phrase. For the answers of a session this is
`Machine.comparison_exact`.
-/

namespace ExactCalc

variable {st : Store} {id : NodeId}

/-! ## The node of the extremum -/

/-- The nodes are in the store, and their operands have these exact values. -/
def Store.Weighs (st : Store) (value : NodeId → Rat) (ids : List NodeId) : Prop :=
  ∀ i ∈ ids, ∃ x, st.Holds i x ∧ x.IsReadable ∧ x.worth = value i

theorem Store.Weighs.mono {st' : Store} {value : NodeId → Rat} {ids : List NodeId} (h : st.Weighs value ids)
    (hext : st.Extends st') : st'.Weighs value ids := by
  intro i hi
  obtain ⟨x, hx, hread, hworth⟩ := h i hi
  exact ⟨x, hx.mono hext, hread, hworth⟩

namespace Node

theorem compare_nodes {value : NodeId → Rat} {i j : NodeId} (h : st.Weighs value [i, j]) :
    (compare i (.node j)).Refines st (.ok ()) fun _ o _ => o = cmp (value i) (value j) := by
  obtain ⟨x, hx, hread, hworth⟩ := h i (by simp)
  obtain ⟨y, hy, hread', hworth'⟩ := h j (by simp)
  have hcompare : (do x.compare (← .ok y) : Result Ordering) = .ok (cmp (value i) (value j)) := by
    rw [← hworth, ← hworth']
    exact hread.compare_eq hread'
  exact (compare_refines hx (z := .node j) ⟨y, hy, rfl⟩).of_eq_ok hcompare

/-- What is picked from a list by a choice between its first two elements is found among nodes by the same choice
between their values. -/
theorem exists_extremum {pick : List NodeId → Option NodeId} {value : NodeId → Rat} (worse : Ordering)
    (hone : ∀ i, pick [i] = some i)
    (hstep : ∀ i j is, pick (i :: j :: is) = pick ((if cmp (value i) (value j) = worse then j else i) :: is))
    {best : NodeId} {ids : List NodeId} (h : st.Weighs value (best :: ids)) :
    ∃ k, pick (best :: ids) = some k ∧
      (extremum worse best (ids.map .node)).Refines st (.ok k) fun _ a b => a = b := by
  induction ids generalizing st best with
  | nil => exact ⟨best, hone best, .pure rfl⟩
  | cons j is ih =>
    have hpair : st.Weighs value [best, j] := by
      intro i hi
      rcases List.mem_pair.mp hi with rfl | rfl
      · exact h i List.mem_cons_self
      · exact h i (List.mem_cons_of_mem _ List.mem_cons_self)
    have hrest : st.Weighs value ((if cmp (value best) (value j) = worse then j else best) :: is) := by
      intro i hi
      rcases List.mem_cons.mp hi with rfl | hi
      · split_ifs
        · exact hpair j (by simp)
        · exact hpair best (by simp)
      · exact h i (List.mem_cons_of_mem _ (List.mem_cons_of_mem _ hi))
    obtain ⟨k, hk, -⟩ := ih hrest
    refine ⟨k, (hstep best j is).trans hk, ?_⟩
    -- the store grows in between, and the winner is the same
    refine Attempt.Refines.bind (g := fun _ => .ok k) (compare_nodes hpair) fun o _ st₁ hgrows ho => ?_
    rw [ho]
    obtain ⟨k', hk', hrefines⟩ := ih (hrest.mono hgrows.toExtends)
    obtain rfl : k = k' := Option.some.inj (hk.symm.trans hk')
    by_cases hworse : cmp (value best) (value j) = worse
    · simpa only [if_pos hworse] using hrefines
    · simpa only [if_neg hworse] using hrefines

theorem argmax_step {value : NodeId → Rat} (i j : NodeId) (is : List NodeId) :
    (i :: j :: is).argmax value = ((if cmp (value i) (value j) = .lt then j else i) :: is).argmax value := by
  simp only [List.argmax, List.foldl_cons, List.argAux, cmp_eq_lt_iff]
  split_ifs <;> rfl

theorem argmin_step {value : NodeId → Rat} (i j : NodeId) (is : List NodeId) :
    (i :: j :: is).argmin value = ((if cmp (value i) (value j) = .gt then j else i) :: is).argmin value := by
  simp only [List.argmin, List.foldl_cons, List.argAux, cmp_eq_gt_iff]
  split_ifs <;> rfl

/-! ## Opening -/

/-- A phrase that remembers what it is read as answers with it, and one that answers remembers it. -/
theorem run_parsedWith_of_some {source : Session String} {r : Result (Expr × NodeId)}
    (h : (st.memo id).parsed = some r) : (parsedWith id source).run st = (r, st) :=
  Session.run_remember_of_some h

theorem memo_parsedWith {source : Session String} {r : Result (Expr × NodeId)} {st₁ : Store}
    (hrun : (parsedWith id source).run st = (r, st₁)) (hid : (id : Nat) < st₁.cells.size) :
    (st₁.memo id).parsed = some r :=
  Session.memo_remember (fun _ _ => rfl) hrun hid

theorem run_openedId_of_ne (h : ∀ p, st.operand id ≠ .phrase p) : (openedId id).run.run st = (.ok id, st) := by
  have hrun : (openedId id).run.run st = _ := Attempt.run_bind_pure (via opened id) Prod.snd st
  have hvia : (via opened id).run.run st = (opened (st.operand id) id).run.run st := rfl
  rw [hrun, hvia]
  cases hx : st.operand id with
  | phrase p => exact absurd hx (h p)
  | number n | calculation left op right => rfl

theorem run_openedId_phrase {p : Phrase} (h : st.operand id = .phrase p) :
    (openedId id).run.run st =
      (((parsedWith id (phraseText p id)).run st).1.map Prod.snd, ((parsedWith id (phraseText p id)).run st).2) := by
  have hrun : (openedId id).run.run st = _ := Attempt.run_bind_pure (via opened id) Prod.snd st
  have hvia : (via opened id).run.run st = (opened (st.operand id) id).run.run st := rfl
  have hopened : (opened (.phrase p) id).run.run st = _ :=
    Attempt.run_bind_pure (parsed p id) (fun v => (v.1.toOperand, v.2)) st
  have hparsed : (parsed p id).run.run st = (parsedWith id (phraseText p id)).run st := rfl
  rw [hrun, hvia, h, hopened, hparsed]
  cases ((parsedWith id (phraseText p id)).run st).1 <;> rfl

/-- Once a node has been opened, it opens as the same node, and nothing changes. -/
theorem run_openedId_again {i : NodeId} {st₁ : Store} (hrun : (openedId id).run.run st = (.ok i, st₁))
    (hid : (id : Nat) < st₁.cells.size) (hsame : st₁.operand id = st.operand id) :
    (openedId id).run.run st₁ = (.ok i, st₁) := by
  by_cases hphrase : ∃ p, st.operand id = .phrase p
  · obtain ⟨p, hp⟩ := hphrase
    obtain ⟨r, st₂, hparsed⟩ : ∃ r st₂, (parsedWith id (phraseText p id)).run st = (r, st₂) := ⟨_, _, rfl⟩
    rw [run_openedId_phrase hp, hparsed] at hrun
    obtain ⟨hi, rfl⟩ := Prod.mk.inj hrun
    rw [run_openedId_phrase (hsame.trans hp), run_parsedWith_of_some (memo_parsedWith hparsed hid), hi]
  · have hne : ∀ p, st.operand id ≠ .phrase p := fun p hp => hphrase ⟨p, hp⟩
    rw [run_openedId_of_ne hne] at hrun
    obtain ⟨-, rfl⟩ := Prod.mk.inj hrun
    rw [run_openedId_of_ne hne, hrun]

end Node

theorem Operand.IsReadable.exists_opened {x : Operand} (h : x.IsReadable) :
    ∃ y, x.opened = .ok y ∧ y.IsReadable ∧ y.worth = x.worth := by
  obtain ⟨n, hn, hread⟩ := h
  obtain ⟨y, hy, hyn⟩ := exists_of_bind_ok ((Node.resolve_eq_opened x).symm.trans hn)
  exact ⟨y, hy, ⟨n, hyn, hread⟩, (worth_eq hyn).trans (worth_eq hn).symm⟩

/-- A node of an operand with an exact value opens as a node of one, now and whenever it is opened again. -/
theorem Store.Coherent.exists_opened (hst : st.Coherent) {ids : List NodeId}
    (h : ∀ j ∈ id :: ids, ∃ x, st.Holds j x ∧ x.IsReadable) :
    ∃ i st₁, (Node.openedId id).run.run st = (.ok i, st₁) ∧ (Node.openedId id).run.run st₁ = (.ok i, st₁) ∧
      st.Extends st₁ ∧ st₁.Coherent ∧ st₁.Weighs (fun j => (st₁.operand j).worth) (i :: ids) ∧
      (st₁.operand i).worth = (st.operand id).worth ∧ ((∀ p, st.operand id ≠ .phrase p) → i = id) := by
  obtain ⟨x, hid, hx⟩ := h id List.mem_cons_self
  obtain ⟨y, hy, hread, hworth⟩ := hx.exists_opened
  obtain ⟨hgrows, hcoherent, hmatches⟩ := Node.openedId_refines hid hst
  rw [hy] at hmatches
  obtain ⟨i, hi, hholds⟩ := hmatches.exists_of_ok
  have hrun : (Node.openedId id).run.run st = (.ok i, ((Node.openedId id).run.run st).2) := Prod.ext hi rfl
  have hid₁ := hid.mono hgrows.toExtends
  refine ⟨i, _, hrun, Node.run_openedId_again hrun hid₁.1 (hid₁.2.trans hid.2.symm), hgrows.toExtends, hcoherent,
    ?_, ?_, fun hne => ?_⟩
  · intro j hj
    rcases List.mem_cons.mp hj with rfl | hj
    · exact ⟨y, hholds, hread, congrArg Operand.worth hholds.2.symm⟩
    · obtain ⟨z, hz, hzread⟩ := h j (List.mem_cons_of_mem _ hj)
      have hz₁ := hz.mono hgrows.toExtends
      exact ⟨z, hz₁, hzread, congrArg Operand.worth hz₁.2.symm⟩
  · rw [hholds.2, hid.2, hworth]
  · rw [Node.run_openedId_of_ne hne] at hrun
    exact (Except.ok.inj (Prod.mk.inj hrun).1).symm

/-! ## Sessions -/

namespace Answer

theorem eq_of_view {a b : Answer} (h : a.view st = .plain b) : a = b := by
  cases a with
  | node i => cases h
  | _ => exact View.plain.inj h

theorem run_extremum {worse : Ordering} {i k : NodeId} {st₁ : Store} {zs : List Argument}
    (h : (Node.openedId id).run.run st = (.ok i, st₁)) (hk : ((Node.extremum worse i zs).run.run st₁).1 = .ok k) :
    ((ofAttempt .node (do Node.extremum worse (← Node.openedId id) zs)).run st).1 = .node k := by
  rw [run_ofAttempt, Attempt.run_bind, h]
  simp only [hk]

end Answer

theorem cmp_then_of_ne_gt {u v w : Rat} (huv : cmp u v ≠ .gt) (hvw : cmp v w ≠ .gt) :
    cmp u w = (cmp u v).then (cmp v w) := by
  rw [ne_eq, cmp_eq_gt_iff, not_lt] at huv hvw
  rcases huv.lt_or_eq with hlt | rfl
  · rw [cmp_eq_lt_iff u v |>.mpr hlt, cmp_eq_lt_iff u w |>.mpr (hlt.trans_le hvw)]
    rfl
  · rw [cmp_self_eq_eq]
    rfl

namespace Machine

def operand (m : Machine) (t : Nat) : Operand := m.store.operand (m.register t)

/-- Comparison in the machine is the order of exact values. -/
structure ComparesExactly (m : Machine) : Prop where
  /-- Operands with exact values, and no others, are ordered, as these values are. -/
  compare_iff : ∀ a b o, m.answer ⟨.compare a (.node b), none⟩ = .ordering o ↔
    (m.operand a).IsReadable ∧ (m.operand b).IsReadable ∧ o = cmp (m.operand a).worth (m.operand b).worth
  swap : ∀ a b o, m.answer ⟨.compare a (.node b), none⟩ = .ordering o →
    m.answer ⟨.compare b (.node a), none⟩ = .ordering o.swap
  trans : ∀ a b c o o', m.answer ⟨.compare a (.node b), none⟩ = .ordering o →
    m.answer ⟨.compare b (.node c), none⟩ = .ordering o' → o ≠ .gt → o' ≠ .gt →
    m.answer ⟨.compare a (.node c), none⟩ = .ordering (o.then o')
  /-- The exact value is what the operand is as a rational. -/
  rational : ∀ a, (m.operand a).IsReadable → m.answer ⟨.rational a, none⟩ = .rational (m.operand a).worth
  isZero : ∀ a, (m.operand a).IsReadable →
    m.answer ⟨.isZero a, none⟩ = .flag (decide ((m.operand a).worth = 0)) ∧
      (m.operand a).atSight "0" Operand.isZero = .ok (decide ((m.operand a).worth = 0))
  isOne : ∀ a, (m.operand a).IsReadable →
    m.answer ⟨.isOne a, none⟩ = .flag (decide ((m.operand a).worth = 1)) ∧
      (m.operand a).atSight "1" Operand.isOne = .ok (decide ((m.operand a).worth = 1))
  /-- The largest is the earliest node of those with the largest value, and the smallest that of those with the smallest
  value. The node that is asked takes part as the node that it opens as, whether it has been opened before or not. -/
  extrema : ∀ a vs, (∀ v ∈ a :: vs, (m.operand v).IsReadable) →
    let opened : Step := ⟨.parsed a, none⟩
    let value := fun j => ((m.step opened).store.operand j).worth
    ∃ i k l, m.answer opened = .node i ∧ ((∀ p, m.operand a ≠ .phrase p) → i = m.register a) ∧
      value i = (m.operand a).worth ∧ (∀ v ∈ vs, value (m.register v) = (m.operand v).worth) ∧
      (i :: vs.map m.register).argmax value = some k ∧ (i :: vs.map m.register).argmin value = some l ∧
      ∀ m' ∈ [m, m.step opened], m'.answer ⟨.max a (vs.map .node), none⟩ = .node k ∧
        m'.answer ⟨.min a (vs.map .node), none⟩ = .node l

namespace Represents

variable {m : Machine} {env : Nat → Operand}

theorem answer_of_ok {α : Type} {s : Step} {f : α → Answer} {r : Result α} {a : α} (h : m.Represents env)
    (hs : s.request.meaning env = .ofResult (fun a => .plain (f a)) r) (hr : r = .ok a) : m.answer s = f a := by
  have hview := (h.step s).2
  rw [hs, hr] at hview
  exact Answer.eq_of_view hview

theorem answer_of_error {α : Type} {s : Step} {f : α → Answer} {r : Result α} {e : CalcError} (h : m.Represents env)
    (hs : s.request.meaning env = .ofResult (fun a => .plain (f a)) r) (hr : r = .error e) :
    m.answer s = .failed e := by
  have hview := (h.step s).2
  rw [hs, hr] at hview
  exact Answer.eq_of_view hview

theorem answer_compare_iff (h : m.Represents env) {a b : Nat} {o : Ordering} :
    m.answer ⟨.compare a (.node b), none⟩ = .ordering o ↔
      (env a).IsReadable ∧ (env b).IsReadable ∧ o = cmp (env a).worth (env b).worth := by
  rw [← Operand.compare_eq_ok_iff]
  constructor
  · intro ho
    cases hr : (env a).compare (env b) with
    | ok o' =>
      obtain rfl := Answer.ordering.inj ((h.answer_of_ok rfl hr).symm.trans ho)
      rfl
    | error e => cases (h.answer_of_error (f := .ordering) rfl hr).symm.trans ho
  · exact fun ho => h.answer_of_ok rfl ho

/-- The largest and the smallest are chosen among the nodes after the one that is asked has been opened. -/
theorem exists_extrema (h : m.Represents env) {a : Nat} {vs : List Nat} (hread : ∀ v ∈ a :: vs, (env v).IsReadable) :
    let opened : Step := ⟨.parsed a, none⟩
    let value := fun j => ((m.step opened).store.operand j).worth
    ∃ i k l, m.answer opened = .node i ∧ ((∀ p, env a ≠ .phrase p) → i = m.register a) ∧
      value i = (env a).worth ∧ (∀ v ∈ vs, value (m.register v) = (env v).worth) ∧
      (i :: vs.map m.register).argmax value = some k ∧ (i :: vs.map m.register).argmin value = some l ∧
      ∀ m' ∈ [m, m.step opened], m'.answer ⟨.max a (vs.map .node), none⟩ = .node k ∧
        m'.answer ⟨.min a (vs.map .node), none⟩ = .node l := by
  intro opened value
  have hnodes : ∀ j ∈ m.register a :: vs.map m.register, ∃ x, m.store.Holds j x ∧ x.IsReadable := by
    intro j hj
    obtain ⟨v, hv, rfl⟩ := List.mem_map.mp (List.map_cons ▸ hj)
    exact ⟨env v, h.holds v, hread v hv⟩
  obtain ⟨i, st₁, hrun, hagain, hext, hst₁, hweighs, hworth, hsame⟩ := h.coherent.exists_opened hnodes
  have hperform : m.store.perform (.parsed (m.register a)) = (.node i, st₁) := by
    have hanswer : m.store.perform (.parsed (m.register a)) = _ := Answer.run_ofAttempt _ _ _
    rw [hanswer, hrun]
  have hopened : m.answer opened = .node i := congrArg Prod.fst hperform
  have hstore : (m.step opened).store = st₁ := congrArg Prod.snd hperform
  have hregister : (m.step opened).register = m.register := by
    rw [Machine.step, hopened]
  rw [← hstore] at hweighs
  obtain ⟨k, hk, hmax⟩ := Node.exists_extremum .lt (fun _ => rfl) Node.argmax_step hweighs
  obtain ⟨l, hl, hmin⟩ := Node.exists_extremum .gt (fun _ => rfl) Node.argmin_step hweighs
  rw [hstore] at hmax hmin
  have hrename : (vs.map Argument.node).map (·.rename m.register) = (vs.map m.register).map .node := by
    rw [List.map_map, List.map_map]
    rfl
  have hanswer : ∀ m' : Machine, m'.register = m.register →
      (Node.openedId (m.register a)).run.run m'.store = (.ok i, st₁) →
      m'.answer ⟨.max a (vs.map .node), none⟩ = .node k ∧ m'.answer ⟨.min a (vs.map .node), none⟩ = .node l := by
    intro m' hregister' hrun'
    simp only [Machine.answer, requestOf, Request.rename, hregister', hrename]
    exact ⟨Answer.run_extremum hrun' (hmax.fst_eq hst₁), Answer.run_extremum hrun' (hmin.fst_eq hst₁)⟩
  refine ⟨i, k, l, hopened, fun hne => hsame fun p => (h.holds a).2 ▸ hne p, ?_, fun v _ => ?_, hk, hl,
    fun m' hm' => ?_⟩
  · rw [← (h.holds a).2, ← hworth, ← hstore]
  · rw [← ((h.holds v).mono hext).2, ← hstore]
  obtain rfl | rfl : m' = m ∨ m' = m.step opened := by simpa using hm'
  · exact hanswer m' rfl hrun
  · exact hanswer _ hregister (hstore ▸ hagain)

end Represents

/-- After every script comparison is the order of exact values. -/
theorem comparison_exact (script : List Step) : (start.run script).ComparesExactly := by
  obtain ⟨env, hm⟩ := start_represents.run script
  obtain rfl : (start.run script).operand = env := funext fun t => (hm.holds t).2
  constructor
  case compare_iff => exact fun a b o => hm.answer_compare_iff
  case swap =>
    intro a b o ho
    obtain ⟨ha, hb, rfl⟩ := hm.answer_compare_iff.mp ho
    exact hm.answer_compare_iff.mpr ⟨hb, ha, cmp_swap _ _⟩
  case trans =>
    intro a b c o o' ho ho' hne hne'
    obtain ⟨ha, -, rfl⟩ := hm.answer_compare_iff.mp ho
    obtain ⟨-, hc, rfl⟩ := hm.answer_compare_iff.mp ho'
    exact hm.answer_compare_iff.mpr ⟨ha, hc, (cmp_then_of_ne_gt hne hne').symm⟩
  case rational => exact fun a ha => hm.answer_of_ok rfl ha.toRational_eq
  case isZero => exact fun a ha => ⟨hm.answer_of_ok rfl ha.isZero_eq, by rw [Operand.atSight_isZero, ha.isZero_eq]⟩
  case isOne => exact fun a ha => ⟨hm.answer_of_ok rfl ha.isOne_eq, by rw [Operand.atSight_isOne, ha.isOne_eq]⟩
  case extrema => exact fun a vs hread => hm.exists_extrema hread

def onesScript : List Step := [⟨.one, some 0⟩, ⟨.create (.integer 1), some 1⟩, ⟨.calculation 0 .plus 1, some 2⟩]

/-- Of two ones in different forms the first in line is the smallest, and their sum is the largest. -/
theorem comparison_exact_ones :
    let m := start.run onesScript
    m.answer ⟨.compare 1 (.node 0), none⟩ = .ordering .eq ∧ m.answer ⟨.isOne 1, none⟩ = .flag true ∧
      m.answer ⟨.max 1 [.node 0, .node 2], none⟩ = .node (m.register 2) ∧
      m.answer ⟨.min 1 [.node 0, .node 2], none⟩ = .node (m.register 1) := by
  intro m
  have hcompares : m.ComparesExactly := comparison_exact onesScript
  have hread₀ : (m.operand 0).IsReadable := ⟨.one, rfl, by cbv⟩
  have hread₁ : (m.operand 1).IsReadable := ⟨_, rfl, trivial⟩
  have hread₂ : (m.operand 2).IsReadable := ⟨_, rfl, trivial⟩
  have hone : decide ((m.operand 1).worth = 1) = true := by decide +kernel
  obtain ⟨i, k, l, -, hsame, -, -, hk, hl, hanswers⟩ := hcompares.extrema 1 [0, 2] (by simp [hread₀, hread₁, hread₂])
  obtain rfl : i = m.register 1 := hsame fun p hp => by cases hp
  have hmax : [m.register 1, m.register 0, m.register 2].argmax
      (fun j => ((m.step ⟨.parsed 1, none⟩).store.operand j).worth) = some (m.register 2) := by decide +kernel
  have hmin : [m.register 1, m.register 0, m.register 2].argmin
      (fun j => ((m.step ⟨.parsed 1, none⟩).store.operand j).worth) = some (m.register 1) := by decide +kernel
  obtain rfl := Option.some.inj (hk.symm.trans hmax)
  obtain rfl := Option.some.inj (hl.symm.trans hmin)
  refine ⟨(hcompares.compare_iff 1 0 .eq).mpr ⟨hread₁, hread₀, by decide +kernel⟩, ?_, hanswers m List.mem_cons_self⟩
  rw [← hone]
  exact (hcompares.isOne 1 hread₁).1

def foreignScript : List Step := [⟨.create (.text "٣"), some 0⟩, ⟨.one, some 1⟩]

/-- A number in the digits of another script resolves to itself, and has no order. -/
theorem comparison_exact_ne :
    ¬ ∀ (script : List Step) (a b : Nat) (n k : Number), ((start.run script).operand a).resolve = .ok n →
      ((start.run script).operand b).resolve = .ok k →
      ∃ o, (start.run script).answer ⟨.compare a (.node b), none⟩ = .ordering o := by
  intro h
  have hthree : ((start.run foreignScript).operand 0).resolve = .ok (.amount "٣") := rfl
  obtain ⟨o, ho⟩ := h foreignScript 0 1 (.amount "٣") .one hthree rfl
  obtain ⟨env, hm⟩ := start_represents.run foreignScript
  obtain ⟨n, hn, hread⟩ := (hm.answer_compare_iff.mp ho).1
  rw [← (hm.holds 0).2] at hn
  obtain rfl := Except.ok.inj (hthree.symm.trans hn)
  have hnone : Decimal.ofText? "٣" = none := by cbv
  simp [Number.IsReadable, hnone] at hread

end Machine

end ExactCalc
