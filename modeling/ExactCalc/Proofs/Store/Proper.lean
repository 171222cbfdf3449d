import Mathlib
import ExactCalc.Proofs.Entry
import ExactCalc.Proofs.Store.Session

/-!
# Sessions on proper operands

Every operand that a request gives for proper operands is proper (`Request.isProper_of_meaning`), and a session starts
with zero in every register. So every operand that a register holds after a script is proper (`Machine.run_isProper`).
-/

namespace ExactCalc

/-! ## Requests -/

namespace Operand

variable {x z : Operand}

theorem isProper_leftSide (hx : x.IsProper) : x.leftSide.IsProper := by
  cases x with
  | number n => exact Number.isProper_zero
  | calculation left op right => exact hx.1
  | phrase p =>
    cases p with
    | written s => exact Number.isProper_zero
    | extended q op y => exact hx.1

theorem isProper_rightSide (hx : x.IsProper) : x.rightSide.IsProper := by
  cases x with
  | number n => exact Number.isProper_zero
  | calculation left op right => exact hx.2
  | phrase p =>
    cases p with
    | written s => exact Number.isProper_zero
    | extended q op y => exact hx.2

theorem isProper_of_applyTo {op : Operation} {r : Result Operand} (hx : x.IsProper)
    (hr : ∀ y, r = .ok y → y.IsProper) (h : x.applyTo op r = .ok z) : z.IsProper := by
  cases hy : r with
  | error e =>
    -- only a sum of zero could do without the other operand, and it is the other operand
    rw [hy] at h
    cases x with
    | phrase p => cases h
    | number n | calculation left o right =>
      simp only [applyTo] at h
      split_ifs at h
      · obtain ⟨zero, -, h⟩ := exists_of_bind_ok h
        split_ifs at h
        cases h
      · cases h
  | ok y =>
    rw [hy, applyTo_ok] at h
    exact isProper_of_apply hx (hr y hy) h

theorem isProper_of_extremumOf {worse : Ordering} {ys : List (Result Operand)} (hx : x.IsProper)
    (hys : ∀ r ∈ ys, ∀ y, r = .ok y → y.IsProper) (h : x.extremumOf worse ys = .ok z) : z.IsProper := by
  induction ys generalizing x with
  | nil =>
    obtain rfl := Except.ok.inj h
    exact hx
  | cons r ys ih =>
    have hrest : ∀ r ∈ ys, ∀ y, r = .ok y → y.IsProper := fun r hr => hys r (List.mem_cons_of_mem _ hr)
    obtain ⟨y, hy, h⟩ := exists_of_bind_ok h
    obtain ⟨o, -, h⟩ := exists_of_bind_ok h
    split_ifs at h
    · exact ih (hys r List.mem_cons_self y hy) hrest h
    · exact ih hx hrest h

end Operand

section
variable {env : NodeId → Operand} {x : Operand}

theorem View.exists_of_ofResult {α : Type} {view : α → View} {r : Result α} (h : ofResult view r = .node x) :
    ∃ a, r = .ok a ∧ view a = .node x := by
  cases r with
  | error e => cases h
  | ok a => exact ⟨a, rfl, h⟩

theorem Argument.isProper_of_made (henv : ∀ i, (env i).IsProper) (z : Argument) (h : z.made env = .ok x) :
    x.IsProper := by
  cases z with
  | node id =>
    obtain rfl := Except.ok.inj h
    exact henv id
  | input i =>
    obtain ⟨n, hn, rfl⟩ := exists_of_map_ok h
    exact Number.isProper_of_create hn

theorem Argument.isProper_of_mem_made (henv : ∀ i, (env i).IsProper) (zs : List Argument) :
    ∀ r ∈ zs.map (·.made env), ∀ y, r = .ok y → y.IsProper := by
  rintro r hr y rfl
  obtain ⟨z, -, hz⟩ := List.mem_map.mp hr
  exact z.isProper_of_made henv hz

theorem Request.isProper_of_meaning (henv : ∀ i, (env i).IsProper) {r : Request} (h : r.meaning env = .node x) :
    x.IsProper := by
  cases r with
  | create i =>
    obtain ⟨y, hy, ⟨⟩⟩ := View.exists_of_ofResult h
    obtain ⟨n, hn, rfl⟩ := exists_of_map_ok hy
    exact Number.isProper_of_create hn
  | zero =>
    obtain rfl := View.node.inj h
    exact Number.isProper_zero
  | one =>
    obtain rfl := View.node.inj h
    exact Number.isProper_one
  | phrase s =>
    obtain rfl := View.node.inj h
    trivial
  | calculation l op k =>
    obtain rfl := View.node.inj h
    exact ⟨henv l, henv k⟩
  | readText s =>
    obtain ⟨e, he, ⟨⟩⟩ := View.exists_of_ofResult h
    exact Expr.isProper_of_ofText he
  | readJson s =>
    obtain ⟨y, hy, ⟨⟩⟩ := View.exists_of_ofResult h
    exact Operand.isProper_of_ofJson hy
  | enter s =>
    simp only [meaning] at h
    split at h
    · rename_i y hy
      obtain rfl := View.node.inj h
      exact (Entry.read_spec hy).1
    · cases h
  | rebuild id =>
    obtain ⟨y, hy, ⟨⟩⟩ := View.exists_of_ofResult h
    obtain ⟨d, -, hd⟩ := exists_of_bind_ok hy
    exact Operand.isProper_of_ofDocument hd
  | reuse z =>
    obtain ⟨y, hy, ⟨⟩⟩ := View.exists_of_ofResult h
    exact z.isProper_of_made henv hy
  | left id =>
    obtain rfl := View.node.inj h
    exact Operand.isProper_leftSide (henv id)
  | right id =>
    obtain rfl := View.node.inj h
    exact Operand.isProper_rightSide (henv id)
  | resolve id =>
    obtain ⟨n, hn, ⟨⟩⟩ := View.exists_of_ofResult h
    exact Operand.isProper_of_resolve (henv id) hn
  | parsed id =>
    obtain ⟨y, hy, ⟨⟩⟩ := View.exists_of_ofResult h
    exact Operand.isProper_of_opened (henv id) hy
  | abs id =>
    obtain ⟨y, hy, ⟨⟩⟩ := View.exists_of_ofResult h
    exact Operand.isProper_of_abs (henv id) hy
  | max id zs | min id zs =>
    obtain ⟨y, hy, ⟨⟩⟩ := View.exists_of_ofResult h
    obtain ⟨w, hw, hextremum⟩ := exists_of_bind_ok hy
    exact Operand.isProper_of_extremumOf (Operand.isProper_of_opened (henv id) hw)
      (Argument.isProper_of_mem_made henv zs) hextremum
  | apply id op z =>
    obtain ⟨y, hy, ⟨⟩⟩ := View.exists_of_ofResult h
    exact Operand.isProper_of_applyTo (henv id) (fun w => z.isProper_of_made henv) hy
  | applyAndRelease id op z =>
    obtain ⟨y, hy, ⟨⟩⟩ := View.exists_of_ofResult h
    obtain ⟨w, hw, happly⟩ := exists_of_bind_ok hy
    exact Operand.isProper_of_applyTo (Operand.isProper_of_opened (henv id) hw)
      (fun w => z.isProper_of_made henv) happly
  | shortCircuit l op k =>
    obtain ⟨side, -, hside⟩ := View.exists_of_ofResult h
    cases side with
    | none => cases hside
    | some side =>
      cases side with
      | left =>
        obtain rfl := View.node.inj hside
        exact henv l
      | right =>
        obtain rfl := View.node.inj hside
        exact henv k
  | reduce l op k =>
    obtain ⟨y, hy, ⟨⟩⟩ := View.exists_of_ofResult h
    exact Operand.isProper_of_reduce (henv l) (henv k) hy
  | text id | inspect id | isValid id | release id => cases h
  | tokens id =>
    simp only [meaning] at h
    split at h <;> cases h
  | _ =>
    -- what is asked for is a value, not an operand
    obtain ⟨a, -, ha⟩ := View.exists_of_ofResult h
    cases ha

end

/-! ## Scripts -/

namespace Machine

variable {m : Machine} {env : Nat → Operand}

theorem isProper_assign (henv : ∀ t, (env t).IsProper) (s : Step) (t : Nat) :
    (s.assign env (s.request.meaning env) t).IsProper := by
  cases hview : s.request.meaning env with
  | plain a => exact henv t
  | node x =>
    cases htarget : s.target with
    | none =>
      simp only [Step.assign, htarget]
      exact henv t
    | some u =>
      simp only [Step.assign, htarget]
      by_cases htu : t = u
      · rw [htu, Function.update_self]
        exact Request.isProper_of_meaning henv hview
      · rw [Function.update_of_ne htu]
        exact henv t

theorem Represents.run_isProper (h : m.Represents env) (henv : ∀ t, (env t).IsProper) (steps : List Step) :
    ∃ env', (m.run steps).Represents env' ∧ ∀ t, (env' t).IsProper := by
  induction steps generalizing m env with
  | nil => exact ⟨env, h, henv⟩
  | cons s steps ih => exact ih (h.step s).1 (isProper_assign henv s)

theorem run_isProper (script : List Step) (t : Nat) :
    ((start.run script).store.operand ((start.run script).register t)).IsProper := by
  have hzero : Operand.IsProper (.number .zero) := Number.isProper_zero
  obtain ⟨env, hrun, henv⟩ := start_represents.run_isProper (fun _ => hzero) script
  rw [(hrun.holds t).2]
  exact henv t

end Machine

end ExactCalc
