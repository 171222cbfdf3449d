import Mathlib
import ExactCalc.Proofs.Expr.Inorder

/-!
# What a refusal shows

The state between two tokens is coherent in every reading, whatever the tokens are (`Reached.coherent`): the left
operand is there exactly where a right one is expected, the right one is never kept, and an operation that waits does
so for its right operand. So a step never finds a right operand or an opening parenthesis without a left operand, and
what it shows when it fails is the state before its token. Only the frame that a closing parenthesis has taken is gone
(`Reduction.snapshotAt`).

`Reached` are the states between the tokens. A reading goes on from each of them (`Reached.ofTokens_eq`), and where it
fails it does so in the step from one of them, or at the end in the last one (`exists_of_ofTokens_error`).
-/

namespace ExactCalc

theorem Number.eq_of_ofText_error {s : String} {x : CalcError} (h : ofText s = .error x) : x = .unsupported s := by
  unfold ofText at h
  split_ifs at h
  cases hr : recurringValue? s with
  | some r => simp [hr] at h
  | none =>
    rw [hr] at h
    exact (Except.error.inj h).symm

namespace Reduction

/-! ## States between tokens -/

/-- A state between two tokens, with the tokens that are left to be read. -/
inductive Reached (source : String) (ts : List Token) : Reduction → List Token → Prop
  | start : Reached source ts {} ts
  | step {s s' : Reduction} {t : Token} {rest : List Token} : Reached source ts s (t :: rest) →
      s.step source t rest.isEmpty = .ok s' → Reached source ts s' rest

variable {source : String} {ts rest : List Token} {s : Reduction} {t : Token}

theorem Reached.coherent (h : Reached source ts s rest) : s.Coherent := by
  induction h with
  | start => exact coherent_init
  | step _ hstep ih => exact (step_items ih hstep).1

theorem Reached.ofTokens_eq (h : Reached source ts s rest) :
    Expr.ofTokens source ts = (do (← s.run source rest).finish source) := by
  induction h with
  | start => rfl
  | step _ hstep ih =>
    rw [ih, run, hstep]
    rfl

/-- A reading that fails does so in a step, or at its end. -/
theorem Reached.exists_of_error {x : CalcError} (h : Reached source ts s rest)
    (hx : (do (← s.run source rest).finish source) = .error x) :
    (∃ s' t rest', Reached source ts s' (t :: rest') ∧ s'.step source t rest'.isEmpty = .error x) ∨
      ∃ s', Reached source ts s' [] ∧ s'.finish source = .error x := by
  induction rest generalizing s with
  | nil => exact .inr ⟨s, h, hx⟩
  | cons t rest ih =>
    rw [run] at hx
    cases hstep : s.step source t rest.isEmpty with
    | error y =>
      rw [hstep] at hx
      obtain rfl := Except.error.inj hx
      exact .inl ⟨s, t, rest, h, hstep⟩
    | ok s' =>
      rw [hstep] at hx
      exact ih (h.step hstep) hx

theorem exists_of_ofTokens_error {x : CalcError} (hx : Expr.ofTokens source ts = .error x) :
    (∃ s t rest, Reached source ts s (t :: rest) ∧ s.step source t rest.isEmpty = .error x) ∨
      ∃ s, Reached source ts s [] ∧ s.finish source = .error x :=
  Reached.start.exists_of_error hx

theorem Reached.mem (h : Reached source ts s (t :: rest)) : t ∈ ts := by
  have hsuffix : ∀ {s : Reduction} {us : List Token}, Reached source ts s us → us <:+ ts := by
    intro s us hus
    induction hus with
    | start => exact List.suffix_rfl
    | step _ _ ih => exact (List.suffix_cons _ _).trans ih
  exact (hsuffix h).subset List.mem_cons_self

/-! ## Steps that fail -/

theorem fail_eq_error_iff {α : Type} {fault : ParseFault} {t : Option Token} {x : CalcError} :
    s.fail (α := α) source fault t = .error x ↔ x = .parse ⟨fault, s.snapshot, t, source⟩ := by
  rw [fail, Except.error.injEq, eq_comm]

section
variable {isLast : Bool} {x : CalcError}

theorem openGroup_error (hs : s.Coherent) (h : s.openGroup source t = .error x) :
    x = .parse ⟨.openWithoutOperation, s.snapshot, some t, source⟩ := by
  unfold openGroup at h
  cases hm : s.mode with
  | left => simp [hm] at h
  | right =>
    obtain ⟨left, hl⟩ := hs.exists_left hm
    cases ho : s.operation with
    | some op => simp [hm, hl, ho] at h
    | none =>
      simp only [hm, hl, ho] at h
      exact fail_eq_error_iff.mp h

theorem readNumber_error (hs : s.Coherent) (h : s.readNumber source t = .error x) :
    Number.ofText (String.ofList (Text.dropBlanks t.text.toList)) = .error x ∨
      x = .parse ⟨.rightWithoutOperation, s.snapshot, some t, source⟩ := by
  unfold readNumber at h
  cases hn : Number.ofText (String.ofList (Text.dropBlanks t.text.toList)) with
  | error y =>
    rw [hn] at h
    exact .inl (congrArg _ (Except.error.inj h))
  | ok n =>
    simp only [hn, bind, Except.bind] at h
    cases hm : s.mode with
    | left => simp [hm, pure, Except.pure] at h
    | right =>
      obtain ⟨left, hl⟩ := hs.exists_left hm
      cases ho : s.operation with
      | some op => simp [hm, hl, ho, pure, Except.pure] at h
      | none =>
        simp only [hm, ho] at h
        exact .inr (fail_eq_error_iff.mp h)

/-- An operation is refused before an operand and after an operation, or because it is none. -/
theorem readOperation_error (h : s.readOperation source t = .error x) :
    (∃ e, x = .scan e) ∨ ∃ fault ∈ [ParseFault.operationWithoutLeft, .operationPending],
      x = .parse ⟨fault, s.snapshot, some t, source⟩ := by
  unfold readOperation at h
  split_ifs at h
  · exact .inr ⟨_, by simp, fail_eq_error_iff.mp h⟩
  · exact .inr ⟨_, by simp, fail_eq_error_iff.mp h⟩
  · cases hop : Operation.ofSymbol t.text with
    | ok op => simp [hop] at h
    | error e =>
      rw [hop] at h
      exact .inl ⟨e, (Except.error.inj h).symm⟩

/-- A closing parenthesis that is refused has taken the innermost frame, and nothing else. -/
theorem closeGroup_error (h : s.closeGroup source t isLast = .error x) :
    ∃ fault ∈ [ParseFault.closeIncompleteGroup, .closeIncompleteOperation, .closeIncompleteReading],
      x = .parse ⟨fault, { s.snapshot with depth := s.stack.length - 1 }, some t, source⟩ := by
  unfold closeGroup at h
  cases hstack : s.stack with
  | nil =>
    have hshown : s.snapshot = { s.snapshot with depth := s.stack.length - 1 } := by simp [snapshot, hstack]
    simp only [hstack] at h
    split_ifs at h
    rw [fail_eq_error_iff, hshown, hstack] at h
    exact ⟨_, by simp, h⟩
  | cons frame stack =>
    have hshown : ({ s with stack } : Reduction).snapshot = { s.snapshot with depth := (frame :: stack).length - 1 } :=
      rfl
    rw [← hshown]
    cases frame with
    | group =>
      simp only [hstack] at h
      split_ifs at h
      exact ⟨_, by simp, fail_eq_error_iff.mp h⟩
    | pending left op =>
      simp only [hstack] at h
      refine ⟨.closeIncompleteOperation, by simp, fail_eq_error_iff (α := Reduction).mp ?_⟩
      cases hl : s.left with
      | none => rwa [hl] at h
      | some inner =>
        simp only [hl] at h
        split_ifs at h
        exact h

theorem finish_error (h : s.finish source = .error x) : x = .parse ⟨.unfinished, s.snapshot, none, source⟩ := by
  unfold finish at h
  split at h
  · cases h
  · exact fail_eq_error_iff.mp h

end

/-- The state that is shown when a token fails in it: a closing parenthesis has taken the innermost frame. -/
def snapshotAt (s : Reduction) (t : Token) : Snapshot :=
  { s.snapshot with depth := if t.kind = .closing then s.stack.length - 1 else s.stack.length }

/-- A step refuses its token in a state in which a left operand is where it should be, and shows this state; or it
passes on that the token is no number, or no operation. -/
theorem step_error_cases {isLast : Bool} {x : CalcError} (hs : s.Coherent) (h : s.step source t isLast = .error x) :
    (∃ fault, x = .parse ⟨fault, s.snapshotAt t, some t, source⟩ ∧ fault ≠ .openWithoutLeft ∧
        fault ≠ .rightWithoutLeft) ∨
      (t.kind = .numeric ∧ Number.ofText (String.ofList (Text.dropBlanks t.text.toList)) = .error x) ∨
      ∃ e, x = .scan e := by
  have hshown : t.kind ≠ .closing → s.snapshotAt t = s.snapshot := by
    intro hne
    simp [snapshotAt, hne, snapshot]
  unfold step at h
  cases hk : t.kind with
  | opening =>
    rw [hk] at h
    refine .inl ⟨.openWithoutOperation, ?_, by decide, by decide⟩
    rw [hshown (by simp [hk])]
    exact openGroup_error hs h
  | closing =>
    rw [hk] at h
    have htaken : s.snapshotAt t = { s.snapshot with depth := s.stack.length - 1 } := by rw [snapshotAt, if_pos hk]
    obtain ⟨fault, hfault, rfl⟩ := closeGroup_error h
    rw [htaken]
    refine .inl ⟨fault, rfl, ?_, ?_⟩ <;> (rintro rfl; simp at hfault)
  | numeric =>
    rw [hk] at h
    rw [hshown (by simp [hk])]
    obtain hnumber | rfl := readNumber_error hs h
    · exact .inr (.inl ⟨rfl, hnumber⟩)
    · exact .inl ⟨.rightWithoutOperation, rfl, by decide, by decide⟩
  | operation =>
    rw [hk] at h
    rw [hshown (by simp [hk])]
    obtain hscan | ⟨fault, hfault, rfl⟩ := readOperation_error h
    · exact .inr (.inr hscan)
    · refine .inl ⟨fault, rfl, ?_, ?_⟩ <;> (rintro rfl; simp at hfault)
  | blank =>
    rw [hk] at h
    rw [hshown (by simp [hk])]
    exact .inl ⟨.blankToken, fail_eq_error_iff.mp h, by decide, by decide⟩

/-- Only a coherent state is reached, whatever the tokens are: a right operand is expected exactly where a left one is
there, none is kept, and an operation waits for a right operand only. Where a token fails, or the end, no operand is
missing on the left, and what is shown is the state before it, with its left operand. -/
theorem reached_invariant (source : String) (ts : List Token) :
    (∀ s rest, Reached source ts s rest →
      (s.mode = .right ↔ s.left.isSome = true) ∧ s.right = none ∧ (s.operation.isSome = true → s.mode = .right) ∧
        Expr.ofTokens source ts = (do (← s.run source rest).finish source)) ∧
    (∀ s t rest e, Reached source ts s (t :: rest) → s.step source t rest.isEmpty = .error (.parse e) →
      e = ⟨e.fault, s.snapshotAt t, some t, source⟩ ∧ e.state.left = s.left.map Expr.text ∧
        e.fault ≠ .openWithoutLeft ∧ e.fault ≠ .rightWithoutLeft) ∧
    ∀ e, Expr.ofTokens source ts = .error (.parse e) →
      e.fault ≠ .openWithoutLeft ∧ e.fault ≠ .rightWithoutLeft ∧
        ((∃ s t rest, Reached source ts s (t :: rest) ∧ s.step source t rest.isEmpty = .error (.parse e)) ∨
          ∃ s, Reached source ts s [] ∧ e = ⟨.unfinished, s.snapshot, none, source⟩) := by
  have hstep : ∀ s t rest e, Reached source ts s (t :: rest) → s.step source t rest.isEmpty = .error (.parse e) →
      e = ⟨e.fault, s.snapshotAt t, some t, source⟩ ∧ e.state.left = s.left.map Expr.text ∧
        e.fault ≠ .openWithoutLeft ∧ e.fault ≠ .rightWithoutLeft := by
    intro s t rest e hs he
    obtain ⟨fault, heq, hopen, hright⟩ | ⟨-, hnumber⟩ | ⟨e', he'⟩ := step_error_cases hs.coherent he
    · obtain rfl := CalcError.parse.inj heq
      exact ⟨rfl, rfl, hopen, hright⟩
    · cases Number.eq_of_ofText_error hnumber
    · cases he'
  refine ⟨fun s rest hs => ?_, hstep, fun e he => ?_⟩
  · have hcoherent := hs.coherent
    exact ⟨hcoherent.mode_eq, hcoherent.right_eq, fun ho => hcoherent.mode_eq.mpr (hcoherent.left_isSome ho),
      hs.ofTokens_eq⟩
  · obtain ⟨s, t, rest, hs, hx⟩ | ⟨s, hs, hx⟩ := exists_of_ofTokens_error he
    · obtain ⟨-, -, hopen, hright⟩ := hstep s t rest e hs hx
      exact ⟨hopen, hright, .inl ⟨s, t, rest, hs, hx⟩⟩
    · obtain rfl := CalcError.parse.inj (finish_error hx)
      exact ⟨ParseFault.noConfusion, ParseFault.noConfusion, .inr ⟨s, hs, rfl⟩⟩

/-- A parenthesis is closed before the right operand of the second operation. The frame of the first one is gone, and
the left operand that is shown is that of the state before the parenthesis. -/
theorem reached_invariant_pending :
    let source := "1 + (2 +)"
    let ts : List Token := [⟨.numeric, 0, "1"⟩, ⟨.operation, 2, "+"⟩, ⟨.opening, 4, "("⟩, ⟨.numeric, 5, "2"⟩,
      ⟨.operation, 7, "+"⟩, ⟨.closing, 8, ")"⟩]
    let e : ParseError := ⟨.closeIncompleteOperation, ⟨0, some "2", none, some .plus, .right⟩,
      some ⟨.closing, 8, ")"⟩, source⟩
    Expr.ofTokens source ts = .error (.parse e) ∧
      ∃ s t rest, Reached source ts s (t :: rest) ∧ s.left.map Expr.text = some "2" ∧ s.right = none ∧
        s.mode = .right := by
  intro source ts e
  have he : Expr.ofTokens source ts = .error (.parse e) := by cbv
  obtain ⟨hstates, hsteps, herrors⟩ := reached_invariant source ts
  obtain ⟨-, -, ⟨s, t, rest, hs, hstep⟩ | ⟨s, -, hend⟩⟩ := herrors e he
  · obtain ⟨-, hleft, -, -⟩ := hsteps s t rest e hs hstep
    obtain ⟨hmode, hright, -, -⟩ := hstates s _ hs
    have hsome : s.left.isSome = true := by
      rw [← Option.isSome_map, ← hleft]
      rfl
    exact ⟨he, s, t, rest, hs, hleft.symm, hright, hmode.mpr hsome⟩
  · exact absurd (congrArg ParseError.fault hend) ParseFault.noConfusion

end Reduction

end ExactCalc
