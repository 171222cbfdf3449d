import Mathlib
import ExactCalc.Expr.Reduction

/-!
# Reading keeps the numbers and operations in order

Without its parentheses, a list of tokens that is read as an expression is the in-order traversal of that
expression: `ofTokens_inorder`. The list need not come from the scanner.

The argument is an invariant over the run. The frames from the outermost to the innermost, then the left
operand and then the operation that waits, spell what has been read so far (`Reduction.items`); a number
or an operation is added at the end, and a parenthesis only moves things between the stack and the left
operand. That nothing is forgotten needs that the left operand is missing exactly where a left operand is
expected (`Reduction.Coherent`).
-/

namespace ExactCalc

/-! ## Traversal -/

/-- A number or an operation of an expression. -/
inductive Item
  | number (n : Number)
  | operation (op : Operation)
  deriving DecidableEq

def Item.kind : Item → TokenKind
  | number _ => .numeric
  | operation _ => .operation

/-- The numbers and operations of an expression, from left to right. -/
def Expr.inorder : Expr → List Item
  | number n => [.number n]
  | binary left op right => left.inorder ++ .operation op :: right.inorder

/-- A number, and then any number of times an operation and a number. -/
inductive Alternating : List TokenKind → Prop
  | one : Alternating [.numeric]
  | cons {ks : List TokenKind} : Alternating ks → Alternating (.numeric :: .operation :: ks)

theorem Alternating.append {ks ls : List TokenKind} (hks : Alternating ks) (hls : Alternating ls) :
    Alternating (ks ++ .operation :: ls) := by
  induction hks with
  | one => exact .cons hls
  | cons _ ih => exact .cons ih

theorem Expr.alternating_inorder (e : Expr) : Alternating (e.inorder.map Item.kind) := by
  induction e with
  | number n => exact .one
  | binary left op right ihl ihr =>
    simp only [inorder, List.map_append, List.map_cons]
    exact ihl.append ihr

/-! ## Tokens -/

namespace Token

/-- What a token stands for: the number of its text without white space, or the operation of its sign. -/
inductive Denotes (t : Token) : Item → Prop
  | number {n : Number} : t.kind = .numeric →
      Number.ofText (String.ofList (Text.dropBlanks t.text.toList)) = .ok n → Denotes t (.number n)
  | operation {op : Operation} : t.kind = .operation → Operation.ofSymbol t.text = .ok op →
      Denotes t (.operation op)

theorem Denotes.kind_eq {t : Token} {i : Item} (h : t.Denotes i) : i.kind = t.kind := by
  cases h with
  | number hk _ => exact hk.symm
  | operation hk _ => exact hk.symm

theorem map_kind_of_denotes {ts : List Token} {is : List Item} (h : List.Forall₂ Denotes ts is) :
    ts.map Token.kind = is.map Item.kind := by
  induction h with
  | nil => rfl
  | cons hd _ ih => simp [hd.kind_eq, ih]

end Token

/-! ## One token -/

def Frame.items : Frame → List Item
  | group => []
  | pending left op => left.inorder ++ [.operation op]

namespace Reduction

def items (s : Reduction) : List Item :=
  s.stack.reverse.flatMap Frame.items ++ s.left.elim [] Expr.inorder ++
    s.operation.elim [] fun op => [.operation op]

/-- A left operand is there exactly where a right operand is expected, and no operation waits without one. -/
structure Coherent (s : Reduction) : Prop where
  right_eq : s.right = none
  mode_eq : s.mode = .right ↔ s.left.isSome
  left_isSome : s.operation.isSome → s.left.isSome

theorem coherent_init : Coherent {} := ⟨rfl, by simp, by simp⟩

theorem Coherent.left_eq_none {s : Reduction} (hs : s.Coherent) (hm : s.mode = .left) : s.left = none := by
  have h := hs.mode_eq
  rw [hm] at h
  simpa using h

theorem Coherent.operation_eq_none {s : Reduction} (hs : s.Coherent) (hm : s.mode = .left) :
    s.operation = none := by
  have h := hs.left_isSome
  rw [hs.left_eq_none hm] at h
  simpa using h

theorem Coherent.exists_left {s : Reduction} (hs : s.Coherent) (hm : s.mode = .right) :
    ∃ e, s.left = some e :=
  Option.isSome_iff_exists.mp (hs.mode_eq.mp hm)

@[simp] theorem fail_ne_ok {α : Type} (s : Reduction) (source : String) (fault : ParseFault)
    (t : Option Token) (a : α) : s.fail source fault t ≠ .ok a := by
  simp [fail]

/-- An opening parenthesis opens a group, or interrupts an operation that waits for its right operand. -/
theorem openGroup_cases {s s' : Reduction} {source : String} {t : Token} (hs : s.Coherent)
    (h : s.openGroup source t = .ok s') :
    (s.mode = .left ∧ s' = { s with stack := .group :: s.stack }) ∨
      ∃ left op, s.left = some left ∧ s.operation = some op ∧
        s' = { stack := .pending left op :: s.stack } := by
  unfold openGroup at h
  cases hm : s.mode with
  | left =>
    rw [hm] at h
    exact .inl ⟨rfl, (Except.ok.inj h).symm⟩
  | right =>
    obtain ⟨left, hl⟩ := hs.exists_left hm
    simp only [hm, hl] at h
    cases ho : s.operation with
    | none => simp [ho] at h
    | some op =>
      rw [ho] at h
      exact .inr ⟨left, op, hl, rfl, (Except.ok.inj h).symm⟩

/-- A number starts an expression, or completes an operation and with it at most one that was interrupted. -/
theorem readNumber_cases {s s' : Reduction} {source : String} {t : Token}
    (h : s.readNumber source t = .ok s') :
    ∃ n, Number.ofText (String.ofList (Text.dropBlanks t.text.toList)) = .ok n ∧
      ((s.mode = .left ∧ s' = { s with left := some (.number n), mode := .right }) ∨
        ∃ left op, s.mode = .right ∧ s.left = some left ∧ s.operation = some op ∧
          s' = { s with
            stack := (fold s.stack (.binary left op (.number n))).1
            left := some (fold s.stack (.binary left op (.number n))).2
            right := none
            operation := none }) := by
  unfold readNumber at h
  cases hn : Number.ofText (String.ofList (Text.dropBlanks t.text.toList)) with
  | error e => simp [hn, bind, Except.bind] at h
  | ok n =>
    refine ⟨n, rfl, ?_⟩
    simp only [hn, bind, Except.bind] at h
    cases hm : s.mode with
    | left =>
      rw [hm] at h
      exact .inl ⟨rfl, (Except.ok.inj h).symm⟩
    | right =>
      rw [hm] at h
      cases ho : s.operation with
      | none => simp [ho] at h
      | some op =>
        cases hl : s.left with
        | none => simp [ho, hl] at h
        | some left =>
          rw [ho, hl] at h
          exact .inr ⟨left, op, rfl, rfl, rfl, (Except.ok.inj h).symm⟩

theorem readOperation_cases {s s' : Reduction} {source : String} {t : Token}
    (h : s.readOperation source t = .ok s') :
    ∃ left op, s.left = some left ∧ s.operation = none ∧ Operation.ofSymbol t.text = .ok op ∧
      s' = { s with operation := some op } := by
  unfold readOperation at h
  split_ifs at h with hl ho
  · simp at h
  · simp at h
  · cases hop : Operation.ofSymbol t.text with
    | error e => simp [hop] at h
    | ok op =>
      rw [hop] at h
      obtain ⟨left, hleft⟩ : ∃ left, s.left = some left :=
        Option.ne_none_iff_exists'.mp fun hn => hl (by simp [hn])
      exact ⟨left, op, hleft, by simpa using ho, rfl, (Except.ok.inj h).symm⟩

/-- A closing parenthesis closes a group, completes an operation that was interrupted, or closes nothing. -/
theorem closeGroup_cases {s s' : Reduction} {source : String} {t : Token} {isLast : Bool}
    (h : s.closeGroup source t isLast = .ok s') :
    (∃ rest, s.stack = .group :: rest ∧ s' = { s with stack := rest }) ∨
      (∃ rest left op inner, s.stack = .pending left op :: rest ∧ s.left = some inner ∧
        s.operation = none ∧
        s' = { s with stack := rest, left := some (.binary left op inner), mode := .right }) ∨
      (s.stack = [] ∧ s' = s) := by
  unfold closeGroup at h
  cases hk : s.stack with
  | nil =>
    simp only [hk] at h
    split_ifs at h
    · simp at h
    · exact .inr (.inr ⟨rfl, (Except.ok.inj h).symm⟩)
  | cons frame rest =>
    cases frame with
    | group =>
      simp only [hk] at h
      split_ifs at h
      · exact .inl ⟨rest, rfl, (Except.ok.inj h).symm⟩
      · simp at h
    | pending left op =>
      simp only [hk] at h
      cases hl : s.left with
      | none => simp [hl] at h
      | some inner =>
        simp only [hl] at h
        split_ifs at h with hc
        · have ho : s.operation = none := by
            simp only [Bool.and_eq_true, Option.isNone_iff_eq_none] at hc
            exact hc.1.1
          exact .inr (.inl ⟨rest, left, op, inner, rfl, rfl, ho, (Except.ok.inj h).symm⟩)
        · simp at h

theorem fold_items (stack : List Frame) (e : Expr) :
    (fold stack e).1.reverse.flatMap Frame.items ++ (fold stack e).2.inorder =
      stack.reverse.flatMap Frame.items ++ e.inorder := by
  unfold fold
  split
  · simp [Frame.items, Expr.inorder]
  · rfl

/-- A token that is read is a parenthesis, which changes nothing, or is added to what has been read. -/
theorem step_items {s s' : Reduction} {source : String} {t : Token} {isLast : Bool} (hs : s.Coherent)
    (h : s.step source t isLast = .ok s') :
    s'.Coherent ∧ (t.isParenthesis = true ∧ s'.items = s.items ∨
      t.isParenthesis = false ∧ ∃ i, t.Denotes i ∧ s'.items = s.items ++ [i]) := by
  unfold step at h
  cases hk : t.kind with
  | opening =>
    rw [hk] at h
    have hp : t.isParenthesis = true := by simp [Token.isParenthesis, hk]
    obtain ⟨hm, rfl⟩ | ⟨left, op, hl, ho, rfl⟩ := openGroup_cases hs h
    · exact ⟨⟨hs.right_eq, hs.mode_eq, hs.left_isSome⟩, .inl ⟨hp, by simp [items, Frame.items]⟩⟩
    · exact ⟨⟨rfl, by simp, by simp⟩, .inl ⟨hp, by simp [items, Frame.items, hl, ho]⟩⟩
  | closing =>
    rw [hk] at h
    have hp : t.isParenthesis = true := by simp [Token.isParenthesis, hk]
    obtain ⟨rest, hst, rfl⟩ | ⟨rest, left, op, inner, hst, hl, ho, rfl⟩ | ⟨hst, rfl⟩ := closeGroup_cases h
    · exact ⟨⟨hs.right_eq, hs.mode_eq, hs.left_isSome⟩, .inl ⟨hp, by simp [items, Frame.items, hst]⟩⟩
    · exact ⟨⟨hs.right_eq, by simp, by simp⟩,
        .inl ⟨hp, by simp [items, Frame.items, Expr.inorder, hst, hl, ho]⟩⟩
    · exact ⟨hs, .inl ⟨hp, rfl⟩⟩
  | numeric =>
    rw [hk] at h
    have hp : t.isParenthesis = false := by simp [Token.isParenthesis, hk]
    obtain ⟨n, hn, ⟨hm, rfl⟩ | ⟨left, op, hm, hl, ho, rfl⟩⟩ := readNumber_cases h
    · refine ⟨⟨hs.right_eq, by simp, by simp⟩, .inr ⟨hp, .number n, .number hk hn, ?_⟩⟩
      simp [items, Expr.inorder, hs.left_eq_none hm, hs.operation_eq_none hm]
    · refine ⟨⟨rfl, by simp [hm], by simp⟩, .inr ⟨hp, .number n, .number hk hn, ?_⟩⟩
      simp [items, hl, ho, fold_items, Expr.inorder]
  | operation =>
    rw [hk] at h
    have hp : t.isParenthesis = false := by simp [Token.isParenthesis, hk]
    obtain ⟨left, op, hl, ho, hop, rfl⟩ := readOperation_cases h
    refine ⟨⟨hs.right_eq, hs.mode_eq, by simp [hl]⟩, .inr ⟨hp, .operation op, .operation hk hop, ?_⟩⟩
    simp [items, hl, ho]
  | blank => simp [hk] at h

/-! ## All tokens -/

/-- The tokens of a run, without parentheses, are added to what had been read before it. -/
theorem run_items {source : String} {ts : List Token} {s s' : Reduction} (hs : s.Coherent)
    (h : s.run source ts = .ok s') :
    ∃ is, List.Forall₂ Token.Denotes (ts.filter fun t => !t.isParenthesis) is ∧
      s'.items = s.items ++ is := by
  induction ts generalizing s with
  | nil =>
    cases h
    exact ⟨[], .nil, by simp⟩
  | cons t ts ih =>
    rw [run] at h
    cases hstep : s.step source t ts.isEmpty with
    | error e => simp [hstep, bind, Except.bind] at h
    | ok s₁ =>
      rw [hstep] at h
      obtain ⟨hs₁, hread⟩ := step_items hs hstep
      obtain ⟨is, hall, hitems⟩ := ih hs₁ h
      obtain ⟨hp, hsame⟩ | ⟨hp, i, hi, hadd⟩ := hread
      · exact ⟨is, by simpa [hp] using hall, by rw [hitems, hsame]⟩
      · refine ⟨i :: is, ?_, by simp [hitems, hadd]⟩
        simpa [hp] using List.Forall₂.cons hi hall

end Reduction

/-- The tokens of an expression without parentheses stand, one by one, for its in-order traversal. -/
theorem Expr.ofTokens_inorder {source : String} {ts : List Token} {e : Expr}
    (h : Expr.ofTokens source ts = .ok e) :
    List.Forall₂ Token.Denotes (ts.filter fun t => !t.isParenthesis) e.inorder := by
  unfold ofTokens at h
  cases hrun : ({} : Reduction).run source ts with
  | error x => simp [hrun, bind, Except.bind] at h
  | ok s =>
    obtain ⟨is, hall, hitems⟩ := Reduction.run_items Reduction.coherent_init hrun
    simp only [hrun, bind, Except.bind, Reduction.finish] at h
    split at h
    · rename_i hstack hleft _ hop
      cases h
      have hread : e.inorder = is := by
        simpa [Reduction.items, hstack, hleft, hop] using hitems
      rw [hread]
      exact hall
    · simp at h

theorem Expr.ofTokens_alternating {source : String} {ts : List Token} {e : Expr}
    (h : Expr.ofTokens source ts = .ok e) :
    Alternating ((ts.filter fun t => !t.isParenthesis).map Token.kind) := by
  rw [Token.map_kind_of_denotes (ofTokens_inorder h)]
  exact e.alternating_inorder

end ExactCalc
