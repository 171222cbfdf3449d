import Mathlib
import ExactCalc.Expr.Reduction

/-!
# Written expressions

`Formula` is the syntax of expressions as they are written: literals and groups in parentheses with
operations between them, read from left to right. `Formula.symbols` are its tokens, and a text is a
spelling of it (`Formula.IsWrittenAs`) if it has these tokens in order, with white space anywhere around them.

The operands on the right of an operation are literals and groups only, so the grammar
`E ::= P | E op P`, `P ::= literal | '(' E ')'` has a constructor for each way to go on.
-/

namespace ExactCalc

open Text

/-- An expression as it is written. -/
inductive Formula
  | literal (s : String)
  | group (inner : Formula)
  | thenLiteral (left : Formula) (op : Operation) (s : String)
  | thenGroup (left : Formula) (op : Operation) (inner : Formula)

abbrev Symbol := TokenKind × String

def Token.symbol (t : Token) : Symbol := (t.kind, t.text)

/-- A literal: an ASCII text that is a number and that the scanner reads as one token. -/
structure IsLiteral (s : String) : Prop where
  ascii : ∀ c ∈ s.toList, c.toNat < 128
  number : ∃ n, Number.ofText s = .ok n
  token : ∃ t, Token.scan s = .ok [t]

/-- The words in order, with white space before, between and after them wherever there is any. -/
inductive Spelling : List String → List Char → Prop
  | nil {gap : List Char} : (∀ c ∈ gap, isBlank c = true) → Spelling [] gap
  | cons {gap cs : List Char} {word : String} {words : List String} : (∀ c ∈ gap, isBlank c = true) →
      Spelling words cs → Spelling (word :: words) (gap ++ (word.toList ++ cs))

namespace Formula

def symbols : Formula → List Symbol
  | literal s => [(.numeric, s)]
  | group f => (.opening, "(") :: (f.symbols ++ [(.closing, ")")])
  | thenLiteral e op s => e.symbols ++ [(.operation, op.text), (.numeric, s)]
  | thenGroup e op f =>
    e.symbols ++ (.operation, op.text) :: (.opening, "(") :: (f.symbols ++ [(.closing, ")")])

def IsWellFormed : Formula → Prop
  | literal s => IsLiteral s
  | group f => f.IsWellFormed
  | thenLiteral e _ s => e.IsWellFormed ∧ IsLiteral s
  | thenGroup e _ f => e.IsWellFormed ∧ f.IsWellFormed

def IsWrittenAs (f : Formula) (s : String) : Prop := Spelling (f.symbols.map Prod.snd) s.toList

def text (f : Formula) : String := String.ofList ((f.symbols.map Prod.snd).flatMap String.toList)

end Formula

theorem Spelling.flatMap_toList (words : List String) : Spelling words (words.flatMap String.toList) := by
  induction words with
  | nil => exact .nil (by simp)
  | cons word words ih =>
    have hgap : ∀ c ∈ ([] : List Char), isBlank c = true := by simp
    exact .cons hgap ih

theorem Formula.isWrittenAs_text (f : Formula) : f.IsWrittenAs f.text := by
  unfold IsWrittenAs text
  rw [String.toList_ofList]
  exact Spelling.flatMap_toList _

/-! ## Spellings in parts -/

namespace Spelling

variable {words more : List String} {cs ds : List Char}

theorem gap {gap : List Char} (hgap : ∀ c ∈ gap, isBlank c = true) (h : Spelling words cs) :
    Spelling words (gap ++ cs) := by
  cases h with
  | nil hcs => exact .nil (List.forall_mem_append.mpr ⟨hgap, hcs⟩)
  | cons hfirst h =>
    rw [← List.append_assoc]
    exact .cons (List.forall_mem_append.mpr ⟨hgap, hfirst⟩) h

theorem append (h : Spelling words cs) (hmore : Spelling more ds) : Spelling (words ++ more) (cs ++ ds) := by
  induction h with
  | nil hgap => exact hmore.gap hgap
  | cons hgap _ ih =>
    rw [List.append_assoc, List.append_assoc, List.cons_append]
    exact .cons hgap ih

theorem word (s : String) : Spelling [s] s.toList := by
  simpa using flatMap_toList [s]

theorem blank : Spelling [] [' '] := by
  have hblank : isBlank ' ' = true := rfl
  exact .nil (by simp [hblank])

theorem sum_length_le (h : Spelling words cs) : (words.map fun w => w.toList.length).sum ≤ cs.length := by
  induction h with
  | nil _ => simp
  | cons _ _ ih =>
    simp only [List.map_cons, List.sum_cons, List.length_append]
    omega

end Spelling

theorem Formula.isWrittenAs_literal (s : String) : (literal s).IsWrittenAs s := Spelling.word s

theorem Formula.IsWrittenAs.group {f : Formula} {s : String} (h : f.IsWrittenAs s) :
    (Formula.group f).IsWrittenAs ("(" ++ s ++ ")") := by
  have hall := (Spelling.word "(").append (Spelling.append h (Spelling.word ")"))
  simpa [IsWrittenAs, symbols, String.toList_append] using hall

end ExactCalc
