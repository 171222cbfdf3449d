import Mathlib
import ExactCalc.Proofs.Token.Pieces

/-!
# Joining from left to right

A `Lexeme` is a token with the white space before it. In one go from left to right neighbours are joined that
are one number, the white space between them included: first integers with fractions (`joinFractions`), then
minus signs with numbers (`joinSigns`). Nothing is lost (`flatMap_joinFractions`, `flatMap_joinSigns`), and what
is joined covers the bytes from the start of its first part to the end of its second one
(`StandIn.ofSpan?_join`).
-/

namespace ExactCalc

open Text

namespace Token

/-! ## Lexemes -/

/-- A token with the white space before it. -/
structure Lexeme where
  lead : String
  token : Token
  deriving DecidableEq, Repr

/-- Moves each white space to the token after it. -/
def lexemes (lead : String) : List Token → List Lexeme
  | [] => []
  | t :: ts => if t.kind = .blank then lexemes (lead ++ t.text) ts else ⟨lead, t⟩ :: lexemes "" ts

/-- Two neighbours as one number, with the white space between them. -/
def Lexeme.join (a b : Lexeme) : Lexeme :=
  ⟨a.lead, ⟨.numeric, a.token.start, a.token.text ++ b.lead ++ b.token.text⟩⟩

/-- Joins each integer with the fraction directly after it. -/
def joinFractions : List Lexeme → List Lexeme
  | a :: b :: rest =>
    if a.token.isInteger && b.token.isFraction then a.join b :: joinFractions rest
    else a :: joinFractions (b :: rest)
  | ts => ts

/-- Joins each minus sign in the place of an operand with the number directly after it; `free` tells
whether the first token is in such a place. -/
def joinSigns (free : Bool) : List Lexeme → List Lexeme
  | a :: b :: rest =>
    if free && a.token.isMinus && b.token.kind == .numeric then a.join b :: joinSigns false rest
    else a :: joinSigns a.token.expectsOperand (b :: rest)
  | ts => ts

/-- The tokens of the pieces of a text, joined and without white space. -/
def joined (ts : List Token) : List Token :=
  (joinSigns true (joinFractions (lexemes "" ts))).map (·.token)

def Lexeme.chars (l : Lexeme) : List Char := l.lead.toList ++ l.token.text.toList

theorem Lexeme.chars_join (a b : Lexeme) : (a.join b).chars = a.chars ++ b.chars := by
  simp [chars, join]

theorem length_le_one_of_ne {ls : List Lexeme} (h : ∀ a b rest, ls = a :: b :: rest → False) : ls.length ≤ 1 := by
  cases ls with
  | nil => simp
  | cons a ls =>
    cases ls with
    | nil => simp
    | cons b rest => exact absurd rfl (h a b rest)

theorem flatMap_joinFractions (ls : List Lexeme) :
    (joinFractions ls).flatMap Lexeme.chars = ls.flatMap Lexeme.chars := by
  fun_induction joinFractions ls with
  | case1 a b rest h ih => simp [ih, Lexeme.chars_join]
  | case2 a b rest h ih =>
    rw [List.flatMap_cons, List.flatMap_cons, ih]
  | case3 => rfl

theorem flatMap_joinSigns (free : Bool) (ls : List Lexeme) :
    (joinSigns free ls).flatMap Lexeme.chars = ls.flatMap Lexeme.chars := by
  fun_induction joinSigns free ls with
  | case1 free a b rest h ih => simp [ih, Lexeme.chars_join]
  | case2 free a b rest h ih =>
    rw [List.flatMap_cons, List.flatMap_cons, ih]
  | case3 => rfl

theorem exists_trail_lexemes {ts : List Token} (hts : ∀ t ∈ ts, IsPiece t) {lead : String}
    (hlead : ∀ c ∈ lead.toList, isBlank c = true) :
    (∃ trail, (∀ c ∈ trail, isBlank c = true) ∧
      lead.toList ++ chars ts = (lexemes lead ts).flatMap Lexeme.chars ++ trail) ∧
    ∀ l ∈ lexemes lead ts, (∀ c ∈ l.lead.toList, isBlank c = true) ∧ l.token.kind ≠ .blank ∧ IsPiece l.token := by
  induction ts generalizing lead with
  | nil => exact ⟨⟨lead.toList, hlead, by simp [lexemes, chars]⟩, by simp [lexemes]⟩
  | cons t ts ih =>
    obtain ⟨ht, hrest⟩ := List.forall_mem_cons.mp hts
    have hchars : chars (t :: ts) = t.text.toList ++ chars ts := rfl
    rw [hchars]
    by_cases hk : t.kind = .blank
    · have hblank : ∀ c ∈ t.text.toList, isBlank c = true := by
        cases ht with
        | blank _ hb => exact hb
        | numeric hn _ => rw [hk] at hn; simp at hn
        | symbol hs _ => exact absurd hk (symbolKind?_eq_some hs).2.2.2.1
      have hlead' : ∀ c ∈ (lead ++ t.text).toList, isBlank c = true := by
        rw [String.toList_append]
        exact List.forall_mem_append.mpr ⟨hlead, hblank⟩
      obtain ⟨⟨trail, htrail, heq⟩, hall⟩ := ih hrest hlead'
      have hlex : lexemes lead (t :: ts) = lexemes (lead ++ t.text) ts := by simp [lexemes, hk]
      rw [hlex]
      refine ⟨⟨trail, htrail, ?_⟩, hall⟩
      rw [← heq, String.toList_append, List.append_assoc]
    · obtain ⟨⟨trail, htrail, heq⟩, hall⟩ := ih hrest (show ∀ c ∈ "".toList, isBlank c = true by simp)
      have hlex : lexemes lead (t :: ts) = ⟨lead, t⟩ :: lexemes "" ts := by simp [lexemes, hk]
      rw [hlex]
      refine ⟨⟨trail, htrail, ?_⟩, List.forall_mem_cons.mpr ⟨⟨hlead, hk, ht⟩, hall⟩⟩
      rw [String.toList_empty, List.nil_append] at heq
      rw [heq, List.flatMap_cons, Lexeme.chars]
      simp

theorem map_lexemes (lead : String) (ts : List Token) :
    (lexemes lead ts).map (·.token) = ts.filter (·.kind ≠ .blank) := by
  fun_induction lexemes lead ts with
  | case1 => rfl
  | case2 lead t ts ht ih => rw [ih, List.filter_cons_of_neg (by simp [ht])]
  | case3 lead t ts ht ih => rw [List.map_cons, ih, List.filter_cons_of_pos (by simp [ht])]

/-! ## Cutting by offsets -/

theorem exists_byteLength_cons (c : Char) (cs : List Char) :
    ∃ n, byteLength (c :: cs) = n + 1 ∧ c.utf8Size ≤ n + 1 ∧ n + 1 - c.utf8Size = byteLength cs := by
  have hpos := Char.utf8Size_pos c
  refine ⟨c.utf8Size - 1 + byteLength cs, ?_, ?_, ?_⟩
  · rw [byteLength]
    omega
  · omega
  · omega

theorem dropBytes?_append (cs ds : List Char) : dropBytes? (byteLength cs) (cs ++ ds) = some ds := by
  induction cs with
  | nil => simp [byteLength, dropBytes?]
  | cons c cs ih =>
    obtain ⟨n, hsize, hle, hrest⟩ := exists_byteLength_cons c cs
    rw [hsize, List.cons_append, dropBytes?, if_pos hle, hrest, ih]

theorem takeBytes?_append (cs ds : List Char) : takeBytes? (byteLength cs) (cs ++ ds) = some cs := by
  induction cs with
  | nil => simp [byteLength, takeBytes?]
  | cons c cs ih =>
    obtain ⟨n, hsize, hle, hrest⟩ := exists_byteLength_cons c cs
    rw [hsize, List.cons_append, takeBytes?, if_pos hle, hrest, ih]
    rfl

theorem stop_eq (t : Token) : t.stop = t.start + byteLength t.text.toList := by
  rw [stop, utf8ByteSize_eq]

theorem ofSpan?_eq {s : String} {t : Token} {before after : List Char}
    (hs : s.toList = before ++ (t.text.toList ++ after)) (hstart : t.start = byteLength before) :
    ofSpan? s t.kind t.start t.stop = some t := by
  have hle : ¬ t.stop < t.start := by rw [stop_eq]; omega
  have hlength : t.stop - byteLength before = byteLength t.text.toList := by rw [stop_eq, hstart]; omega
  rw [ofSpan?, if_neg hle, hs, hstart, dropBytes?_append]
  simp only [Option.bind_eq_bind, Option.bind_some]
  rw [hlength, takeBytes?_append]
  simp [← hstart]

/-! ## Lexemes in place -/

/-- Each lexeme starts where the one before it stops, and its token after the white space. -/
def InPlace : Nat → List Lexeme → Prop
  | _, [] => True
  | pos, l :: ls => l.token.start = pos + byteLength l.lead.toList ∧ InPlace l.token.stop ls

/-- The lexemes of words that are laid out are in place; the white space before them is `lead`. -/
theorem inPlace_lexemes (lead : String) (pos : Nat) (ws : List (TokenKind × List Char)) :
    InPlace pos (lexemes lead (laid (pos + byteLength lead.toList) ws)) := by
  induction ws generalizing lead pos with
  | nil => trivial
  | cons w ws ih =>
    obtain ⟨k, w⟩ := w
    rw [laid, lexemes]
    by_cases hk : k = .blank
    · have hlead : byteLength (lead ++ String.ofList w).toList = byteLength lead.toList + byteLength w := by
        rw [String.toList_append, String.toList_ofList, byteLength_append]
      rw [if_pos hk, Nat.add_assoc, ← hlead]
      exact ih _ _
    · rw [if_neg hk]
      refine ⟨rfl, ?_⟩
      have hrest := ih "" (pos + byteLength lead.toList + byteLength w)
      rw [stop_eq, String.toList_ofList]
      exact hrest

theorem InPlace.stop_join {pos : Nat} {a b : Lexeme} {ls : List Lexeme} (h : InPlace pos (a :: b :: ls)) :
    (a.join b).token.stop = b.token.stop := by
  rw [stop_eq b.token, h.2.1, stop_eq, stop_eq]
  simp [Lexeme.join, byteLength_append, Nat.add_assoc]

theorem InPlace.join {pos : Nat} {a b : Lexeme} {ls : List Lexeme} (h : InPlace pos (a :: b :: ls)) :
    InPlace pos (a.join b :: ls) :=
  ⟨h.1, h.stop_join ▸ h.2.2⟩

theorem InPlace.joinFractions {pos : Nat} {ls : List Lexeme} (h : InPlace pos ls) :
    InPlace pos (joinFractions ls) := by
  fun_induction Token.joinFractions ls generalizing pos with
  | case1 a b rest hjoin ih => exact ⟨h.join.1, ih h.join.2⟩
  | case2 a b rest hjoin ih => exact ⟨h.1, ih h.2⟩
  | case3 => exact h

theorem InPlace.joinSigns {pos : Nat} {free : Bool} {ls : List Lexeme} (h : InPlace pos ls) :
    InPlace pos (joinSigns free ls) := by
  fun_induction Token.joinSigns free ls generalizing pos with
  | case1 free a b rest hjoin ih => exact ⟨h.join.1, ih h.join.2⟩
  | case2 free a b rest hjoin ih => exact ⟨h.1, ih h.2⟩
  | case3 => exact h

/-! ## Lexemes in a text -/

/-- Lexemes that stand in a text from a byte offset on. -/
structure StandIn (s : String) (pos : Nat) (ls : List Lexeme) : Prop where
  place : InPlace pos ls
  text : ∃ pre after, s.toList = pre ++ (ls.flatMap Lexeme.chars ++ after) ∧ byteLength pre = pos

section
variable {s : String} {pos : Nat} {a b : Lexeme} {ls : List Lexeme}

theorem StandIn.tail (h : StandIn s pos (a :: ls)) : StandIn s a.token.stop ls := by
  obtain ⟨⟨hstart, hrest⟩, pre, after, hs, rfl⟩ := h
  refine ⟨hrest, pre ++ a.chars, after, by rw [hs]; simp, ?_⟩
  rw [stop_eq, hstart, Lexeme.chars, byteLength_append, byteLength_append, Nat.add_assoc]

theorem StandIn.join (h : StandIn s pos (a :: b :: ls)) : StandIn s pos (a.join b :: ls) := by
  obtain ⟨hplace, pre, after, hs, hpos⟩ := h
  exact ⟨hplace.join, pre, after, by rw [hs]; simp [Lexeme.chars_join], hpos⟩

theorem StandIn.ofSpan?_eq (h : StandIn s pos (a :: ls)) :
    ofSpan? s a.token.kind a.token.start a.token.stop = some a.token := by
  obtain ⟨⟨hstart, -⟩, pre, after, hs, rfl⟩ := h
  have hlead : s.toList = pre ++ a.lead.toList ++ (a.token.text.toList ++ (ls.flatMap Lexeme.chars ++ after)) := by
    rw [hs]
    simp [Lexeme.chars]
  exact Token.ofSpan?_eq hlead (by rw [hstart, byteLength_append])

/-- The first two tokens joined are the number between their ends. -/
theorem StandIn.ofSpan?_join (h : StandIn s pos (a :: b :: ls)) :
    ofSpan? s .numeric a.token.start b.token.stop = some (a.join b).token := by
  have hjoin := h.join.ofSpan?_eq
  rwa [h.place.stop_join] at hjoin

theorem StandIn.spanning_eq (h : StandIn s pos (a :: b :: ls)) : spanning s a.token b.token = (a.join b).token := by
  rw [spanning, h.ofSpan?_join, Option.getD_some]

theorem StandIn.joinFractions (h : StandIn s pos ls) : StandIn s pos (joinFractions ls) := by
  obtain ⟨hplace, pre, after, hs, hpos⟩ := h
  exact ⟨hplace.joinFractions, pre, after, by rw [flatMap_joinFractions, hs], hpos⟩

end

theorem standIn_lexemes {s : String} {ts : List Token} (h : checkCover s.utf8ByteSize ts = .ok ())
    (hpiece : ∀ t ∈ ts, IsPiece t) (hchars : chars ts = s.toList) : StandIn s 0 (lexemes "" ts) := by
  refine ⟨?_, [], ?_⟩
  · rw [(eq_laid_of_checkCover h).1]
    exact inPlace_lexemes "" 0 _
  · have hlead : ∀ c ∈ "".toList, isBlank c = true := by simp
    obtain ⟨⟨trail, -, htext⟩, -⟩ := exists_trail_lexemes hpiece hlead
    rw [String.toList_empty, List.nil_append, hchars] at htext
    exact ⟨trail, htext, rfl⟩

end Token

end ExactCalc
