import Mathlib
import ExactCalc.Proofs.Token.Partition

/-!
# What is glued

Gluing takes all pairs of neighbours of a list at once: which pairs these are is read off the list before, by the
indices of its tokens (`startsPair`), and a pair becomes the number between its two ends in the text (`glue`). No token
is in two pairs. The scanner retouches the tokens that are no white space by gluing them twice, once for fractions and
then for signs (`retouch_eq_glue`).

Gluing is the same as the walk from left to right that fusing at the indices comes down to (`glue_eq_glueFrom`), since a
pair never starts where another one ends.
-/

namespace ExactCalc

open Text

namespace Token

/-! ## Pairs -/

def isFractionPair : PairTest := fun _ a b => a.isInteger && (b.kind == .numeric && b.isFraction)

/-- What becomes of the token at an index: it goes with the one before it, or it takes the next one with it, or it
stays as it is. -/
def glueAt? (s : String) (test : PairTest) (ts : List Token) (i : Nat) : Option Token :=
  if 0 < i && startsPair test ts (i - 1) then none
  else if startsPair test ts i then do
    let a ← ts[i]?
    let b ← ts[i + 1]?
    ofSpan? s .numeric a.start b.stop
  else ts[i]?

def glue (s : String) (test : PairTest) (ts : List Token) : List Token :=
  (List.range ts.length).filterMap (glueAt? s test ts)

theorem apart_isFractionPair : Apart isFractionPair := by
  intro before a b c h
  simp only [isFractionPair, Bool.and_eq_true] at h
  simp [isFractionPair, isInteger_eq_false_of_isFraction h.2.2]

section
variable {s : String} {test : PairTest} {ts : List Token}

theorem glueAt?_append {pre : List Token} (a : Token) (rest : List Token)
    (hfree : ∀ i, pre.length = i + 1 → startsPair test (pre ++ a :: rest) i = false) :
    glueAt? s test (pre ++ a :: rest) pre.length =
      if startsPair test (pre ++ a :: rest) pre.length then
        rest.head?.bind fun b => ofSpan? s .numeric a.start b.stop
      else some a := by
  have hkept : (0 < pre.length && startsPair test (pre ++ a :: rest) (pre.length - 1)) = false := by
    cases hlen : pre.length with
    | zero => rfl
    | succ i => simpa using hfree i hlen
  have hnext : (pre ++ a :: rest)[pre.length + 1]? = rest.head? := by
    rw [List.getElem?_append_right (Nat.le_succ _)]
    cases rest <;> simp
  simp [glueAt?, hkept, hnext]

theorem filterMap_glueAt?_singleton {pre : List Token} {a : Token}
    (hfree : ∀ i, pre.length = i + 1 → startsPair test (pre ++ [a]) i = false) :
    (List.range' pre.length [a].length).filterMap (glueAt? s test (pre ++ [a])) = [a] := by
  have hkept := glueAt?_append (s := s) a [] hfree
  rw [startsPair_last, if_neg Bool.false_ne_true] at hkept
  rw [List.length_singleton, List.range'_one, List.filterMap_cons_some hkept, List.filterMap_nil]

/-- The tokens behind some others that start no pair with them, glued. -/
theorem filterMap_glueAt? (h : Apart test) (before : Option Token) (pre rest : List Token)
    (hbefore : pre.getLast? = before) (hfree : ∀ i, pre.length = i + 1 → startsPair test (pre ++ rest) i = false) :
    (List.range' pre.length rest.length).filterMap (glueAt? s test (pre ++ rest)) = glueFrom s test before rest := by
  fun_induction glueFrom s test before rest generalizing pre with
  | case1 => rfl
  | case2 => exact filterMap_glueAt?_singleton hfree
  | case3 before a b rest htest ih =>
    have hpair : startsPair test (pre ++ a :: b :: rest) pre.length = true := by
      rw [startsPair_append, hbefore, htest]
    have hglued := glueAt?_append (s := s) a (b :: rest) hfree
    have hgone : glueAt? s test (pre ++ a :: b :: rest) (pre.length + 1) = none := by simp [glueAt?, hpair]
    -- the second token of the pair starts none, so the tokens behind it are free again
    have hrest := ih (pre ++ [a, b]) (by simp) (by
      intro i hi
      obtain rfl : i = pre.length + 1 := by simpa using hi.symm
      simpa using startsPair_succ h hpair)
    rw [hpair, if_pos rfl] at hglued
    simp only [List.length_append, List.length_cons, List.length_nil, List.append_assoc, List.cons_append,
      List.nil_append] at hrest
    rw [List.length_cons, List.length_cons, List.range'_succ, List.range'_succ, List.filterMap_cons, hglued,
      List.filterMap_cons_none hgone, hrest]
    simp only [List.head?_cons, Option.bind_some]
    cases ofSpan? s .numeric a.start b.stop <;> rfl
  | case4 before a b rest htest ih =>
    have hpair : startsPair test (pre ++ a :: b :: rest) pre.length = false := by
      rw [startsPair_append, hbefore]
      simpa using htest
    have hkept := glueAt?_append (s := s) a (b :: rest) hfree
    have hrest := ih (pre ++ [a]) (by simp) (by
      intro i hi
      obtain rfl : i = pre.length := by simpa using hi.symm
      simpa using hpair)
    rw [hpair, if_neg Bool.false_ne_true] at hkept
    simp only [List.length_append, List.length_cons, List.length_nil, List.append_assoc, List.cons_append,
      List.nil_append] at hrest
    rw [List.length_cons, List.range'_succ, List.filterMap_cons_some hkept, List.length_cons, hrest]

theorem glue_eq_glueFrom (h : Apart test) (ts : List Token) : glue s test ts = glueFrom s test none ts := by
  have hall := filterMap_glueAt? (s := s) h none [] ts rfl (by simp)
  rwa [List.nil_append, List.length_nil, ← List.range_eq_range'] at hall

end

/-! ## Texts of tokens -/

theorem exists_append_of_takeBytes? {n : Nat} {cs ds : List Char} (h : takeBytes? n cs = some ds) :
    ∃ rest, cs = ds ++ rest := by
  fun_induction takeBytes? n cs generalizing ds with
  | case1 cs => exact ⟨cs, by rw [← Option.some.inj h, List.nil_append]⟩
  | case2 n => cases h
  | case3 n c cs hle ih =>
    obtain ⟨es, hes, rfl⟩ := Option.map_eq_some_iff.mp h
    obtain ⟨rest, rfl⟩ := ih hes
    exact ⟨rest, rfl⟩
  | case4 n c cs hle => cases h

theorem exists_append_of_ofSpan? {s : String} {k : TokenKind} {stop : Nat} {t : Token} {pre rest : List Char}
    (hs : s.toList = pre ++ rest) (h : ofSpan? s k (byteLength pre) stop = some t) :
    ∃ after, rest = t.text.toList ++ after := by
  unfold ofSpan? at h
  split_ifs at h
  rw [hs, dropBytes?_append, Option.bind_eq_bind, Option.bind_some] at h
  obtain ⟨cs, hcs, htoken⟩ := Option.bind_eq_some_iff.mp h
  obtain rfl := Option.some.inj htoken
  rw [String.toList_ofList]
  exact exists_append_of_takeBytes? hcs

theorem exists_append_of_spans {s : String} {ts : List Token} (pre : List Char) {rest : List Char}
    (hs : s.toList = pre ++ rest) (hlaid : ts = laid (byteLength pre) (ts.map word))
    (hspan : ∀ t ∈ ts, ofSpan? s t.kind t.start t.stop = some t) : ∃ after, rest = chars ts ++ after := by
  induction ts generalizing pre rest with
  | nil => exact ⟨rest, rfl⟩
  | cons t ts ih =>
    obtain ⟨ht, hts⟩ := List.forall_mem_cons.mp hspan
    obtain ⟨htoken, hlaid⟩ := List.cons.inj hlaid
    have hstart : t.start = byteLength pre := congrArg Token.start htoken
    rw [hstart] at ht
    obtain ⟨after, rfl⟩ := exists_append_of_ofSpan? hs ht
    rw [← byteLength_append] at hlaid
    obtain ⟨after, rfl⟩ := ih (pre ++ t.text.toList) (by rw [hs, List.append_assoc]) hlaid hts
    exact ⟨after, by simp [chars]⟩

theorem chars_eq_of_checkCover {s : String} {ts : List Token} (h : checkCover s.utf8ByteSize ts = .ok ())
    (hspan : ∀ t ∈ ts, ofSpan? s t.kind t.start t.stop = some t) : chars ts = s.toList := by
  obtain ⟨hlaid, hsize, -⟩ := eq_laid_of_checkCover h
  obtain ⟨after, hafter⟩ : ∃ after, s.toList = chars ts ++ after := exists_append_of_spans [] rfl hlaid hspan
  have hsublist : (chars ts).Sublist s.toList := by
    rw [hafter]
    exact List.sublist_append_left _ _
  exact eq_of_sublist_of_byteLength hsublist (by rw [hsize, utf8ByteSize_eq])

/-! ## Retouching -/

theorem glueFrom_congr {s : String} {test test' : PairTest} {ts : List Token}
    (h : ∀ before, ∀ a ∈ ts, ∀ b ∈ ts, test before a b = test' before a b) (before : Option Token) :
    glueFrom s test before ts = glueFrom s test' before ts := by
  fun_induction glueFrom s test before ts with
  | case1 => rfl
  | case2 => rfl
  | case3 before a b rest htest ih =>
    rw [h before a (by simp) b (by simp)] at htest
    rw [glueFrom, if_pos htest, ih fun before c hc d hd => h before c (by simp [hc]) d (by simp [hd])]
  | case4 before a b rest htest ih =>
    rw [h before a (by simp) b (by simp)] at htest
    rw [glueFrom, if_neg htest, ih fun before c hc d hd => h before c (by simp [List.mem_cons.mp hc]) d
      (by simp [List.mem_cons.mp hd])]

/-- Pieces of a text that pass the check are retouched by gluing all pairs at once, twice: integers with fractions,
then minus signs in the place of an operand with numbers. No token is in two pairs. -/
theorem retouch_eq_glue (s : String) (ts : List Token) (hpiece : ∀ t ∈ ts, IsPiece t)
    (hspan : ∀ t ∈ ts, ofSpan? s t.kind t.start t.stop = some t) (h : checkCover s.utf8ByteSize ts = .ok ()) :
    let us := ts.filter (·.kind ≠ .blank)
    let vs := glue s isFractionPair us
    retouch s us = glue s isSignPair vs ∧
      (∀ i, startsPair isFractionPair us i = true → startsPair isFractionPair us (i + 1) = false) ∧
      ∀ i, startsPair isSignPair vs i = true → startsPair isSignPair vs (i + 1) = false := by
  intro us vs
  have hstand := standIn_lexemes h hpiece (chars_eq_of_checkCover h hspan)
  -- among the pieces only numbers start with a point
  have hpairs : ∀ before, ∀ a ∈ us, ∀ b ∈ us, isPointPair before a b = isFractionPair before a b := by
    intro before a _ b hb
    obtain ⟨hb, hkind⟩ := List.mem_filter.mp hb
    have hnumeric : b.isFraction = true → b.kind = .numeric :=
      kind_eq_of_isFraction (hpiece b hb) (by simpa using hkind)
    cases hfraction : b.isFraction with
    | true => simp [isPointPair, isFractionPair, hfraction, hnumeric hfraction]
    | false => simp [isPointPair, isFractionPair, hfraction]
  refine ⟨?_, fun i => startsPair_succ apart_isFractionPair, fun i => startsPair_succ apart_isSignPair⟩
  have hretouch := retouch_eq_glueFrom hstand
  rw [map_lexemes, glueFrom_congr hpairs, ← glue_eq_glueFrom apart_isFractionPair,
    ← glue_eq_glueFrom apart_isSignPair] at hretouch
  exact hretouch

/-- A run of minus signs: the first one is a sign, the second one an operation, and the third one a sign again. -/
theorem retouch_eq_glue_signs :
    let ts : List Token := [⟨.operation, 0, "-"⟩, ⟨.numeric, 1, "1"⟩, ⟨.blank, 2, " "⟩, ⟨.numeric, 3, ".5"⟩,
      ⟨.blank, 5, " "⟩, ⟨.operation, 6, "-"⟩, ⟨.blank, 7, " "⟩, ⟨.operation, 8, "-"⟩, ⟨.numeric, 9, "2"⟩]
    ((∀ t ∈ ts, IsPiece t) ∧ (∀ t ∈ ts, ofSpan? "-1 .5 - -2" t.kind t.start t.stop = some t) ∧
      checkCover "-1 .5 - -2".utf8ByteSize ts = .ok ()) ∧
    glue "-1 .5 - -2" isSignPair (glue "-1 .5 - -2" isFractionPair (ts.filter (·.kind ≠ .blank))) =
      [⟨.numeric, 0, "-1 .5"⟩, ⟨.operation, 6, "-"⟩, ⟨.numeric, 8, "-2"⟩] := by
  intro ts
  have hpieces : pieces 0 "-1 .5 - -2".toList = ts := by cbv
  have hpiece : ∀ t ∈ ts, IsPiece t := hpieces ▸ isPiece_of_mem_pieces 0 _
  have hspan : ∀ t ∈ ts, ofSpan? "-1 .5 - -2" t.kind t.start t.stop = some t := by
    simp only [ts, List.forall_mem_cons]
    refine ⟨?_, ?_, ?_, ?_, ?_, ?_, ?_, ?_, ?_, by simp⟩ <;> cbv
  have hcheck : checkCover "-1 .5 - -2".utf8ByteSize ts = .ok () := by cbv
  have hretouch : retouch "-1 .5 - -2" (ts.filter (·.kind ≠ .blank)) =
      [⟨.numeric, 0, "-1 .5"⟩, ⟨.operation, 6, "-"⟩, ⟨.numeric, 8, "-2"⟩] := by cbv
  obtain ⟨hglue, -, -⟩ := retouch_eq_glue "-1 .5 - -2" ts hpiece hspan hcheck
  exact ⟨⟨hpiece, hspan, hcheck⟩, hglue.symm.trans hretouch⟩

end Token

end ExactCalc
