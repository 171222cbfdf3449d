import Mathlib
import ExactCalc.Proofs.Token.Lexemes
import ExactCalc.Proofs.Token.Passes

/-!
# Retouching at indices

Either time the tokens are retouched, the places are collected before anything is fused. They are the indices at which
pairs of neighbours start (`startsPair`): the fractions are looked for from the last token to the first, and the signs
in a loop that jumps behind a pair, with the first token on its own (`fusions_eq`, `negatives_eq`). No pair starts
where another one ends (`Apart`), so the loop misses none.

Fused from the last index to the first, the tokens before an index are still those that the indices were
collected from, and fusing all of them is a walk from left to right (`glueFrom`, `foldr_fuse_pairsFrom`). For
the tokens of a text the walk is the joining of its lexemes (`retouch_eq_joined`).
-/

namespace ExactCalc

open Text

namespace Token

/-! ## Pairs -/

/-- Whether two neighbours are a pair, by them and the token before them. -/
abbrev PairTest := Option Token → Token → Token → Bool

def isPointPair : PairTest := fun _ a b => a.isInteger && b.isFraction

/-- A minus sign at the start, or after an opening parenthesis or an operation, and a number. -/
def isSignPair : PairTest := fun before a b => before.all expectsOperand && a.isMinus && b.kind == .numeric

def before? (ts : List Token) : Nat → Option Token
  | 0 => none
  | i + 1 => ts[i]?

def startsPair (test : PairTest) (ts : List Token) (i : Nat) : Bool :=
  match ts[i]?, ts[i + 1]? with
  | some a, some b => test (before? ts i) a b
  | _, _ => false

/-- No pair starts with the second token of another one. -/
def Apart (test : PairTest) : Prop := ∀ before a b c, test before a b = true → test (some a) b c = false

theorem isInteger_eq_false_of_isFraction {t : Token} (h : t.isFraction = true) : t.isInteger = false := by
  obtain ⟨cs, hcs⟩ := List.head?_eq_some_iff.mp (beq_iff_eq.mp h)
  have hpoint : isAsciiDigit '.' = false := by decide
  simp [isInteger, areAsciiDigits, hcs, hpoint]

theorem apart_isPointPair : Apart isPointPair := by
  intro before a b c h
  simp only [isPointPair, Bool.and_eq_true] at h
  simp [isPointPair, isInteger_eq_false_of_isFraction h.2]

theorem apart_isSignPair : Apart isSignPair := by
  intro before a b c h
  simp only [isSignPair, Bool.and_eq_true, beq_iff_eq] at h
  simp [isSignPair, isMinus, h.2]

section
variable {test : PairTest} {ts : List Token} {i : Nat}

theorem startsPair_succ (h : Apart test) (hi : startsPair test ts i = true) : startsPair test ts (i + 1) = false := by
  unfold startsPair at hi ⊢
  split at hi
  · rename_i a b ha hb
    simp only [hb]
    split
    · rename_i b' c hb' hc
      obtain rfl := Option.some.inj hb'
      simp only [before?, ha]
      exact h _ a b c hi
    · rfl
  · cases hi

theorem lt_of_startsPair (h : startsPair test ts i = true) : i + 1 < ts.length := by
  unfold startsPair at h
  split at h
  · rename_i hb
    exact (List.getElem?_eq_some_iff.mp hb).1
  · cases h

theorem startsPair_append (pre : List Token) (a b : Token) (rest : List Token) :
    startsPair test (pre ++ a :: b :: rest) pre.length = test pre.getLast? a b := by
  have hbefore : before? (pre ++ a :: b :: rest) pre.length = pre.getLast? := by
    cases pre using List.reverseRecOn with
    | nil => rfl
    | append_singleton pre c => simp [before?]
  simp [startsPair, hbefore]

theorem startsPair_last (pre : List Token) (a : Token) : startsPair test (pre ++ [a]) pre.length = false := by
  simp [startsPair]

/-! ## Indices -/

/-- The indices from `i` on at which pairs start. -/
def pairsFrom (test : PairTest) (ts : List Token) (i : Nat) : List Nat :=
  (List.range' i (ts.length - i)).filter (startsPair test ts)

theorem pairsFrom_of_startsPair (h : startsPair test ts i = true) :
    pairsFrom test ts i = i :: pairsFrom test ts (i + 1) := by
  have hlen : ts.length - i = ts.length - (i + 1) + 1 := by
    have hlt := lt_of_startsPair h
    omega
  rw [pairsFrom, hlen, List.range'_succ, List.filter_cons_of_pos h, pairsFrom]

theorem pairsFrom_of_not (h : startsPair test ts i = false) : pairsFrom test ts i = pairsFrom test ts (i + 1) := by
  unfold pairsFrom
  cases hlen : ts.length - i with
  | zero =>
    have hnext : ts.length - (i + 1) = 0 := by omega
    rw [hnext]
    rfl
  | succ n =>
    have hnext : ts.length - (i + 1) = n := by omega
    rw [hnext, List.range'_succ, List.filter_cons_of_neg (by simp [h])]

theorem pairsFrom_eq_nil (h : ts.length ≤ i) : pairsFrom test ts i = [] := by
  rw [pairsFrom, Nat.sub_eq_zero_of_le h]
  rfl

theorem pairsFrom_behind (hapart : Apart test) (h : startsPair test ts i = true) :
    pairsFrom test ts i = i :: pairsFrom test ts (i + 2) := by
  rw [pairsFrom_of_startsPair h, pairsFrom_of_not (startsPair_succ hapart h)]

end

/-! ## The places that are collected -/

theorem endsInteger_succ (ts : List Token) (i : Nat) : endsInteger ts (i + 1) = startsPair isPointPair ts i := by
  unfold endsInteger startsPair
  rw [Nat.add_sub_cancel]
  rfl

theorem fusions_eq (ts : List Token) : fusions ts = ((pairsFrom isPointPair ts 0).map (· + 1)).reverse := by
  have hlast : pairsFrom isPointPair ts 0 = (List.range (ts.length - 1)).filter (startsPair isPointPair ts) := by
    rw [pairsFrom, Nat.sub_zero, ← List.range_eq_range']
    cases hlen : ts.length with
    | zero => rfl
    | succ n =>
      have hnone : startsPair isPointPair ts n = false := by simp [startsPair, ← hlen]
      simp [List.range_succ, hnone]
  have hrange : List.range' 1 (ts.length - 1) = (List.range (ts.length - 1)).map (· + 1) := by
    rw [List.range'_eq_map_range]
    simp [Nat.add_comm]
  rw [fusions, List.filter_reverse, hrange, List.filter_map, hlast]
  exact congrArg (fun p => ((List.filter p (List.range (ts.length - 1))).map (· + 1)).reverse)
    (funext (endsInteger_succ ts))

theorem precedesNegative_eq (ts : List Token) (i : Nat) :
    precedesNegative ts i = startsPair isSignPair ts (i + 1) := by
  unfold precedesNegative startsPair
  cases ht : ts[i]? with
  | none =>
    have hnext : ts[i + 1]? = none := List.getElem?_eq_none (Nat.le_succ_of_le (List.getElem?_eq_none_iff.mp ht))
    simp [hnext]
  | some t => cases ts[i + 1]? <;> cases ts[i + 2]? <;> simp [isSignPair, before?, ht, Bool.and_assoc]

theorem startsPair_isSignPair_behind {ts : List Token} {i : Nat} (h : startsPair isSignPair ts i = true) :
    startsPair isSignPair ts (i + 2) = false := by
  unfold startsPair at h ⊢
  split at h
  · rename_i a b ha hb
    simp only [isSignPair, Bool.and_eq_true, beq_iff_eq] at h
    have hoperand : b.expectsOperand = false := by simp [expectsOperand, h.2]
    split
    · simp [isSignPair, before?, hb, hoperand]
    · rfl
  · cases h

theorem negativesFrom_eq (ts : List Token) (i : Nat) : negativesFrom ts i = pairsFrom isSignPair ts (i + 1) := by
  fun_induction negativesFrom ts i with
  | case1 i hlt hneg ih =>
    -- the jump goes over the number and what comes next, where no sign can be
    rw [precedesNegative_eq] at hneg
    rw [ih, pairsFrom_behind apart_isSignPair hneg, pairsFrom_of_not (startsPair_isSignPair_behind hneg)]
  | case2 i hlt hneg ih =>
    rw [precedesNegative_eq, Bool.not_eq_true] at hneg
    rw [ih, pairsFrom_of_not hneg]
  | case3 i hlt => rw [pairsFrom_eq_nil (by omega)]

theorem negatives_eq (ts : List Token) : negatives ts = pairsFrom isSignPair ts 0 := by
  obtain _ | ⟨a, _ | ⟨b, rest⟩⟩ := ts
  · simp [negatives, negativesFrom, pairsFrom]
  · simp [negatives, negativesFrom_eq, pairsFrom, startsPair]
  · have hfirst : startsPair isSignPair (a :: b :: rest) 0 = (a.isMinus && b.kind == .numeric) := by
      simp [startsPair, isSignPair, before?]
    unfold negatives
    rw [negativesFrom_eq]
    cases hlead : a.isMinus && b.kind == .numeric with
    | true =>
      rw [hlead] at hfirst
      simp [hlead, pairsFrom_of_startsPair hfirst]
    | false =>
      rw [hlead] at hfirst
      simp [hlead, pairsFrom_of_not hfirst]

/-! ## Fusing -/

/-- The tokens of a text with all pairs glued from left to right, after a token that is in no pair with them. -/
def glueFrom (s : String) (test : PairTest) (before : Option Token) : List Token → List Token
  | [] => []
  | [a] => [a]
  | a :: b :: rest =>
    if test before a b then (ofSpan? s .numeric a.start b.stop).toList ++ glueFrom s test (some b) rest
    else a :: glueFrom s test (some a) (b :: rest)

theorem glueFrom_eq_self {s : String} {test : PairTest} {before : Option Token} {ts : List Token} (h : ts.length ≤ 1) :
    glueFrom s test before ts = ts := by
  cases ts with
  | nil => rfl
  | cons a ts =>
    obtain rfl : ts = [] := by simpa using h
    rfl

theorem fuse_append (s : String) (pre : List Token) (a b : Token) (rest : List Token) :
    fuse s (pre ++ a :: b :: rest) pre.length = pre ++ spanning s a b :: rest := by
  simp [fuse, List.eraseIdx_append_of_length_le]

/-- The tokens of a text are glued where pairs start, from the last pair to the first. -/
theorem foldr_fuse_pairsFrom {s : String} {test : PairTest} (hapart : Apart test) {pos : Nat} {ls : List Lexeme}
    (h : StandIn s pos ls) (pre : List Token) :
    (pairsFrom test (pre ++ ls.map (·.token)) pre.length).foldr (fun i ts => fuse s ts i) (pre ++ ls.map (·.token)) =
      pre ++ glueFrom s test pre.getLast? (ls.map (·.token)) := by
  match ls, h with
  | [], _ => rw [pairsFrom_eq_nil (by simp)]; rfl
  | [a], _ =>
    rw [List.map_singleton, pairsFrom_of_not (startsPair_last pre a.token), pairsFrom_eq_nil (by simp)]
    rfl
  | a :: b :: rest, h =>
    have hstart : startsPair test (pre ++ a.token :: b.token :: rest.map (·.token)) pre.length =
        test pre.getLast? a.token b.token := startsPair_append pre a.token b.token _
    rw [List.map_cons, List.map_cons, glueFrom]
    split_ifs with htest
    · -- behind the pair the tokens are glued first, and then the pair is still in its place
      have hrest := foldr_fuse_pairsFrom hapart h.tail.tail (pre ++ [a.token, b.token])
      have hlast : (pre ++ [a.token, b.token]).getLast? = some b.token := by simp
      rw [hlast, List.append_assoc, List.length_append] at hrest
      simp only [List.cons_append, List.nil_append, List.length_cons, List.length_nil] at hrest
      rw [pairsFrom_behind hapart (hstart.trans htest), List.foldr_cons, hrest, List.append_assoc, List.cons_append,
        List.cons_append, List.nil_append, fuse_append, h.ofSpan?_join, h.spanning_eq]
      rfl
    · have hrest := foldr_fuse_pairsFrom hapart h.tail (pre ++ [a.token])
      have hlast : (pre ++ [a.token]).getLast? = some a.token := by simp
      rw [hlast, List.append_assoc, List.length_append] at hrest
      simp only [List.cons_append, List.nil_append, List.length_cons, List.length_nil, List.map_cons] at hrest
      rw [pairsFrom_of_not (hstart.trans (Bool.not_eq_true _ ▸ htest)), hrest, List.append_assoc]
      rfl
termination_by ls.length

/-! ## Retouching -/

section
variable {s : String} {pos : Nat} {ls : List Lexeme}

theorem map_joinFractions (h : StandIn s pos ls) (before : Option Token) :
    (joinFractions ls).map (·.token) = glueFrom s isPointPair before (ls.map (·.token)) := by
  fun_induction joinFractions ls generalizing pos before with
  | case1 a b rest hjoin ih =>
    have hpair : isPointPair before a.token b.token = true := hjoin
    rw [List.map_cons, List.map_cons, List.map_cons, glueFrom, if_pos hpair, h.ofSpan?_join,
      ih h.tail.tail (some b.token)]
    rfl
  | case2 a b rest hjoin ih =>
    have hpair : ¬ isPointPair before a.token b.token = true := hjoin
    rw [List.map_cons, List.map_cons, List.map_cons, glueFrom, if_neg hpair, ih h.tail (some a.token), List.map_cons]
  | case3 ls hshort => exact (glueFrom_eq_self (by simpa using length_le_one_of_ne hshort)).symm

theorem map_joinSigns {free : Bool} (before : Option Token) (h : StandIn s pos ls)
    (hfree : free = before.all expectsOperand) :
    (joinSigns free ls).map (·.token) = glueFrom s isSignPair before (ls.map (·.token)) := by
  fun_induction joinSigns free ls generalizing pos before with
  | case1 free a b rest hjoin ih =>
    have hpair : isSignPair before a.token b.token = true := by
      rw [isSignPair, ← hfree]
      exact hjoin
    have hb : b.token.kind = .numeric := by
      simp only [Bool.and_eq_true, beq_iff_eq] at hjoin
      exact hjoin.2
    have hnext : false = (some b.token).all expectsOperand := by simp [expectsOperand, hb]
    rw [List.map_cons, List.map_cons, List.map_cons, glueFrom, if_pos hpair, h.ofSpan?_join, ih _ h.tail.tail hnext]
    rfl
  | case2 free a b rest hjoin ih =>
    have hpair : ¬ isSignPair before a.token b.token = true := by
      rw [isSignPair, ← hfree]
      exact hjoin
    have hnext : a.token.expectsOperand = (some a.token).all expectsOperand := rfl
    rw [List.map_cons, List.map_cons, List.map_cons, glueFrom, if_neg hpair, ih _ h.tail hnext, List.map_cons]
  | case3 free ls hshort => exact (glueFrom_eq_self (by simpa using length_le_one_of_ne hshort)).symm

/-- Retouching glues the tokens of a text twice, from left to right. -/
theorem retouch_eq_glueFrom (h : StandIn s pos ls) :
    retouch s (ls.map (·.token)) =
      glueFrom s isSignPair none (glueFrom s isPointPair none (ls.map (·.token))) := by
  have hfractions : (fusions (ls.map (·.token))).foldl (fun ts i => fuse s ts (i - 1)) (ls.map (·.token)) =
      (joinFractions ls).map (·.token) := by
    rw [fusions_eq, List.foldl_reverse, List.foldr_map, map_joinFractions h none]
    exact foldr_fuse_pairsFrom apart_isPointPair h []
  rw [retouch, hfractions, negatives_eq, List.foldl_reverse, ← map_joinFractions h]
  exact foldr_fuse_pairsFrom apart_isSignPair h.joinFractions []

end

/-- The tokens that cover a text are joined when they are retouched. -/
theorem retouch_eq_joined {s : String} {ts : List Token} (h : checkCover s.utf8ByteSize ts = .ok ())
    (hpiece : ∀ t ∈ ts, IsPiece t) (hchars : chars ts = s.toList) :
    retouch s (ts.filter (·.kind ≠ .blank)) = joined ts := by
  have hstand := standIn_lexemes h hpiece hchars
  have hstart : true = (none : Option Token).all expectsOperand := rfl
  rw [← map_lexemes "", retouch_eq_glueFrom hstand, ← map_joinFractions hstand,
    ← map_joinSigns none hstand.joinFractions hstart]
  rfl

/-- Scanning cuts a text into pieces and joins them. -/
theorem scan_eq_joined (s : String) :
    scan s = (checkCover s.utf8ByteSize (pieces 0 s.toList)).map fun _ => joined (pieces 0 s.toList) := by
  unfold scan
  rw [raw_eq_pieces]
  cases h : checkCover s.utf8ByteSize (pieces 0 s.toList) with
  | error e => simp only [h, bind, Except.bind, Except.map]
  | ok u =>
    have hjoined := retouch_eq_joined h (isPiece_of_mem_pieces 0 _) (chars_pieces_of_checkCover h).1
    simp only [h, bind, Except.bind, Except.map, pure, Except.pure, hjoined]

end Token

end ExactCalc
