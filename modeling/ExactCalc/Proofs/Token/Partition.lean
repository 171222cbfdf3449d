import Mathlib
import ExactCalc.Proofs.Token.Cover

/-!
# The places of tokens

The tokens of a text partition it: each of them is cut out of the text by its byte offsets, they stand one behind the
other, and what none of them holds is white space (`scan_partition`).

`LiesIn` are the tokens in place within their text, with the white space around them, and the pointwise results are
inductions on it.
-/

namespace ExactCalc

open Text

namespace Token

/-! ## Tokens in their text -/

/-- The tokens stand in the characters from a byte offset on, with white space around them only. -/
inductive LiesIn : Nat → List Token → List Char → Prop
  | nil {pos : Nat} {gap : List Char} : (∀ c ∈ gap, isBlank c = true) → LiesIn pos [] gap
  | cons {pos : Nat} {gap cs : List Char} {t : Token} {ts : List Token} : (∀ c ∈ gap, isBlank c = true) →
      t.start = pos + byteLength gap → LiesIn t.stop ts cs → LiesIn pos (t :: ts) (gap ++ (t.text.toList ++ cs))

theorem liesIn_of_inPlace {pos : Nat} {ls : List Lexeme} {trail : List Char} (h : InPlace pos ls)
    (hls : ∀ l ∈ ls, ∀ c ∈ l.lead.toList, isBlank c = true) (htrail : ∀ c ∈ trail, isBlank c = true) :
    LiesIn pos (ls.map (·.token)) (ls.flatMap Lexeme.chars ++ trail) := by
  induction ls generalizing pos with
  | nil => exact .nil htrail
  | cons l ls ih =>
    obtain ⟨hl, hrest⟩ := List.forall_mem_cons.mp hls
    rw [List.flatMap_cons, Lexeme.chars, List.append_assoc, List.append_assoc]
    exact .cons hl h.1 (ih h.2 hrest)

theorem liesIn_of_scan {s : String} {ts : List Token} (h : scan s = .ok ts) : LiesIn 0 ts s.toList := by
  obtain ⟨hcheck, rfl⟩ := checkCover_of_scan h
  obtain ⟨trail, htrail, htext⟩ := exists_trail_joined hcheck
  have hplace : InPlace 0 (lexemes "" (pieces 0 s.toList)) := by
    rw [(eq_laid_of_checkCover hcheck).1]
    exact inPlace_lexemes "" 0 _
  have hlies := liesIn_of_inPlace hplace.joinFractions.joinSigns (fun l hl => (isScanned_joined s l hl).1) htrail
  rwa [← htext] at hlies

section
variable {pos : Nat} {ts : List Token} {cs : List Char}

theorem LiesIn.le_start (h : LiesIn pos ts cs) : ∀ t ∈ ts, pos ≤ t.start := by
  induction h with
  | nil _ => simp
  | @cons pos gap cs t ts _ hstart _ ih =>
    refine List.forall_mem_cons.mpr ⟨by omega, fun u hu => ?_⟩
    have hle : t.stop ≤ u.start := ih u hu
    rw [stop_eq] at hle
    omega

theorem LiesIn.pairwise (h : LiesIn pos ts cs) : ts.Pairwise (fun t u => t.stop ≤ u.start) := by
  induction h with
  | nil _ => exact .nil
  | cons _ _ h ih => exact .cons h.le_start ih

theorem LiesIn.exists_split (h : LiesIn pos ts cs) : ∀ t ∈ ts, ∃ before after,
    cs = before ++ (t.text.toList ++ after) ∧ t.start = pos + byteLength before := by
  induction h with
  | nil _ => simp
  | @cons pos gap cs t ts _ hstart _ ih =>
    refine List.forall_mem_cons.mpr ⟨⟨gap, cs, rfl, hstart⟩, fun u hu => ?_⟩
    obtain ⟨before, after, rfl, hu⟩ := ih u hu
    refine ⟨gap ++ (t.text.toList ++ before), after, by simp, ?_⟩
    rw [hu, stop_eq, hstart, byteLength_append, byteLength_append]
    omega

end

/-- The token holds the character at the byte offset. -/
def Holds (t : Token) (offset : Nat) (c : Char) : Prop := t.start ≤ offset ∧ offset + c.utf8Size ≤ t.stop

theorem split_cases {xs ys pre post : List Char} {c : Char} (h : pre ++ c :: post = xs ++ ys) :
    (∃ mid, xs = pre ++ c :: mid) ∨ ∃ mid, pre = xs ++ mid ∧ mid ++ c :: post = ys := by
  obtain ⟨mid, rfl, hmid⟩ | ⟨mid, rfl, rfl⟩ := List.append_eq_append_iff.mp h
  · cases mid with
    | nil => exact .inr ⟨[], by simp, hmid⟩
    | cons d mid =>
      obtain ⟨rfl, -⟩ := List.cons.inj hmid
      exact .inl ⟨mid, rfl⟩
  · exact .inr ⟨mid, rfl, rfl⟩

/-- A character is held by a token, or it is white space that no token holds. -/
theorem LiesIn.holds_or_blank {pos : Nat} {ts : List Token} {pre post : List Char} {c : Char}
    (h : LiesIn pos ts (pre ++ c :: post)) :
    (∃ t ∈ ts, t.Holds (pos + byteLength pre) c) ∨
      isBlank c = true ∧ ∀ t ∈ ts, ¬ t.Holds (pos + byteLength pre) c := by
  generalize hcs : pre ++ c :: post = cs at h
  have hsize := Char.utf8Size_pos c
  induction h generalizing pre with
  | @nil pos gap hgap => exact .inr ⟨hgap c (by simp [← hcs]), by simp⟩
  | @cons pos gap cs t ts hgap hstart hts ih =>
    have hstop := t.stop_eq
    obtain ⟨mid, rfl⟩ | ⟨mid, rfl, hmid⟩ := split_cases hcs
    · -- in the white space before the token, so before every token
      refine .inr ⟨hgap c (by simp), ?_⟩
      have hafter : pos + byteLength pre < t.start := by
        rw [hstart, byteLength_append, byteLength]
        omega
      refine List.forall_mem_cons.mpr ⟨fun hheld => ?_, fun u hu hheld => ?_⟩
      · exact absurd hheld.1 (by omega)
      · have hle := hts.le_start u hu
        exact absurd hheld.1 (by omega)
    · obtain ⟨inner, hinner⟩ | ⟨inner, rfl, hrest⟩ := split_cases hmid
      · refine .inl ⟨t, List.mem_cons_self, ?_, ?_⟩
        · rw [hstart, byteLength_append]
          omega
        · rw [hstop, hinner, hstart, byteLength_append, byteLength_append, byteLength]
          omega
      · -- behind the token
        have hoffset : pos + byteLength (gap ++ (t.text.toList ++ inner)) = t.stop + byteLength inner := by
          rw [hstop, hstart, byteLength_append, byteLength_append]
          omega
        rw [hoffset]
        obtain ⟨u, hu, hheld⟩ | ⟨hblank, hnone⟩ := ih hrest
        · exact .inl ⟨u, List.mem_cons_of_mem _ hu, hheld⟩
        · refine .inr ⟨hblank, List.forall_mem_cons.mpr ⟨fun hheld => ?_, hnone⟩⟩
          exact absurd hheld.2 (by omega)

theorem LiesIn.eq_of_holds {pos offset : Nat} {ts : List Token} {cs : List Char} {c : Char} (h : LiesIn pos ts cs)
    {t u : Token} (ht : t ∈ ts) (hu : u ∈ ts) (htc : t.Holds offset c) (huc : u.Holds offset c) : t = u := by
  by_contra hne
  have happart : ts.Pairwise (fun t u => t.stop ≤ u.start ∨ u.stop ≤ t.start) := h.pairwise.imp .inl
  have hsymm : Std.Symm (fun t u : Token => t.stop ≤ u.start ∨ u.stop ≤ t.start) := ⟨fun _ _ => Or.symm⟩
  have hsize := Char.utf8Size_pos c
  obtain ⟨hstart, hstop⟩ := htc
  obtain ⟨hstart', hstop'⟩ := huc
  rcases happart.forall ht hu hne with hle | hle <;> omega

/-! ## Shapes -/

/-- What the text of a token of its kind may be. -/
def HasShape (t : Token) : Prop :=
  match t.kind with
  | .blank => False
  | .opening => t.text = "("
  | .closing => t.text = ")"
  | .operation => t.text ∈ ["+", "-", "*", "x", "/", "%"]
  | .numeric => ∃ sign w, t.text.toList = sign ++ w ∧ ScannedBody w ∧
      (sign = [] ∨ ∃ gap, sign = '-' :: gap ∧ ∀ c ∈ gap, isBlank c = true)

theorem IsScanned.hasShape {t : Token} (h : t.IsScanned) : t.HasShape := by
  unfold HasShape
  cases h with
  | @symbol c hc ht =>
    rw [ht]
    obtain ⟨hk, rfl⟩ | ⟨hk, rfl⟩ | ⟨hk, hmem⟩ := symbolKind?_cases hc
    · rw [hk]
      rfl
    · rw [hk]
      rfl
    · rw [hk]
      simp only [List.mem_cons, List.not_mem_nil, or_false] at hmem
      rcases hmem with rfl | rfl | rfl | rfl | rfl | rfl <;> decide
  | @numeric w hk hw ht =>
    rw [hk]
    obtain ht | ⟨gap, hgap, ht⟩ := ht
    · exact ⟨[], w, ht, hw, .inl rfl⟩
    · exact ⟨'-' :: gap, w, ht, hw, .inr ⟨gap, rfl, hgap⟩⟩

theorem IsScanned.start_lt_stop {t : Token} (h : t.IsScanned) : t.start < t.stop := by
  obtain ⟨c, cs, htext, -⟩ := h.exists_head
  have hsize : 0 < byteLength (c :: cs) := Nat.add_pos_left (Char.utf8Size_pos c) _
  rw [stop_eq, htext]
  exact Nat.lt_add_of_pos_right hsize

/-! ## The partition -/

/-- The tokens of a text are cut out of it by their offsets, in order and apart. Every character is in exactly one of
them, or it is white space between them. Each token has the shape of its kind, and the parentheses balance in number. -/
theorem scan_partition {s : String} {ts : List Token} (h : scan s = .ok ts) :
    (∀ t ∈ ts, t.start < t.stop ∧ ofSpan? s t.kind t.start t.stop = some t) ∧
      ts.Pairwise (fun t u => t.stop ≤ u.start) ∧
      (∀ pre c post, s.toList = pre ++ c :: post →
        (∃! t, t ∈ ts ∧ t.Holds (byteLength pre) c) ∨
          isBlank c = true ∧ ∀ t ∈ ts, ¬ t.Holds (byteLength pre) c) ∧
      (∀ t ∈ ts, t.HasShape) ∧ count .opening ts = count .closing ts := by
  have hlies := liesIn_of_scan h
  have hscanned := (scan_spells h).2
  refine ⟨fun t ht => ⟨(hscanned t ht).start_lt_stop, ?_⟩, hlies.pairwise, ?_,
    fun t ht => (hscanned t ht).hasShape, count_of_scan h⟩
  · obtain ⟨before, after, hs, hstart⟩ := hlies.exists_split t ht
    exact ofSpan?_eq hs (by rw [hstart, Nat.zero_add])
  · intro pre c post hs
    have hcases := (hs ▸ hlies).holds_or_blank
    rw [Nat.zero_add] at hcases
    refine hcases.imp_left ?_
    rintro ⟨t, ht, hheld⟩
    exact ⟨t, ⟨ht, hheld⟩, fun u hu => hlies.eq_of_holds hu.1 ht hu.2 hheld⟩

/-- White space and a digit of several bytes; a fraction and a sign are joined across white space. -/
theorem scan_partition_product :
    let ts : List Token := [⟨.numeric, 0, "12 .5"⟩, ⟨.operation, 6, "x"⟩, ⟨.opening, 9, "("⟩,
      ⟨.numeric, 10, "-\u3000\u0663"⟩, ⟨.closing, 16, ")"⟩]
    scan "12 .5 x\u00a0(-\u3000\u0663)" = .ok ts ∧
      (∀ pre c post, "12 .5 x\u00a0(-\u3000\u0663)".toList = pre ++ c :: post →
        (∃! t, t ∈ ts ∧ t.Holds (byteLength pre) c) ∨
          isBlank c = true ∧ ∀ t ∈ ts, ¬ t.Holds (byteLength pre) c) ∧
      ∀ t ∈ ts, t.HasShape := by
  intro ts
  have hscan : scan "12 .5 x\u00a0(-\u3000\u0663)" = .ok ts := by cbv
  obtain ⟨-, -, hcover, hshape, -⟩ := scan_partition hscan
  exact ⟨hscan, hcover, hshape⟩

end Token

end ExactCalc
