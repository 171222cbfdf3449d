import Mathlib
import ExactCalc.Text.Blank
import ExactCalc.Text.Digit

/-!
# Digits and white space

No character is both. `Digits` are the texts of ASCII digits, which the readers of numbers take off the front
of a text as long as there are any.
-/

namespace ExactCalc

open Text

theorem Text.isDigit_of_isBlank {c : Char} (h : isBlank c = true) : isDigit c = false := by
  have hn : c.toNat ∈ [9, 10, 11, 12, 13, 0x20, 0x85, 0xa0, 0x1680, 0x2000, 0x2001, 0x2002, 0x2003, 0x2004,
      0x2005, 0x2006, 0x2007, 0x2008, 0x2009, 0x200a, 0x2028, 0x2029, 0x202f, 0x205f, 0x3000] := by
    simp only [isBlank, Bool.or_eq_true, Bool.and_eq_true, decide_eq_true_eq, beq_iff_eq] at h
    simp only [List.mem_cons, List.not_mem_nil, or_false]
    omega
  unfold isDigit
  generalize c.toNat = n at hn
  revert n
  decide

theorem Text.isBlank_eq_false_of_isDigit {c : Char} (h : isDigit c = true) : isBlank c = false := by
  by_contra hb
  rw [isDigit_of_isBlank (by simpa using hb)] at h
  simp at h

theorem Text.ne_of_isBlank {c d : Char} (hc : isBlank c = true) (hd : isBlank d = false) : c ≠ d := by
  rintro rfl
  rw [hc] at hd
  simp at hd

theorem Text.isAsciiDigit_of_isDigit {c : Char} (hc : c.toNat < 128) (h : isDigit c = true) :
    isAsciiDigit c = true := by
  simp only [isDigit, hc, if_true, Bool.and_eq_true, decide_eq_true_eq] at h
  simpa [isAsciiDigit, Char.isDigit, UInt32.le_iff_toNat_le] using h

theorem Text.trim_eq_self {s : String} (h : ∀ c ∈ s.toList, isBlank c = false) : trim s = s := by
  have hdrop : ∀ {cs : List Char}, (∀ c ∈ cs, isBlank c = false) → cs.dropWhile isBlank = cs := by
    intro cs hcs
    cases cs with
    | nil => rfl
    | cons c cs => exact List.dropWhile_cons_of_neg (by simp [hcs c List.mem_cons_self])
  have hreverse : ∀ c ∈ s.toList.reverse, isBlank c = false := fun c hc => h c (List.mem_reverse.mp hc)
  rw [trim, trimBlanks, hdrop h, hdrop hreverse, List.reverse_reverse, String.ofList_toList]

/-- ASCII digits only. -/
def Digits (cs : List Char) : Prop := ∀ c ∈ cs, isAsciiDigit c = true

theorem Digits.isDigit {cs : List Char} (h : Digits cs) : ∀ c ∈ cs, isDigit c = true :=
  fun c hc => isDigit_of_isAsciiDigit (h c hc)

theorem Digits.areAsciiDigits {cs : List Char} (h : Digits cs) : areAsciiDigits cs = true :=
  List.all_eq_true.mpr h

theorem Digits.ascii {cs : List Char} (h : Digits cs) : ∀ c ∈ cs, c.toNat < 128 := by
  intro c hc
  have hdigit := h c hc
  simp only [isAsciiDigit, Char.isDigit, Bool.and_eq_true, decide_eq_true_eq, UInt32.le_iff_toNat_le] at hdigit
  have hle : c.toNat ≤ 57 := hdigit.2
  omega

theorem digits_of_ascii {ds cs : List Char} (hcs : ∀ c ∈ cs, c.toNat < 128) (hsub : ds ⊆ cs)
    (hd : ∀ c ∈ ds, Text.isDigit c = true) : Digits ds :=
  fun c hc => isAsciiDigit_of_isDigit (hcs c (hsub hc)) (hd c hc)

theorem digits_singleton {d : Char} (h : isAsciiDigit d = true) : Digits [d] := List.forall_mem_singleton.mpr h

/-! ## The number that digits stand for -/

theorem natOfDigits_append (cs ds : List Char) :
    natOfDigits (cs ++ ds) = natOfDigits cs * 10 ^ ds.length + natOfDigits ds := by
  rw [natOfDigits, Nat.ofDigitChars_append, Nat.ofDigitChars_eq_ofDigitChars_zero, Nat.mul_comm]
  rfl

theorem natOfDigits_replicate_zero (k : Nat) : natOfDigits (List.replicate k '0') = 0 := by
  rw [natOfDigits, Nat.ofDigitChars_replicate_zero, Nat.mul_zero]

theorem natOfDigits_singleton (c : Char) : natOfDigits [c] = c.toNat - 48 := by
  rw [natOfDigits, Nat.ofDigitChars_cons, Nat.ofDigitChars_nil, Nat.mul_zero, Nat.zero_add]
  rfl

theorem natOfDigits_singleton_lt {c : Char} (h : isAsciiDigit c = true) : natOfDigits [c] < 10 := by
  simp only [isAsciiDigit, Char.isDigit, Bool.and_eq_true, decide_eq_true_eq, UInt32.le_iff_toNat_le] at h
  have hle : c.toNat ≤ 57 := h.2
  rw [natOfDigits_singleton]
  omega

theorem natOfDigits_singleton_eq_zero_iff {c : Char} (h : isAsciiDigit c = true) : natOfDigits [c] = 0 ↔ c = '0' := by
  simp only [isAsciiDigit, Char.isDigit, Bool.and_eq_true, decide_eq_true_eq, UInt32.le_iff_toNat_le] at h
  have hge : 48 ≤ c.toNat := h.1
  rw [natOfDigits_singleton, ← Char.toNat_inj, show '0'.toNat = 48 from rfl]
  omega

theorem eq_of_natOfDigits_singleton {c d : Char} (hc : isAsciiDigit c = true) (hd : isAsciiDigit d = true)
    (h : natOfDigits [c] = natOfDigits [d]) : c = d := by
  simp only [isAsciiDigit, Char.isDigit, Bool.and_eq_true, decide_eq_true_eq, UInt32.le_iff_toNat_le] at hc hd
  have hgec : 48 ≤ c.toNat := hc.1
  have hged : 48 ≤ d.toNat := hd.1
  rw [natOfDigits_singleton, natOfDigits_singleton] at h
  rw [← Char.toNat_inj]
  omega

theorem Digits.natOfDigits_lt {cs : List Char} (h : Digits cs) : natOfDigits cs < 10 ^ cs.length := by
  induction cs with
  | nil => decide
  | cons c cs ih =>
    obtain ⟨hc, hcs⟩ := List.forall_mem_cons.mp h
    have hhead := natOfDigits_singleton_lt hc
    have htail := ih hcs
    have hmul : natOfDigits [c] * 10 ^ cs.length ≤ 9 * 10 ^ cs.length := Nat.mul_le_mul_right _ (by omega)
    rw [← List.singleton_append, natOfDigits_append, List.length_append, List.length_singleton, pow_add]
    omega

theorem Digits.eq_of_natOfDigits {cs ds : List Char} (hcs : Digits cs) (hds : Digits ds)
    (hlen : cs.length = ds.length) (h : natOfDigits cs = natOfDigits ds) : cs = ds := by
  induction cs generalizing ds with
  | nil => exact (List.length_eq_zero_iff.mp hlen.symm).symm
  | cons c cs ih =>
    cases ds with
    | nil => simp at hlen
    | cons d ds =>
      obtain ⟨hc, (hcs : Digits cs)⟩ := List.forall_mem_cons.mp hcs
      obtain ⟨hd, (hds : Digits ds)⟩ := List.forall_mem_cons.mp hds
      have hlen' : cs.length = ds.length := Nat.succ.inj hlen
      rw [← List.singleton_append, ← List.singleton_append (l := ds), natOfDigits_append, natOfDigits_append,
        ← hlen'] at h
      have hltd := hds.natOfDigits_lt
      rw [← hlen'] at hltd
      have htail : natOfDigits cs = natOfDigits ds := by
        have hmod := congrArg (· % 10 ^ cs.length) h
        simpa [Nat.mod_eq_of_lt hcs.natOfDigits_lt, Nat.mod_eq_of_lt hltd] using hmod
      have hhead : natOfDigits [c] = natOfDigits [d] := by
        rw [htail] at h
        exact Nat.eq_of_mul_eq_mul_right (by positivity) (Nat.add_right_cancel h)
      rw [ih hcs hds hlen' htail, eq_of_natOfDigits_singleton hc hd hhead]

theorem Digits.natOfDigits_eq_zero_iff {cs : List Char} (h : Digits cs) : natOfDigits cs = 0 ↔ ∀ c ∈ cs, c = '0' := by
  induction cs with
  | nil => simp [natOfDigits]
  | cons c cs ih =>
    obtain ⟨hc, hcs⟩ := List.forall_mem_cons.mp h
    have hpow : 10 ^ cs.length ≠ 0 := by positivity
    rw [← List.singleton_append, natOfDigits_append, Nat.add_eq_zero_iff, Nat.mul_eq_zero, or_iff_left hpow,
      natOfDigits_singleton_eq_zero_iff hc, ih hcs, List.singleton_append, List.forall_mem_cons]

theorem natOfDigits_rdropWhile (whole fraction : List Char) :
    (natOfDigits (whole ++ fraction.rdropWhile (· == '0')) : Rat) / 10 ^ (fraction.rdropWhile (· == '0')).length =
      natOfDigits (whole ++ fraction) / 10 ^ fraction.length := by
  set kept := fraction.rdropWhile (· == '0') with hkept
  obtain ⟨k, hk⟩ : ∃ k, fraction = kept ++ List.replicate k '0' := by
    refine ⟨(fraction.rtakeWhile (· == '0')).length, ?_⟩
    have hzeros : fraction.rtakeWhile (· == '0') = List.replicate (fraction.rtakeWhile (· == '0')).length '0' :=
      List.eq_replicate_of_mem fun c hc => by simpa using List.mem_rtakeWhile_imp hc
    rw [← hzeros, hkept, List.rdropWhile_append_rtakeWhile]
  have hten : (10 : Rat) ^ k ≠ 0 := by positivity
  rw [hk, ← List.append_assoc, natOfDigits_append (whole ++ kept), natOfDigits_replicate_zero, Nat.add_zero,
    List.length_append, List.length_replicate, pow_add]
  push_cast
  exact (mul_div_mul_right _ _ hten).symm

/-! ## Signs -/

theorem Digits.head?_append_ne {cs rest : List Char} (hcs : Digits cs) (h : cs ≠ [] ∨ rest.head? ≠ some '-') :
    (cs ++ rest).head? ≠ some '-' := by
  cases cs with
  | nil => exact h.resolve_left (absurd rfl)
  | cons c cs =>
    simp only [List.cons_append, List.head?_cons, ne_eq, Option.some.injEq]
    rintro rfl
    exact absurd (hcs '-' (by simp)) (by decide)

theorem head?_signed {negative : Bool} {body : List Char} (h : body.head? ≠ some '-') :
    (((if negative then ['-'] else []) ++ body).head? == some '-') = negative := by
  cases negative <;> simp [h]

theorem body_signed (negative : Bool) (body : List Char) :
    (if negative then ((if negative then ['-'] else []) ++ body).tail else (if negative then ['-'] else []) ++ body) =
      body := by
  cases negative <;> rfl

/-! ## Where the digits end -/

section
variable {p : Char → Bool} {cs rest : List Char}

theorem head?_cons_stop {c : Char} (hc : p c = false) : ∀ d ∈ (c :: rest).head?, p d = false := by
  rintro d ⟨⟩
  exact hc

theorem takeWhile_append_stop (hcs : ∀ c ∈ cs, p c = true) (hrest : ∀ c ∈ rest.head?, p c = false) :
    (cs ++ rest).takeWhile p = cs := by
  rw [List.takeWhile_append_of_pos hcs]
  cases rest with
  | nil => simp
  | cons c r => simp [hrest c rfl]

theorem dropWhile_append_stop (hcs : ∀ c ∈ cs, p c = true) (hrest : ∀ c ∈ rest.head?, p c = false) :
    (cs ++ rest).dropWhile p = rest := by
  rw [List.dropWhile_append_of_pos hcs]
  cases rest with
  | nil => rfl
  | cons c r => simp [hrest c rfl]

/-- A text is cut in one way only where characters of one kind end. -/
theorem append_inj_of_stop {cs' rest' : List Char} (hcs : ∀ c ∈ cs, p c = true) (hcs' : ∀ c ∈ cs', p c = true)
    (hrest : ∀ c ∈ rest.head?, p c = false) (hrest' : ∀ c ∈ rest'.head?, p c = false)
    (h : cs ++ rest = cs' ++ rest') : cs = cs' ∧ rest = rest' := by
  have htake := congrArg (List.takeWhile p) h
  rw [takeWhile_append_stop hcs hrest, takeWhile_append_stop hcs' hrest'] at htake
  subst htake
  exact ⟨rfl, List.append_cancel_left h⟩

end

end ExactCalc
