import Mathlib
import ExactCalc.Rational.Expansion
import ExactCalc.Proofs.Text.Digits

/-!
# Long division

The digits that long division finds, as equations over the natural numbers: an expansion of `rem / den` that ends
after `n` digits has the digits of `rem * 10 ^ n / den`, and one that repeats has reached the same remainder before
and after its period (`Expansion.expands_divide`). The remainders met so far are those of the division, each with
its digit (`Expansion.Trail`).
-/

namespace ExactCalc

open Text

namespace Expansion

def value (digits : List Nat) : Nat := natOfDigits (digitChars digits)

@[simp] theorem length_digitChars (ds : List Nat) : (digitChars ds).length = ds.length := List.length_map ..

theorem digitChars_append (ds es : List Nat) : digitChars (ds ++ es) = digitChars ds ++ digitChars es :=
  List.map_append

theorem value_append (ds es : List Nat) : value (ds ++ es) = value ds * 10 ^ es.length + value es := by
  rw [value, digitChars_append, natOfDigits_append, length_digitChars]
  rfl

theorem value_singleton {d : Nat} (h : d < 10) : value [d] = d := by
  revert d
  decide

theorem digits_digitChars {ds : List Nat} (h : ∀ d ∈ ds, d < 10) : Digits (digitChars ds) := by
  intro c hc
  obtain ⟨d, hd, rfl⟩ := List.mem_map.mp hc
  simp [h d hd]

/-! ## Remainders -/

/-- The remainders of a long division that have been met, with their digits, and the one that is reached. -/
inductive Trail (den rem : Nat) : List (Nat × Nat) → Nat → Prop
  | nil : Trail den rem [] rem
  | cons {trail : List (Nat × Nat)} {r : Nat} : Trail den rem trail r →
      Trail den rem ((r, r * 10 / den) :: trail) (r * 10 % den)

def digitsOf (trail : List (Nat × Nat)) : List Nat := trail.reverse.map Prod.snd

section
variable {den rem r : Nat} {trail : List (Nat × Nat)}

theorem Trail.lt (h : Trail den rem trail r) (hrem : rem < den) : r < den := by
  cases h with
  | nil => exact hrem
  | cons _ => exact Nat.mod_lt _ (by omega)

theorem Trail.digit_lt (h : Trail den rem trail r) (hrem : rem < den) : ∀ d ∈ digitsOf trail, d < 10 := by
  induction h with
  | nil => simp [digitsOf]
  | @cons trail r h ih =>
    have hlt : r * 10 / den < 10 := (Nat.div_lt_iff_lt_mul (by omega)).mpr (by have := h.lt hrem; omega)
    intro d hd
    have hd' : d ∈ digitsOf trail ∨ d = r * 10 / den := by
      simpa [digitsOf, or_comm, List.mem_append, eq_comm] using hd
    rcases hd' with hd' | rfl
    · exact ih d hd'
    · exact hlt

/-- The digits found so far and the remainder that is reached make up the number that is divided. -/
theorem Trail.eq (h : Trail den rem trail r) (hrem : rem < den) :
    rem * 10 ^ trail.length = value (digitsOf trail) * den + r := by
  induction h with
  | nil => simp [digitsOf, value, digitChars, natOfDigits]
  | @cons trail r h ih =>
    have hdigit : r * 10 / den < 10 := (Nat.div_lt_iff_lt_mul (by omega)).mpr (by have := h.lt hrem; omega)
    have hsplit : digitsOf ((r, r * 10 / den) :: trail) = digitsOf trail ++ [r * 10 / den] := by simp [digitsOf]
    have hdiv := Nat.div_add_mod (r * 10) den
    rw [hsplit, value_append, value_singleton hdigit, List.length_cons, List.length_singleton, pow_succ, pow_one,
      ← Nat.mul_assoc, ih]
    nlinarith

theorem Trail.of_append {post pre : List (Nat × Nat)} {x : Nat × Nat} (h : Trail den rem (post ++ x :: pre) r) :
    Trail den rem pre x.1 := by
  induction post generalizing r with
  | nil =>
    cases h with
    | cons h => exact h
  | cons y post ih =>
    cases h with
    | cons h => exact ih h

/-- A remainder that comes back splits the trail where it was first met. -/
theorem exists_split (hmem : trail.any (·.1 == r) = true) :
    ∃ fixed x period, trail.reverse.takeWhile (·.1 ≠ r) = fixed ∧ trail.reverse.dropWhile (·.1 ≠ r) = x :: period ∧
      x.1 = r ∧ trail = period.reverse ++ x :: fixed.reverse := by
  have hsplit := List.takeWhile_append_dropWhile (p := fun y : Nat × Nat => decide (y.1 ≠ r)) (l := trail.reverse)
  cases hdrop : trail.reverse.dropWhile (·.1 ≠ r) with
  | nil =>
    have hall := List.dropWhile_eq_nil_iff.mp hdrop
    obtain ⟨y, hy, heq⟩ := List.any_eq_true.mp hmem
    have hne := hall y (List.mem_reverse.mpr hy)
    simp only [ne_eq, decide_not, Bool.not_eq_true', decide_eq_false_iff_not] at hne
    exact absurd (beq_iff_eq.mp heq) hne
  | cons x period =>
    refine ⟨_, x, period, rfl, rfl, ?_, ?_⟩
    · have hhead := List.head?_dropWhile_not (fun y : Nat × Nat => decide (y.1 ≠ r)) trail.reverse
      rw [hdrop] at hhead
      simpa using hhead
    · rw [hdrop] at hsplit
      have hrev := congrArg List.reverse hsplit
      simpa using hrev.symm

end

/-! ## The expansion -/

/-- What is known of the digits of `rem / den` after the point. -/
def Expands (den rem : Nat) : Expansion → Prop
  | finite ds => (∀ d ∈ ds, d < 10) ∧ ds.length ≤ digitLimit ∧ rem * 10 ^ ds.length = value ds * den
  | recurring fs ps => (∀ d ∈ fs ++ ps, d < 10) ∧ (fs ++ ps).length ≤ digitLimit ∧ ps ≠ [] ∧
      ∃ r, rem * 10 ^ fs.length = value fs * den + r ∧ rem * 10 ^ (fs ++ ps).length = value (fs ++ ps) * den + r
  | cut ds => ∀ d ∈ ds, d < 10

theorem length_digitsOf (trail : List (Nat × Nat)) : (digitsOf trail).length = trail.length := by
  simp [digitsOf]

theorem expands_divide {den rem : Nat} (hrem : rem < den) {left r : Nat} {trail : List (Nat × Nat)}
    (h : Trail den rem trail r) (hlen : trail.length + left ≤ digitLimit) :
    Expands den rem (divide den left r trail) := by
  fun_induction divide den left r trail with
  | case1 left trail =>
    have heq := h.eq hrem
    refine ⟨h.digit_lt hrem, ?_, ?_⟩
    · show (digitsOf trail).length ≤ digitLimit
      rw [length_digitsOf]
      omega
    · show rem * 10 ^ (digitsOf trail).length = value (digitsOf trail) * den
      rw [length_digitsOf, heq, Nat.add_zero]
  | case2 left r trail hr hmem steps =>
    obtain ⟨fixed, x, period, htake, hdrop, hx, htrail⟩ := exists_split hmem
    have hfixed : Trail den rem fixed.reverse r := by
      rw [htrail] at h
      exact hx ▸ h.of_append
    have hfs : (steps.takeWhile (·.1 ≠ r)).map Prod.snd = digitsOf fixed.reverse := by
      rw [htake, digitsOf, List.reverse_reverse]
    have hall : (steps.takeWhile (·.1 ≠ r)).map Prod.snd ++ (steps.dropWhile (·.1 ≠ r)).map Prod.snd =
      digitsOf trail := by
      rw [← List.map_append, List.takeWhile_append_dropWhile]
      rfl
    refine ⟨?_, ?_, ?_, r, ?_, ?_⟩
    · rw [hall]
      exact h.digit_lt hrem
    · rw [hall, length_digitsOf]
      omega
    · rw [hdrop]
      simp
    · rw [hfs, length_digitsOf]
      exact hfixed.eq hrem
    · rw [hall, length_digitsOf]
      exact h.eq hrem
  | case3 r trail hr hmem => exact h.digit_lt hrem
  | case4 r trail hr hmem left ih =>
    refine ih h.cons ?_
    rw [List.length_cons]
    omega

end Expansion

end ExactCalc
