import Mathlib
import ExactCalc.Proofs.Rational.Simplify

/-!
# The convergent that is taken

What the loop of `simplify` computes are the convergents of the continued fraction of the absolute value, in order
and none left out. So it ends with the first one that lies nearer than the tolerance (`EndsAfter.eq_convs`), and there
is one, since the last convergent is the value itself: `simplify_convergent`.

* `EndsAfter` counts the turns of the loop; there are at most as many as the denominator (`exists_endsAfter`).
* `Reaches` is the invariant: the tail that is left is the next complete quotient of the target, and the two pairs
  are its last continuants.
-/

namespace ExactCalc

open GenContFract (IntFractPair)

/-- The loop ends after this many turns, with this result. -/
inductive EndsAfter (t eps : Rat) : (turns num den h₁ h₂ k₁ k₂ : Nat) → Option Rat → Prop
  | exhausted {num h₁ h₂ k₁ k₂ : Nat} : EndsAfter t eps 0 num 0 h₁ h₂ k₁ k₂ none
  | near {num den h₁ h₂ k₁ k₂ : Nat} : 0 < den →
      |mkRat (num / den * h₁ + h₂ : Nat) (num / den * k₁ + k₂) - t| < eps →
      EndsAfter t eps 1 num den h₁ h₂ k₁ k₂ (some (mkRat (num / den * h₁ + h₂ : Nat) (num / den * k₁ + k₂)))
  | far {turns num den h₁ h₂ k₁ k₂ : Nat} {c : Option Rat} : 0 < den →
      eps ≤ |mkRat (num / den * h₁ + h₂ : Nat) (num / den * k₁ + k₂) - t| →
      EndsAfter t eps turns den (num % den) (num / den * h₁ + h₂) h₁ (num / den * k₁ + k₂) k₁ c →
      EndsAfter t eps (turns + 1) num den h₁ h₂ k₁ k₂ c

/-- The state before the turn `n`: the tail that is left is a complete quotient of the target, behind continuants of
its continued fraction. -/
structure Reaches (t : Rat) (n num den h₁ h₂ k₁ k₂ : Nat) : Prop where
  tracks : Tracks t num den h₁ h₂ k₁ k₂
  stream_eq : IntFractPair.stream t n = some (IntFractPair.of (num / den : Rat))
  last : (GenContFract.of t).contsAux n = ⟨h₁, k₁⟩
  next : (GenContFract.of t).contsAux (n + 1) = ⟨(num / den * h₁ + h₂ : Nat), (num / den * k₁ + k₂ : Nat)⟩
  den_eq : num * k₁ + den * k₂ = t.den

section
variable {t eps : Rat} {turns n num den h₁ h₂ k₁ k₂ : Nat} {c : Option Rat}

/-! ## Turns -/

theorem exists_endsAfter (t eps : Rat) (num den h₁ h₂ k₁ k₂ : Nat) :
    ∃ turns ≤ den, EndsAfter t eps turns num den h₁ h₂ k₁ k₂ (nearConvergent? t eps num den h₁ h₂ k₁ k₂) := by
  induction den using Nat.strong_induction_on generalizing num h₁ h₂ k₁ k₂ with
  | _ den ih =>
    rcases Nat.eq_zero_or_pos den with rfl | hden
    · refine ⟨0, le_rfl, ?_⟩
      rw [nearConvergent?, if_pos rfl]
      exact .exhausted
    · rw [nearConvergent?_eq hden]
      split_ifs with hnear
      · exact ⟨1, hden, .near hden hnear⟩
      · have hlt := Nat.mod_lt num hden
        obtain ⟨turns, hle, hends⟩ := ih (num % den) hlt den (num / den * h₁ + h₂) h₁ (num / den * k₁ + k₂) k₁
        exact ⟨turns + 1, by omega, .far hden (not_lt.mp hnear) hends⟩

/-! ## Continuants -/

theorem intFractPair_of_div (num den : Nat) :
    IntFractPair.of (num / den : Rat) = ⟨(num / den : Nat), ((num % den : Nat) : Rat) / den⟩ := by
  rw [IntFractPair.of, Int.fract_div_natCast_eq_div_natCast_mod, Rat.floor_natCast_div_natCast, Int.natCast_div]

theorem natAbs_num_div_den {t : Rat} (ht : 0 ≤ t) : (t.num.natAbs / t.den : Rat) = t := by
  have hnum : ((t.num.natAbs : Int) : Rat) = t.num := by rw [Int.natAbs_of_nonneg (Rat.num_nonneg.mpr ht)]
  rw [← Int.cast_natCast, hnum, Rat.num_div_den]

theorem reaches_init (ht : 0 ≤ t) : Reaches t 0 t.num.natAbs t.den 1 0 0 1 where
  tracks := by
    have htracks := tracks_abs t
    rwa [abs_of_nonneg ht] at htracks
  stream_eq := by
    rw [natAbs_num_div_den ht]
    exact IntFractPair.stream_zero t
  last := rfl
  next := by
    have hfloor := congrArg Int.floor (natAbs_num_div_den ht)
    rw [Rat.floor_natCast_div_natCast] at hfloor
    rw [← Int.natCast_div] at hfloor
    rw [GenContFract.first_contAux_eq_h_one, GenContFract.of_h_eq_floor, ← hfloor, Int.cast_natCast]
    simp
  den_eq := by omega

theorem Reaches.convs_eq (h : Reaches t n num den h₁ h₂ k₁ k₂) :
    (GenContFract.of t).convs n = mkRat (num / den * h₁ + h₂ : Nat) (num / den * k₁ + k₂) := by
  rw [GenContFract.conv_eq_conts_a_div_conts_b, GenContFract.nth_cont_eq_succ_nth_contAux, h.next, Rat.mkRat_eq_div,
    Int.cast_natCast]

theorem Reaches.den_next (h : Reaches t n num den h₁ h₂ k₁ k₂) :
    den * (num / den * k₁ + k₂) + num % den * k₁ = t.den := by
  rw [← h.den_eq]
  nth_rewrite 3 [← Nat.div_add_mod num den]
  ring

theorem Reaches.step (h : Reaches t n num den h₁ h₂ k₁ k₂) (hrem : 0 < num % den) :
    Reaches t (n + 1) den (num % den) (num / den * h₁ + h₂) h₁ (num / den * k₁ + k₂) k₁ := by
  have hden : (0 : Rat) < den := by exact_mod_cast h.tracks.den_pos
  have hrem' : (0 : Rat) < (num % den : Nat) := by exact_mod_cast hrem
  have hstream : IntFractPair.stream t (n + 1) = some (IntFractPair.of (den / (num % den : Nat) : Rat)) := by
    have hne : ((num % den : Nat) : Rat) / den ≠ 0 := (div_pos hrem' hden).ne'
    rw [← inv_div]
    have hn := h.stream_eq
    rw [intFractPair_of_div] at hn
    exact IntFractPair.stream_succ_of_some hn hne
  refine ⟨h.tracks.next hrem, hstream, h.next, ?_, h.den_next⟩
  have hquot := GenContFract.get?_of_eq_some_of_succ_get?_intFractPair_stream hstream
  rw [intFractPair_of_div] at hquot
  rw [GenContFract.contsAux_recurrence hquot h.last h.next]
  simp only [Nat.cast_add, Nat.cast_mul, Int.cast_natCast, one_mul]

theorem Reaches.eq_of_rem_eq_zero (h : Reaches t n num den h₁ h₂ k₁ k₂) (hrem : num % den = 0) :
    mkRat (num / den * h₁ + h₂ : Nat) (num / den * k₁ + k₂) = t := by
  have hdist := h.tracks.dist
  rw [hrem, Nat.cast_zero, zero_div, abs_eq_zero, sub_eq_zero] at hdist
  exact hdist

theorem Reaches.den_convs_le (h : Reaches t n num den h₁ h₂ k₁ k₂) :
    ((GenContFract.of t).convs n).den ≤ t.den := by
  have hdvd : ((GenContFract.of t).convs n).den ∣ num / den * k₁ + k₂ := by
    rw [h.convs_eq, ← Rat.divInt_ofNat]
    exact_mod_cast Rat.den_dvd (num / den * h₁ + h₂ : Nat) (num / den * k₁ + k₂ : Nat)
  calc ((GenContFract.of t).convs n).den
      ≤ num / den * k₁ + k₂ := Nat.le_of_dvd h.tracks.pos hdvd
    _ ≤ den * (num / den * k₁ + k₂) := Nat.le_mul_of_pos_left _ h.tracks.den_pos
    _ ≤ t.den := by
      rw [← h.den_next]
      exact Nat.le_add_right _ _

/-! ## The run -/

/-- With a positive tolerance the loop ends with the first convergent that is near enough; the number of turns is
its place. -/
theorem EndsAfter.eq_convs (heps : 0 < eps) (hends : EndsAfter t eps turns num den h₁ h₂ k₁ k₂ c)
    (h : Reaches t n num den h₁ h₂ k₁ k₂) :
    ∃ m, turns = m + 1 ∧ c = some ((GenContFract.of t).convs (n + m)) ∧
      |(GenContFract.of t).convs (n + m) - t| < eps ∧ ((GenContFract.of t).convs (n + m)).den ≤ t.den ∧
      ∀ j < m, eps ≤ |(GenContFract.of t).convs (n + j) - t| := by
  induction hends generalizing n with
  | exhausted => exact absurd h.tracks.den_pos (lt_irrefl 0)
  | near _ hnear =>
    rw [← h.convs_eq] at hnear ⊢
    exact ⟨0, rfl, rfl, hnear, h.den_convs_le, fun j hj => absurd hj (Nat.not_lt_zero j)⟩
  | @far turns num den h₁ h₂ k₁ k₂ c hden hfar _ ih =>
    have hrem : 0 < num % den := by
      refine Nat.pos_of_ne_zero fun hzero => ?_
      rw [h.eq_of_rem_eq_zero hzero, sub_self, abs_zero] at hfar
      exact absurd heps (not_lt.mpr hfar)
    obtain ⟨m, rfl, rfl, hnear, hle, hbefore⟩ := ih (h.step hrem)
    have hplace : ∀ i, n + 1 + i = n + (i + 1) := fun i => by omega
    simp only [hplace] at hnear hle hbefore ⊢
    refine ⟨m + 1, rfl, rfl, hnear, hle, fun j hj => ?_⟩
    cases j with
    | zero =>
      rw [← h.convs_eq] at hfar
      exact hfar
    | succ j => exact hbefore j (by omega)

end

/-! ## Simplifying -/

/-- The result for a positive tolerance is the first convergent of the absolute value that is near enough, with the
sign put back. -/
theorem exists_simplify_eq_convs {eps : Rat} (heps : 0 < eps) (r : Rat) :
    ∃ n, simplify r eps = (if r < 0 then -(GenContFract.of |r|).convs n else (GenContFract.of |r|).convs n) ∧
      |(GenContFract.of |r|).convs n - (|r|)| < eps ∧ ((GenContFract.of |r|).convs n).den ≤ r.den ∧
      ∀ m < n, eps ≤ |(GenContFract.of |r|).convs m - (|r|)| := by
  obtain ⟨turns, -, hends⟩ := exists_endsAfter |r| eps r.num.natAbs r.den 1 0 0 1
  have hinit := reaches_init (abs_nonneg r)
  rw [Rat.num_abs_eq_abs_num, Int.natAbs_abs, Rat.den_abs_eq_den] at hinit
  obtain ⟨n, -, hrun, hnear, hle, hbefore⟩ := hends.eq_convs heps hinit
  simp only [Nat.zero_add, Rat.den_abs_eq_den] at hrun hnear hle hbefore
  exact ⟨n, by simp only [simplify, rat_abs_eq, hrun], hnear, hle, hbefore⟩

/-- The loop ends. A tolerance that is not positive changes nothing; for a positive one the result is, with the sign put
back, the first convergent that lies nearer than it, and its denominator is not larger. The sign plays no part. -/
theorem simplify_convergent (r eps : Rat) :
    (∃ turns ≤ r.den, EndsAfter |r| eps turns r.num.natAbs r.den 1 0 0 1
      (nearConvergent? |r| eps r.num.natAbs r.den 1 0 0 1)) ∧
    (eps ≤ 0 → simplify r eps = r) ∧
    (0 < eps → |simplify r eps - r| < eps ∧ (simplify r eps).den ≤ r.den ∧
      ∃ n, simplify r eps = (if r < 0 then -(GenContFract.of |r|).convs n else (GenContFract.of |r|).convs n) ∧
        ∀ m < n, eps ≤ |(GenContFract.of |r|).convs m - (|r|)|) ∧
    simplify (-r) eps = -simplify r eps := by
  refine ⟨exists_endsAfter _ _ _ _ _ _ _ _, fun heps => simplify_of_nonpos heps r, fun heps => ?_, simplify_neg r eps⟩
  obtain ⟨n, heq, hnear, hle, hbefore⟩ := exists_simplify_eq_convs heps r
  refine ⟨?_, ?_, n, heq, hbefore⟩
  · rw [heq]
    split_ifs with hneg
    · rw [abs_of_neg hneg] at hnear ⊢
      rwa [← abs_neg, neg_sub', neg_neg]
    · rwa [abs_of_nonneg (not_lt.mp hneg)] at hnear ⊢
  · rw [heq]
    split_ifs
    · rwa [Rat.neg_den]
    · exact hle

theorem simplify_convergent_fraction :
    0 < mkRat 1 100 ∧ simplify (mkRat (-355) 113) (mkRat 1 100) = mkRat (-22) 7 ∧
      (|simplify (mkRat (-355) 113) (mkRat 1 100) - mkRat (-355) 113| < mkRat 1 100 ∧
        (simplify (mkRat (-355) 113) (mkRat 1 100)).den ≤ (mkRat (-355) 113).den ∧
        ∃ n, simplify (mkRat (-355) 113) (mkRat 1 100) = (if mkRat (-355) 113 < 0 then
            -(GenContFract.of |mkRat (-355) 113|).convs n else (GenContFract.of |mkRat (-355) 113|).convs n) ∧
          ∀ m < n, mkRat 1 100 ≤ |(GenContFract.of |mkRat (-355) 113|).convs m - (|mkRat (-355) 113|)|) ∧
      -1 ≤ (0 : Rat) ∧ simplify (mkRat (-355) 113) (-1) = mkRat (-355) 113 := by
  have hpos : 0 < mkRat 1 100 := by decide
  have hneg : (-1 : Rat) ≤ 0 := by norm_num
  exact ⟨hpos, by cbv, (simplify_convergent _ _).2.2.1 hpos, hneg, (simplify_convergent _ (-1)).2.1 hneg⟩

end ExactCalc
