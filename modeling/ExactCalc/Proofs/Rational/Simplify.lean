import Mathlib
import ExactCalc.Rational.Simplest

/-!
# Simplifying twice

`simplify` takes the first convergent that is near enough; simplifying that one again gives it back
(`simplify_simplify`). The second run computes the same convergents as the first, since a convergent has the
same quotients as the rational up to its own; what has to be shown is that those before it, too far from the
rational, are too far from the convergent as well.

* `blend` is the value of a tail `p / q` behind two convergents, and `blend_dist` its distance from a convergent.
* `Tracks` is the invariant of the loop: the target is the value of the tail that is left.
* `Rerun` is what is known of a tail `p / q` of the result, so that the second run ends with it.
-/

namespace ExactCalc

/-! ## Convergents -/

theorem rat_abs_eq (r : Rat) : r.abs = |r| := by
  unfold Rat.abs
  split_ifs with h
  · rw [abs_of_nonneg h]
  · rw [abs_of_neg (not_le.mp h)]

/-- The value of the tail `p / q` behind the convergents `h₁ / k₁` and `h₂ / k₂`. -/
def blend (h₁ h₂ k₁ k₂ p q : Nat) : Rat := mkRat (p * h₁ + q * h₂ : Nat) (p * k₁ + q * k₂)

theorem blend_dist {h h₁ k k₁ p q : Nat} (hk : 0 < k) (hpos : 0 < p * k + q * k₁)
    (hdet : |(h * k₁ - h₁ * k : Int)| = 1) :
    |mkRat h k - blend h h₁ k k₁ p q| = (q : Rat) / (k * (p * k + q * k₁ : Nat)) := by
  have hk' : (0 : Rat) < k := by exact_mod_cast hk
  have hpos' : (0 : Rat) < (p * k + q * k₁ : Nat) := by exact_mod_cast hpos
  have hdet' : |(h * k₁ - h₁ * k : Rat)| = 1 := by exact_mod_cast hdet
  have hdiff : mkRat h k - blend h h₁ k k₁ p q =
      q * (h * k₁ - h₁ * k) / (k * (p * k + q * k₁ : Nat)) := by
    rw [blend, Rat.mkRat_eq_div, Rat.mkRat_eq_div]
    push_cast at hpos' ⊢
    rw [div_sub_div _ _ hk'.ne' hpos'.ne']
    congr 1
    ring
  rw [hdiff, abs_div, abs_mul, hdet', mul_one, abs_of_nonneg (by positivity), abs_of_pos (by positivity)]

/-! ## The loop -/

/-- The target is the value of the tail that is left, behind two neighbouring convergents. -/
structure Tracks (t : Rat) (num den h₁ h₂ k₁ k₂ : Nat) : Prop where
  den_pos : 0 < den
  value : t = blend h₁ h₂ k₁ k₂ num den
  det : |(h₁ * k₂ - h₂ * k₁ : Int)| = 1
  pos : 0 < num / den * k₁ + k₂

section
variable {t eps c : Rat} {num den h₁ h₂ k₁ k₂ : Nat}

theorem Tracks.det_next (hst : Tracks t num den h₁ h₂ k₁ k₂) :
    |((num / den * h₁ + h₂ : Nat) * k₁ - h₁ * (num / den * k₁ + k₂ : Nat) : Int)| = 1 := by
  rw [← hst.det, abs_sub_comm]
  congr 1
  push_cast
  ring

theorem Tracks.value_next (hst : Tracks t num den h₁ h₂ k₁ k₂) :
    t = blend (num / den * h₁ + h₂) h₁ (num / den * k₁ + k₂) k₁ den (num % den) := by
  have hdiv := Nat.div_add_mod num den
  have hnum : den * (num / den * h₁ + h₂) + num % den * h₁ = num * h₁ + den * h₂ := by
    nth_rewrite 3 [← hdiv]
    ring
  have hden : den * (num / den * k₁ + k₂) + num % den * k₁ = num * k₁ + den * k₂ := by
    nth_rewrite 3 [← hdiv]
    ring
  rw [hst.value, blend, blend, hnum, hden]

theorem Tracks.next (hst : Tracks t num den h₁ h₂ k₁ k₂) (hrem : 0 < num % den) :
    Tracks t den (num % den) (num / den * h₁ + h₂) h₁ (num / den * k₁ + k₂) k₁ where
  den_pos := hrem
  value := hst.value_next
  det := hst.det_next
  pos := by
    have hquot : 0 < den / (num % den) := Nat.div_pos (Nat.mod_lt num hst.den_pos).le hrem
    have hpos := Nat.mul_pos hquot hst.pos
    omega

theorem nearConvergent?_eq (hden : 0 < den) :
    nearConvergent? t eps num den h₁ h₂ k₁ k₂ =
      if |mkRat (num / den * h₁ + h₂ : Nat) (num / den * k₁ + k₂) - t| < eps then
        some (mkRat (num / den * h₁ + h₂ : Nat) (num / den * k₁ + k₂))
      else
        nearConvergent? t eps den (num % den) (num / den * h₁ + h₂) h₁ (num / den * k₁ + k₂) k₁ := by
  rw [nearConvergent?, if_neg hden.ne']
  simp only [rat_abs_eq]

/-- A tail `p / q` that gives the result `c`, and with which the loop ends at `c` again. -/
structure Rerun (t eps c : Rat) (num den h₁ h₂ k₁ k₂ p q : Nat) : Prop where
  pos : 0 < q
  coprime : p.Coprime q
  value : c = blend h₁ h₂ k₁ k₂ p q
  floor_le : num / den * q ≤ p
  le_succ : p ≤ (num / den + 1) * q
  below_or_far : p * den ≤ num * q ∨
    eps ≤ |mkRat (num / den * h₁ + h₂ : Nat) (num / den * k₁ + k₂) - t|
  again : nearConvergent? c eps p q h₁ h₂ k₁ k₂ = some c

theorem rerun_stop (heps : 0 < eps)
    (hc : c = mkRat (num / den * h₁ + h₂ : Nat) (num / den * k₁ + k₂)) :
    Rerun t eps c num den h₁ h₂ k₁ k₂ (num / den) 1 where
  pos := Nat.one_pos
  coprime := Nat.coprime_one_right _
  value := by rw [hc, blend, Nat.one_mul, Nat.one_mul]
  floor_le := by omega
  le_succ := by omega
  below_or_far := .inl (by rw [Nat.mul_one]; exact Nat.div_mul_le_self num den)
  again := by
    rw [nearConvergent?_eq Nat.one_pos, Nat.div_one, ← hc, sub_self, abs_zero, if_pos heps]

theorem Tracks.dist (hst : Tracks t num den h₁ h₂ k₁ k₂) :
    |mkRat (num / den * h₁ + h₂ : Nat) (num / den * k₁ + k₂) - t| =
      ((num % den : Nat) : Rat) / ((num / den * k₁ + k₂ : Nat) *
        (den * (num / den * k₁ + k₂) + num % den * k₁ : Nat)) := by
  have hpos : 0 < den * (num / den * k₁ + k₂) + num % den * k₁ :=
    Nat.add_pos_left (Nat.mul_pos hst.den_pos hst.pos) _
  have h := blend_dist hst.pos hpos hst.det_next
  rw [← hst.value_next] at h
  exact h

/-- A convergent that is too far from the target is too far from the result. -/
theorem far_of_rerun {p q : Nat} (hst : Tracks t num den h₁ h₂ k₁ k₂) (hrem : 0 < num % den)
    (hfar : eps ≤ |mkRat (num / den * h₁ + h₂ : Nat) (num / den * k₁ + k₂) - t|)
    (hre : Rerun t eps c den (num % den) (num / den * h₁ + h₂) h₁ (num / den * k₁ + k₂) k₁ p q) (hle : q ≤ p) :
    eps ≤ |mkRat (num / den * h₁ + h₂ : Nat) (num / den * k₁ + k₂) - c| := by
  have hdet := hst.det_next
  have hnext := hst.next hrem
  have hdist := hst.dist
  rw [hdist] at hfar
  obtain ⟨hq, -, hvalue, -, hsucc, hcase, -⟩ := hre
  have hk := hst.pos
  have hden := hst.den_pos
  have hlt := Nat.mod_lt num hden
  set h := num / den * h₁ + h₂
  set k := num / den * k₁ + k₂
  set rem := num % den
  have hp : 0 < p := hq.trans_le hle
  have hK : 0 < p * k + q * k₁ := Nat.add_pos_left (Nat.mul_pos hp hk) _
  rw [hvalue, blend_dist hk hK hdet]
  rcases hcase with hbelow | hfar₁
  · -- the result is between the convergent and the target, or beyond the target
    refine hfar.trans ?_
    rw [div_le_div_iff₀ (by positivity) (by positivity)]
    have hmul := Nat.mul_le_mul_left (k * k) hbelow
    exact_mod_cast (by nlinarith : rem * (k * (p * k + q * k₁)) ≤ q * (k * (den * k + rem * k₁)))
  · -- the result is on the same side; then the next convergent was too far from the target as well
    rw [hnext.dist] at hfar₁
    have hk₂ : k ≤ den / rem * k + k₁ := by
      have hquot : 0 < den / rem := Nat.div_pos hlt.le hrem
      exact (Nat.le_mul_of_pos_left k hquot).trans (Nat.le_add_right _ _)
    have hrem₂ : den % rem ≤ rem := (Nat.mod_lt den hrem).le
    set k₂' := den / rem * k + k₁ with hk₂'
    have hpos₂ : 0 < k₂' := hk.trans_le hk₂
    have hkK : p * k + q * k₁ ≤ q * (k₂' + k) := by
      have hmul := Nat.mul_le_mul_right k hsucc
      rw [hk₂']
      nlinarith
    have hkD : den % rem * (k₂' + k) ≤ rem * k₂' + den % rem * k := by
      have hmul := Nat.mul_le_mul_right k₂' hrem₂
      nlinarith
    have hprod : den % rem * (k * (p * k + q * k₁)) ≤ q * (k₂' * (rem * k₂' + den % rem * k)) := by
      calc den % rem * (k * (p * k + q * k₁))
          ≤ den % rem * (k * (q * (k₂' + k))) := Nat.mul_le_mul_left _ (Nat.mul_le_mul_left _ hkK)
        _ = q * (k * (den % rem * (k₂' + k))) := by ring
        _ ≤ q * (k₂' * (rem * k₂' + den % rem * k)) := Nat.mul_le_mul_left _ (Nat.mul_le_mul hk₂ hkD)
    refine hfar₁.trans ?_
    rw [div_le_div_iff₀ (by positivity) (by positivity)]
    exact_mod_cast hprod

/-- Another run with the result as its target ends with the result. -/
theorem exists_rerun (heps : 0 < eps) (hst : Tracks t num den h₁ h₂ k₁ k₂)
    (h : nearConvergent? t eps num den h₁ h₂ k₁ k₂ = some c) : ∃ p q, Rerun t eps c num den h₁ h₂ k₁ k₂ p q := by
  induction den using Nat.strong_induction_on generalizing num h₁ h₂ k₁ k₂ with
  | _ den ih =>
    rw [nearConvergent?_eq hst.den_pos] at h
    by_cases hnear : |mkRat (num / den * h₁ + h₂ : Nat) (num / den * k₁ + k₂) - t| < eps
    · rw [if_pos hnear] at h
      exact ⟨num / den, 1, rerun_stop heps (Option.some.inj h).symm⟩
    · rw [if_neg hnear] at h
      have hfar := not_lt.mp hnear
      have hrem : 0 < num % den := by
        rcases Nat.eq_zero_or_pos (num % den) with hzero | hpos
        · rw [nearConvergent?, if_pos hzero] at h
          simp at h
        · exact hpos
      obtain ⟨p, q, hre⟩ := ih (num % den) (Nat.mod_lt num hst.den_pos) (hst.next hrem) h
      have hquot : 0 < den / (num % den) := Nat.div_pos (Nat.mod_lt num hst.den_pos).le hrem
      have hle : q ≤ p := (Nat.le_mul_of_pos_left q hquot).trans hre.floor_le
      have hp : 0 < p := hre.pos.trans_le hle
      have hvalue : c = blend h₁ h₂ k₁ k₂ (num / den * p + q) p := by
        have hnum : p * (num / den * h₁ + h₂) + q * h₁ = (num / den * p + q) * h₁ + p * h₂ := by ring
        have hden : p * (num / den * k₁ + k₂) + q * k₁ = (num / den * p + q) * k₁ + p * k₂ := by ring
        rw [hre.value, blend, blend, hnum, hden]
      refine ⟨num / den * p + q, p, hp, ?_, hvalue, Nat.le_add_right _ _, ?_, .inr hfar, ?_⟩
      · simpa using hre.coprime.symm
      · rw [Nat.add_mul, Nat.one_mul]
        omega
      · rw [nearConvergent?_eq hp]
        rcases hle.lt_or_eq with hlt | rfl
        · -- the same quotient again
          have hdiv : (num / den * p + q) / p = num / den := by
            rw [Nat.add_comm, Nat.add_mul_div_right _ _ hp, Nat.div_eq_of_lt hlt, Nat.zero_add]
          have hmod : (num / den * p + q) % p = q := by
            rw [Nat.add_comm, Nat.add_mul_mod_self_right, Nat.mod_eq_of_lt hlt]
          rw [hdiv, hmod, if_neg (not_lt.mpr (far_of_rerun hst hrem hfar hre hle))]
          exact hre.again
        · -- the last two quotients are one quotient of the result
          obtain rfl : q = 1 := (Nat.coprime_self q).mp hre.coprime
          have hfirst : mkRat ((num / den * 1 + 1) / 1 * h₁ + h₂ : Nat) ((num / den * 1 + 1) / 1 * k₁ + k₂) = c := by
            rw [hvalue, blend]
            simp
          rw [hfirst, sub_self, abs_zero, if_pos heps]

end

/-! ## Simplifying -/

theorem tracks_init {t : Rat} {num den : Nat} (hden : 0 < den) (ht : t = mkRat num den) :
    Tracks t num den 1 0 0 1 where
  den_pos := hden
  value := by
    rw [ht, blend]
    simp
  det := by norm_num
  pos := by omega

theorem tracks_abs (r : Rat) : Tracks |r| r.num.natAbs r.den 1 0 0 1 :=
  tracks_init r.den_pos (by rw [Rat.abs_def, Rat.divInt_ofNat])

theorem abs_sub_lt_of_nearConvergent? {t eps c : Rat} {num den h₁ h₂ k₁ k₂ : Nat}
    (h : nearConvergent? t eps num den h₁ h₂ k₁ k₂ = some c) : |c - t| < eps := by
  induction den using Nat.strong_induction_on generalizing num h₁ h₂ k₁ k₂ with
  | _ den ih =>
    rcases Nat.eq_zero_or_pos den with hzero | hden
    · rw [nearConvergent?, if_pos hzero] at h
      simp at h
    · rw [nearConvergent?_eq hden] at h
      split_ifs at h with hnear
      · rwa [← Option.some.inj h]
      · exact ih (num % den) (Nat.mod_lt num hden) h

theorem pos_of_nearConvergent? {t eps c : Rat} {num den h₁ h₂ k₁ k₂ : Nat}
    (h : nearConvergent? t eps num den h₁ h₂ k₁ k₂ = some c) : 0 < eps :=
  (abs_nonneg _).trans_lt (abs_sub_lt_of_nearConvergent? h)

theorem nearConvergent?_again {r eps c : Rat} (h : nearConvergent? |r| eps r.num.natAbs r.den 1 0 0 1 = some c) :
    0 ≤ c ∧ nearConvergent? c eps c.num.natAbs c.den 1 0 0 1 = some c := by
  obtain ⟨p, q, hre⟩ := exists_rerun (pos_of_nearConvergent? h) (tracks_abs r) h
  have hc : c = (p : Int) / (q : Int) := by
    rw [hre.value, blend, Rat.mkRat_eq_div]
    simp
  have hq : (0 : Int) < q := by exact_mod_cast hre.pos
  have hcoprime : Nat.Coprime (p : Int).natAbs (q : Int).natAbs := hre.coprime
  have hnum : c.num = p := by rw [hc, Rat.num_div_eq_of_coprime hq hcoprime]
  have hden : c.den = q := by
    have h := Rat.den_div_eq_of_coprime hq hcoprime
    rw [← hc] at h
    exact_mod_cast h
  constructor
  · rw [← Rat.num_nonneg, hnum]
    exact Int.natCast_nonneg p
  · rw [hnum, hden, Int.natAbs_natCast]
    exact hre.again

theorem simplify_eq_self {s eps : Rat} (h : nearConvergent? |s| eps |s|.num.natAbs |s|.den 1 0 0 1 = some |s|) :
    simplify s eps = s := by
  have hnum : |s|.num.natAbs = s.num.natAbs := by rw [Rat.num_abs_eq_abs_num, Int.natAbs_abs]
  rw [hnum, Rat.den_abs_eq_den] at h
  simp only [simplify, rat_abs_eq, h]
  split_ifs with hneg
  · rw [abs_of_neg hneg, neg_neg]
  · rw [abs_of_nonneg (not_lt.mp hneg)]

theorem simplify_simplify (r eps : Rat) : simplify (simplify r eps) eps = simplify r eps := by
  cases hrun : nearConvergent? |r| eps r.num.natAbs r.den 1 0 0 1 with
  | none =>
    have hsame : simplify r eps = r := by
      simp [simplify, rat_abs_eq, hrun]
    rw [hsame, hsame]
  | some c =>
    obtain ⟨hnonneg, hagain⟩ := nearConvergent?_again hrun
    have hfirst : |simplify r eps| = c := by
      simp only [simplify, rat_abs_eq, hrun]
      split_ifs
      · rw [abs_neg, abs_of_nonneg hnonneg]
      · rw [abs_of_nonneg hnonneg]
    refine simplify_eq_self ?_
    rw [hfirst]
    exact hagain

theorem simplify_eq_zero {r eps : Rat} (hr : |r| < eps) (heps : eps ≤ 1) : simplify r eps = 0 := by
  have hquot : r.num.natAbs / r.den = 0 := by
    refine Nat.div_eq_of_lt ?_
    have hone : |r| < 1 := hr.trans_le heps
    rw [Rat.abs_def, Rat.divInt_eq_div, div_lt_one (by exact_mod_cast r.den_pos)] at hone
    exact_mod_cast hone
  have hstop : nearConvergent? |r| eps r.num.natAbs r.den 1 0 0 1 = some 0 := by
    rw [nearConvergent?_eq r.den_pos, hquot]
    simp [hr]
  simp [simplify, rat_abs_eq, hstop]

theorem abs_lt_of_simplify_eq_zero {r eps : Rat} (hr : r ≠ 0) (h : simplify r eps = 0) : |r| < eps := by
  simp only [simplify, rat_abs_eq] at h
  split at h
  · rename_i c hrun
    have hc : c = 0 := by
      split_ifs at h
      · exact neg_eq_zero.mp h
      · exact h
    have hdist := abs_sub_lt_of_nearConvergent? hrun
    rwa [hc, zero_sub, abs_neg, abs_abs] at hdist
  · exact absurd h hr

/-! ## Signs and distances -/

theorem simplify_of_nonpos {eps : Rat} (heps : eps ≤ 0) (r : Rat) : simplify r eps = r := by
  cases hrun : nearConvergent? |r| eps r.num.natAbs r.den 1 0 0 1 with
  | none => simp only [simplify, rat_abs_eq, hrun]
  | some c => exact absurd (pos_of_nearConvergent? hrun) (not_lt.mpr heps)

theorem simplify_zero (eps : Rat) : simplify 0 eps = 0 := by
  rcases le_or_gt eps 0 with heps | heps
  · exact simplify_of_nonpos heps 0
  · have hrun : nearConvergent? 0 eps 0 1 1 0 0 1 = some 0 := by
      rw [nearConvergent?_eq Nat.one_pos]
      simp [heps]
    simp [simplify, rat_abs_eq, hrun]

theorem simplify_neg (r eps : Rat) : simplify (-r) eps = -simplify r eps := by
  have hnum : (-r).num.natAbs = r.num.natAbs := by rw [Rat.neg_num, Int.natAbs_neg]
  rcases eq_or_ne r 0 with rfl | hr
  · rw [neg_zero, simplify_zero, neg_zero]
  · simp only [simplify, rat_abs_eq, abs_neg, hnum, Rat.neg_den]
    cases nearConvergent? |r| eps r.num.natAbs r.den 1 0 0 1 with
    | none => rfl
    | some c =>
      rcases lt_or_gt_of_ne hr with hneg | hpos
      · simp [hneg, hneg.le]
      · simp [hpos, hpos.le]

theorem abs_simplify_sub_lt {eps : Rat} (heps : 0 < eps) (r : Rat) : |simplify r eps - r| < eps := by
  cases hrun : nearConvergent? |r| eps r.num.natAbs r.den 1 0 0 1 with
  | none =>
    have hsame : simplify r eps = r := by simp [simplify, rat_abs_eq, hrun]
    rwa [hsame, sub_self, abs_zero]
  | some c =>
    have hnear := abs_sub_lt_of_nearConvergent? hrun
    simp only [simplify, rat_abs_eq, hrun]
    split_ifs with hneg
    · rw [abs_of_neg hneg] at hnear
      rwa [← abs_neg, neg_sub', neg_neg]
    · rwa [abs_of_nonneg (not_lt.mp hneg)] at hnear

theorem simplify_nonneg {r : Rat} (hr : 0 ≤ r) (eps : Rat) : 0 ≤ simplify r eps := by
  cases hrun : nearConvergent? |r| eps r.num.natAbs r.den 1 0 0 1 with
  | none => simpa [simplify, rat_abs_eq, hrun]
  | some c => simpa [simplify, rat_abs_eq, hrun, not_lt.mpr hr] using (nearConvergent?_again hrun).1

end ExactCalc
