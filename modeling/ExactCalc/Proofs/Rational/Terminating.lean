import Mathlib
import ExactCalc.Proofs.Rational.Simplify

/-!
# Rationals with a finite expansion

`isFiniteDecimal` divides the denominator by two and by five as often as it goes; it holds exactly if the
denominator has no other prime factor (`isFiniteDecimal_iff`). `settled` is the value that a rational result
is kept with: unchanged if its expansion ends, simplified otherwise.
-/

namespace ExactCalc

/-! ## Dividing out a factor -/

/-- What remains is not divisible any more, and powers of the factor are all that has been taken away. -/
theorem stripFactor_spec {p n : Nat} (hp : 1 < p) (hn : 0 < n) :
    ¬ p ∣ stripFactor p n ∧ ∃ k, n = p ^ k * stripFactor p n := by
  induction n using Nat.strong_induction_on with
  | _ n ih =>
    rw [stripFactor]
    by_cases hdvd : n % p = 0
    · rw [if_pos ⟨hp, hn, hdvd⟩]
      obtain ⟨m, rfl⟩ := Nat.dvd_of_mod_eq_zero hdvd
      have hm : 0 < m := Nat.pos_of_mul_pos_left hn
      have hlt : m < p * m := by nlinarith
      rw [Nat.mul_div_cancel_left m (by omega)]
      obtain ⟨hnot, k, hk⟩ := ih m hlt hm
      refine ⟨hnot, k + 1, ?_⟩
      calc p * m = p * (p ^ k * stripFactor p m) := by rw [← hk]
        _ = p ^ (k + 1) * stripFactor p m := by ring
    · rw [if_neg fun h => hdvd h.2.2]
      exact ⟨fun h => hdvd (Nat.mod_eq_zero_of_dvd h), 0, by simp⟩

theorem stripFactor_pos {p n : Nat} (hp : 1 < p) (hn : 0 < n) : 0 < stripFactor p n := by
  obtain ⟨hnot, -⟩ := stripFactor_spec hp hn
  exact Nat.pos_of_ne_zero fun hzero => hnot (hzero ▸ dvd_zero p)

theorem stripFactor_prime_pow {p : Nat} (hp : p.Prime) (k : Nat) : stripFactor p (p ^ k) = 1 := by
  obtain ⟨hnot, j, hj⟩ := stripFactor_spec hp.one_lt (pow_pos hp.pos k)
  have hdvd : stripFactor p (p ^ k) ∣ p ^ k := Dvd.intro_left _ hj.symm
  obtain ⟨i, -, hi⟩ := (Nat.dvd_prime_pow hp).mp hdvd
  rw [hi] at hnot ⊢
  cases i with
  | zero => rfl
  | succ i => exact absurd (dvd_pow_self p (Nat.succ_ne_zero i)) hnot

/-! ## The denominators -/

/-- The denominator has no prime factor but two and five. -/
def Terminates (r : Rat) : Prop := ∃ i j : Nat, r.den = 2 ^ i * 5 ^ j

theorem isFiniteDecimal_iff (r : Rat) : isFiniteDecimal r = true ↔ Terminates r := by
  obtain ⟨htwo, i, hi⟩ := stripFactor_spec (p := 2) (by decide) r.den_pos
  set m := stripFactor 2 r.den with hm
  have hmpos : 0 < m := stripFactor_pos (by decide) r.den_pos
  simp only [isFiniteDecimal, ← hm, beq_iff_eq]
  constructor
  · intro h
    obtain ⟨-, j, hj⟩ := stripFactor_spec (p := 5) (by decide) hmpos
    rw [h, mul_one] at hj
    exact ⟨i, j, by rw [hi, hj]⟩
  · rintro ⟨a, b, hab⟩
    have hcop : m.Coprime (2 ^ a) :=
      Nat.Coprime.pow_right a ((Nat.Prime.coprime_iff_not_dvd Nat.prime_two).mpr htwo).symm
    have hdvd : m ∣ 2 ^ a * 5 ^ b := by
      rw [← hab]
      exact Dvd.intro_left _ hi.symm
    obtain ⟨j, -, hj⟩ := (Nat.dvd_prime_pow Nat.prime_five).mp (hcop.dvd_of_dvd_mul_left hdvd)
    rw [hj]
    exact stripFactor_prime_pow Nat.prime_five j

instance : DecidablePred Terminates := fun r => decidable_of_iff _ (isFiniteDecimal_iff r)

theorem terminates_div_pow (m : Int) (s : Nat) : Terminates ((m : Rat) / 10 ^ s) := by
  have hden : ((m : Rat) / 10 ^ s).den ∣ 2 ^ s * 5 ^ s := by
    have h := Rat.den_dvd m ((10 : Int) ^ s)
    rw [Rat.divInt_eq_div] at h
    push_cast at h
    have hten : ((10 : Int) ^ s) = ((2 ^ s * 5 ^ s : Nat) : Int) := by
      rw [← mul_pow]
      norm_num
    rw [hten] at h
    exact_mod_cast h
  obtain ⟨y, z, hy, hz, hyz⟩ := Nat.dvd_mul.mp hden
  obtain ⟨i, -, rfl⟩ := (Nat.dvd_prime_pow Nat.prime_two).mp hy
  obtain ⟨j, -, rfl⟩ := (Nat.dvd_prime_pow Nat.prime_five).mp hz
  exact ⟨i, j, hyz.symm⟩

/-! ## Values of results -/

/-- The value that a rational result is kept with. -/
def settled (r : Rat) : Rat := if Terminates r then r else simplify r defaultTolerance

theorem settled_of_terminates {r : Rat} (h : Terminates r) : settled r = r := if_pos h

theorem settled_settled (r : Rat) : settled (settled r) = settled r := by
  by_cases h : Terminates r
  · rw [settled_of_terminates h, settled_of_terminates h]
  · have hr : settled r = simplify r defaultTolerance := if_neg h
    rw [hr]
    by_cases hs : Terminates (simplify r defaultTolerance)
    · exact settled_of_terminates hs
    · rw [settled, if_neg hs, simplify_simplify]

theorem settled_intCast (n : Int) : settled n = n :=
  settled_of_terminates ⟨0, 0, by simp⟩

theorem defaultTolerance_eq : defaultTolerance = 2⁻¹ ^ 52 := by
  rw [defaultTolerance, Rat.mkRat_eq_div]
  norm_num

/-- A result is kept as zero if it is zero, or if it is nearer to zero than the tolerance and its expansion does not
end. -/
theorem settled_eq_zero_iff (r : Rat) : settled r = 0 ↔ r = 0 ∨ ¬ Terminates r ∧ |r| < defaultTolerance := by
  by_cases hterm : Terminates r
  · simp [settled_of_terminates hterm, hterm]
  · have hzero : r ≠ 0 := by
      rintro rfl
      exact hterm ⟨0, 0, by simp⟩
    rw [settled, if_neg hterm, or_iff_right hzero, and_iff_right hterm]
    refine ⟨abs_lt_of_simplify_eq_zero hzero, fun hnear => simplify_eq_zero hnear ?_⟩
    rw [defaultTolerance_eq]
    norm_num

theorem terminates_neg {r : Rat} : Terminates (-r) ↔ Terminates r := Iff.rfl

theorem settled_neg (r : Rat) : settled (-r) = -settled r := by
  by_cases h : Terminates r
  · rw [settled_of_terminates h, settled_of_terminates (terminates_neg.mpr h)]
  · rw [settled, settled, if_neg h, if_neg (mt terminates_neg.mp h), simplify_neg]

theorem settled_nonneg {r : Rat} (hr : 0 ≤ r) : 0 ≤ settled r := by
  rw [settled]
  split_ifs
  · exact hr
  · exact simplify_nonneg hr defaultTolerance

theorem abs_settled_sub_lt (r : Rat) : |settled r - r| < defaultTolerance := by
  have hpos : 0 < defaultTolerance := by
    rw [defaultTolerance_eq]
    norm_num
  rw [settled]
  split_ifs
  · rwa [sub_self, abs_zero]
  · exact abs_simplify_sub_lt hpos r

end ExactCalc
