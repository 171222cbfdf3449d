import Mathlib
import ExactCalc.Proofs.Rational.Expansion

/-!
# Digits after the point

`fractionDigit` is the decimal expansion of a rational, place by place. Two remainders of a long division give the
same digits for ever only if they are equal (`Expansion.remainderAt_eq_of_digitAt`). So the expansion ends where the
remainder is zero, it repeats where a remainder comes back, and long division finds this as soon as there is something
to find: it gives up on the rationals whose expansions neither end nor repeat within the limit
(`Expansion.isExact_ofRat_iff`), with the digits up to there (`Expansion.ofRat_eq_cut`).
-/

namespace ExactCalc

/-- The digit of a rational at a place after the point, the first place being zero. -/
def fractionDigit (r : Rat) (i : Nat) : Nat := ⌊|r| * 10 ^ (i + 1)⌋₊ % 10

/-- The expansion ends before a place. -/
def EndsAt (r : Rat) (n : Nat) : Prop := ∀ i, n ≤ i → fractionDigit r i = 0

/-- The expansion repeats a period of `p` digits from a place on. -/
def RepeatsFrom (r : Rat) (f p : Nat) : Prop := 0 < p ∧ ∀ i, f ≤ i → fractionDigit r (i + p) = fractionDigit r i

namespace Expansion

/-! ## Remainders -/

/-- The remainder of the division of `a` by `den` after a number of digits. -/
def remainderAt (den a n : Nat) : Nat := a * 10 ^ n % den

def digitAt (den a n : Nat) : Nat := remainderAt den a n * 10 / den

/-- There is nothing left to divide, or the remainder has been met before. -/
def StopsAt (den a n : Nat) : Prop :=
  remainderAt den a n = 0 ∨ ∃ j < n, remainderAt den a j = remainderAt den a n

section
variable {den a i j : Nat}

theorem remainderAt_add (den a n k : Nat) : remainderAt den a (n + k) = remainderAt den a n * 10 ^ k % den := by
  rw [remainderAt, remainderAt, pow_add, ← Nat.mul_assoc, Nat.mod_mul_mod]

theorem remainderAt_succ (den a n : Nat) : remainderAt den a (n + 1) = remainderAt den a n * 10 % den :=
  remainderAt_add den a n 1

theorem remainderAt_mul_ten (den a n : Nat) :
    remainderAt den a n * 10 = digitAt den a n * den + remainderAt den a (n + 1) := by
  rw [remainderAt_succ, digitAt, Nat.div_add_mod']

/-- As long as the digits agree, the distance of two remainders grows tenfold. -/
theorem sub_remainderAt {n : Nat} (h : ∀ k < n, digitAt den a (i + k) = digitAt den a (j + k)) :
    ((remainderAt den a i : Int) - remainderAt den a j) * 10 ^ n =
      remainderAt den a (i + n) - remainderAt den a (j + n) := by
  induction n with
  | zero => simp
  | succ n ih =>
    have hi := remainderAt_mul_ten den a (i + n)
    have hj := remainderAt_mul_ten den a (j + n)
    rw [h n (Nat.lt_succ_self n)] at hi
    have ih := ih fun k hk => h k (Nat.lt_succ_of_lt hk)
    calc ((remainderAt den a i : Int) - remainderAt den a j) * 10 ^ (n + 1)
        = ((remainderAt den a (i + n) * 10 : Nat) : Int) - (remainderAt den a (j + n) * 10 : Nat) := by
          rw [pow_succ, ← mul_assoc, ih]
          push_cast
          ring
      _ = remainderAt den a (i + (n + 1)) - remainderAt den a (j + (n + 1)) := by
          rw [hi, hj, ← Nat.add_assoc, ← Nat.add_assoc]
          push_cast
          ring

theorem remainderAt_eq_of_digitAt (hden : 0 < den) (h : ∀ k, digitAt den a (i + k) = digitAt den a (j + k)) :
    remainderAt den a i = remainderAt den a j := by
  have hsub := sub_remainderAt (n := den) fun k _ => h k
  have hi : remainderAt den a (i + den) < den := Nat.mod_lt _ hden
  have hj : remainderAt den a (j + den) < den := Nat.mod_lt _ hden
  have hpow : (den : Int) < 10 ^ den := by exact_mod_cast Nat.lt_pow_self (by decide)
  -- a distance of one or more would outgrow the denominator
  rcases Nat.lt_trichotomy (remainderAt den a i) (remainderAt den a j) with hlt | heq | hgt
  · have hle : (remainderAt den a i : Int) - remainderAt den a j ≤ -1 := by omega
    nlinarith
  · exact heq
  · have hge : 1 ≤ (remainderAt den a i : Int) - remainderAt den a j := by omega
    nlinarith

theorem remainderAt_eq_zero_iff (hden : 0 < den) {n : Nat} :
    remainderAt den a n = 0 ↔ ∀ i, n ≤ i → digitAt den a i = 0 := by
  constructor
  · intro hzero i hi
    obtain ⟨k, rfl⟩ := Nat.exists_eq_add_of_le hi
    rw [digitAt, remainderAt_add, hzero]
    simp
  · intro h
    have hnext : remainderAt den a n = remainderAt den a (n + 1) :=
      remainderAt_eq_of_digitAt hden fun k => (h _ (by omega)).trans (h _ (by omega)).symm
    have hten := remainderAt_mul_ten den a n
    rw [h n le_rfl] at hten
    omega

theorem remainderAt_eq_iff (hden : 0 < den) {f p : Nat} :
    remainderAt den a (f + p) = remainderAt den a f ↔ ∀ i, f ≤ i → digitAt den a (i + p) = digitAt den a i := by
  constructor
  · intro heq i hi
    obtain ⟨k, rfl⟩ := Nat.exists_eq_add_of_le hi
    rw [digitAt, digitAt, Nat.add_right_comm, remainderAt_add _ _ (f + p), heq, ← remainderAt_add]
  · intro h
    refine remainderAt_eq_of_digitAt hden fun k => ?_
    rw [Nat.add_right_comm]
    exact h _ (by omega)

end

end Expansion

/-! ## The places of a rational -/

section
open Text Expansion
variable {r : Rat}

theorem floor_abs_mul_pow (r : Rat) (n : Nat) : ⌊|r| * 10 ^ n⌋₊ = r.num.natAbs * 10 ^ n / r.den := by
  have habs : |r| * 10 ^ n = ((r.num.natAbs * 10 ^ n : Nat) : Rat) / r.den := by
    rw [Rat.abs_def, Rat.divInt_eq_div, Nat.cast_mul, Int.cast_natCast, Int.cast_natCast, div_mul_eq_mul_div]
    push_cast
    rfl
  rw [habs, Nat.floor_div_eq_div]

theorem floor_abs (r : Rat) : ⌊|r|⌋₊ = r.num.natAbs / r.den := by simpa using floor_abs_mul_pow r 0

theorem fractionDigit_eq (r : Rat) (i : Nat) : fractionDigit r i = digitAt r.den (r.num.natAbs % r.den) i := by
  have hsplit := Nat.div_add_mod' (r.num.natAbs * 10 ^ i) r.den
  have hlt : r.num.natAbs * 10 ^ i % r.den * 10 / r.den < 10 :=
    (Nat.div_lt_iff_lt_mul r.den_pos).mpr (by have := Nat.mod_lt (r.num.natAbs * 10 ^ i) r.den_pos; omega)
  rw [fractionDigit, floor_abs_mul_pow, digitAt, remainderAt, Nat.mod_mul_mod, pow_succ, ← Nat.mul_assoc]
  conv_lhs => rw [← hsplit, Nat.add_mul, Nat.mul_right_comm, Nat.add_comm, Nat.add_mul_div_right _ _ r.den_pos,
    Nat.add_mul_mod_self_right, Nat.mod_eq_of_lt hlt]

theorem fractionDigit_lt (r : Rat) (i : Nat) : fractionDigit r i < 10 := Nat.mod_lt _ (by decide)

theorem endsAt_iff {n : Nat} : EndsAt r n ↔ remainderAt r.den (r.num.natAbs % r.den) n = 0 := by
  simp only [EndsAt, fractionDigit_eq, remainderAt_eq_zero_iff r.den_pos]

theorem repeatsFrom_iff {f p : Nat} : RepeatsFrom r f p ↔ 0 < p ∧
    remainderAt r.den (r.num.natAbs % r.den) (f + p) = remainderAt r.den (r.num.natAbs % r.den) f := by
  simp only [RepeatsFrom, fractionDigit_eq, remainderAt_eq_iff r.den_pos]

theorem natOfDigits_fractionDigits (r : Rat) (n : Nat) :
    natOfDigits (digitsOfNat ⌊|r|⌋₊ ++ digitChars ((List.range n).map (fractionDigit r))) =
      ⌊|r| * 10 ^ n⌋₊ := by
  induction n with
  | zero => simp [digitChars, natOfDigits_digitsOfNat]
  | succ n ih =>
    have hshift : ⌊|r| * 10 ^ (n + 1)⌋₊ / 10 = ⌊|r| * 10 ^ n⌋₊ := by
      rw [← Nat.floor_div_ofNat, pow_succ, ← mul_assoc, mul_div_cancel_right₀ _ (by norm_num)]
    have hdigit : natOfDigits (digitChars [fractionDigit r n]) = fractionDigit r n :=
      value_singleton (fractionDigit_lt r n)
    rw [List.range_succ, List.map_append, List.map_singleton, digitChars_append, ← List.append_assoc,
      natOfDigits_append, ih, hdigit, length_digitChars, List.length_singleton, pow_one, ← hshift, fractionDigit,
      Nat.div_add_mod']

end

/-! ## Where the division stops -/

namespace Expansion

section
variable {den rem left r : Nat} {trail : List (Nat × Nat)} {ds : List Nat}

theorem Trail.eq_remainderAt (h : Trail den rem trail r) (hrem : rem < den) :
    r = remainderAt den rem trail.length := by
  rw [remainderAt, h.eq hrem, Nat.mul_add_mod', Nat.mod_eq_of_lt (h.lt hrem)]

theorem Trail.any_iff (h : Trail den rem trail r) (hrem : rem < den) {x : Nat} :
    trail.any (·.1 == x) = true ↔ ∃ j < trail.length, remainderAt den rem j = x := by
  induction h with
  | nil => simp
  | @cons trail r h ih =>
    rw [List.any_cons, Bool.or_eq_true, ih, beq_iff_eq, h.eq_remainderAt hrem, List.length_cons]
    constructor
    · rintro (heq | ⟨j, hj, heq⟩)
      · exact ⟨_, Nat.lt_succ_self _, heq⟩
      · exact ⟨j, Nat.lt_succ_of_lt hj, heq⟩
    · rintro ⟨j, hj, heq⟩
      rcases Nat.lt_succ_iff_lt_or_eq.mp hj with hj | rfl
      · exact .inr ⟨j, hj, heq⟩
      · exact .inl heq

theorem Trail.stopsAt_iff (h : Trail den rem trail r) (hrem : rem < den) :
    StopsAt den rem trail.length ↔ r = 0 ∨ trail.any (·.1 == r) = true := by
  rw [StopsAt, ← h.eq_remainderAt hrem, h.any_iff hrem]

theorem Trail.digitsOf_eq (h : Trail den rem trail r) (hrem : rem < den) :
    digitsOf trail = (List.range trail.length).map (digitAt den rem) := by
  induction h with
  | nil => rfl
  | @cons trail r h ih =>
    have hsplit : digitsOf ((r, r * 10 / den) :: trail) = digitsOf trail ++ [r * 10 / den] := by simp [digitsOf]
    rw [hsplit, ih, List.length_cons, List.range_succ, List.map_append, List.map_singleton, digitAt,
      ← h.eq_remainderAt hrem]

/-- The division is given up only where there is no place to stop at. -/
theorem isExact_divide_iff (hrem : rem < den) (h : Trail den rem trail r) :
    (divide den left r trail).isExact = true ↔
      ∃ n, trail.length ≤ n ∧ n ≤ trail.length + left ∧ StopsAt den rem n := by
  have hstop := h.stopsAt_iff hrem
  fun_induction divide den left r trail with
  | case1 left trail =>
    exact iff_of_true rfl ⟨_, le_rfl, Nat.le_add_right _ _, hstop.mpr (.inl rfl)⟩
  | case2 left r trail hr hmem =>
    exact iff_of_true rfl ⟨_, le_rfl, Nat.le_add_right _ _, hstop.mpr (.inr hmem)⟩
  | case3 r trail hr hmem =>
    refine iff_of_false (by simp [isExact]) ?_
    rintro ⟨n, hle, hge, hn⟩
    obtain rfl : n = trail.length := by omega
    exact (hstop.mp hn).elim hr hmem
  | case4 r trail hr hmem left ih =>
    refine (ih h.cons (h.cons.stopsAt_iff hrem)).trans ?_
    rw [List.length_cons]
    constructor
    · rintro ⟨n, hle, hge, hn⟩
      exact ⟨n, by omega, by omega, hn⟩
    · rintro ⟨n, hle, hge, hn⟩
      have hne : n ≠ trail.length := by
        rintro rfl
        exact (hstop.mp hn).elim hr hmem
      exact ⟨n, by omega, by omega, hn⟩

theorem eq_of_divide_eq_cut (hrem : rem < den) (h : Trail den rem trail r) (hcut : divide den left r trail = cut ds) :
    ds = (List.range (trail.length + left)).map (digitAt den rem) := by
  fun_induction divide den left r trail with
  | case1 | case2 => cases hcut
  | case3 r trail hr hmem =>
    cases hcut
    exact h.digitsOf_eq hrem
  | case4 r trail hr hmem left ih =>
    have hds := ih h.cons hcut
    rwa [List.length_cons, Nat.add_right_comm, Nat.add_assoc] at hds

end

/-- Long division of a rational is given up if its expansion neither ends nor repeats within the limit. -/
theorem isExact_ofRat_iff (r : Rat) : (ofRat r).isExact = true ↔
    (∃ n, EndsAt r n ∧ n ≤ digitLimit) ∨ ∃ f p, RepeatsFrom r f p ∧ f + p ≤ digitLimit := by
  rw [ofRat, isExact_divide_iff (Nat.mod_lt _ r.den_pos) .nil]
  simp only [List.length_nil, Nat.zero_le, true_and, Nat.zero_add, endsAt_iff, repeatsFrom_iff, StopsAt]
  constructor
  · rintro ⟨n, hn, hzero | ⟨j, hj, heq⟩⟩
    · exact .inl ⟨n, hzero, hn⟩
    · obtain ⟨p, rfl⟩ := Nat.exists_eq_add_of_lt hj
      exact .inr ⟨j, p + 1, ⟨Nat.succ_pos p, heq.symm⟩, hn⟩
  · rintro (⟨n, hzero, hn⟩ | ⟨f, p, ⟨hp, heq⟩, hn⟩)
    · exact ⟨n, hn, .inl hzero⟩
    · exact ⟨f + p, hn, .inr ⟨f, by omega, heq.symm⟩⟩

theorem ofRat_eq_cut {r : Rat} {ds : List Nat} (h : ofRat r = cut ds) :
    ds = (List.range digitLimit).map (fractionDigit r) := by
  have hds := eq_of_divide_eq_cut (Nat.mod_lt _ r.den_pos) .nil h
  rw [List.length_nil, Nat.zero_add] at hds
  rw [hds]
  exact List.map_congr_left fun i _ => (fractionDigit_eq r i).symm

end Expansion

end ExactCalc
