import Mathlib
import ExactCalc.Proofs.Decimal.Arithmetic
import ExactCalc.Proofs.Number.Writing

/-!
# The text of a rational

A rational is written in full unless its expansion neither ends nor repeats within `Expansion.digitLimit` digits. What
is written in full is read as the same rational, by the reader of rationals and as a number that keeps it as it is.
Otherwise the text is cut, and stands for the rational truncated toward zero after `Expansion.cutLength` digits:
`ratText_faithful`.
-/

namespace ExactCalc

open Text

variable {r : Rat} {s : String}

theorem ratOfText?_of_exactRatText? (h : exactRatText? r = some s) : ratOfText? s = some r := by
  obtain ⟨hexact, rfl⟩ := isExact_iff_exactRatText?.mp h
  cases hexp : Expansion.ofRat r with
  | finite ds =>
    obtain ⟨d, hd, hvalue, -⟩ := ofText?_ratText_of_finite hexp
    rw [ratOfText?_of_ofText? hd, hvalue]
  | recurring fs ps =>
    rw [ratText_of_recurring hexp, ratOfText?, String.toList_ofList,
      Recurring.ofChars?_toChars (isProper_recurringParts hexp), Option.bind_some, value?_recurringParts hexp]
  | cut ds => simp [hexp, Expansion.isExact] at hexact

theorem exists_create_of_exactRatText? (h : exactRatText? r = some s) :
    ∃ n, Number.create (.text s) = .ok n ∧ n.toRational = .ok r := by
  have hread := ratOfText?_of_exactRatText? h
  obtain ⟨hexact, rfl⟩ := isExact_iff_exactRatText?.mp h
  cases hexp : Expansion.ofRat r with
  | finite ds =>
    obtain ⟨d, hd, -⟩ := ofText?_ratText_of_finite hexp
    rcases Number.ofText_of_ofText? hd with hn | hn
    · exact ⟨_, hn, by rw [Number.toRational, Number.readAs, hread]⟩
    · exact ⟨_, hn, by rw [Number.toRational, Number.readAs, hread]⟩
  | recurring fs ps => exact ⟨_, ofText_ratText_of_recurring hexp, rfl⟩
  | cut ds => simp [hexp, Expansion.isExact] at hexact

theorem exactRatText?_eq_none_iff : exactRatText? r = none ↔
    (∀ n, EndsAt r n → Expansion.digitLimit < n) ∧ ∀ f p, RepeatsFrom r f p → Expansion.digitLimit < f + p := by
  have hnone : exactRatText? r = none ↔ ¬ (Expansion.ofRat r).isExact = true := by
    rw [exactRatText?]
    split_ifs with h <;> simp [h]
  rw [hnone, Expansion.isExact_ofRat_iff]
  push Not
  exact Iff.rfl

theorem fractionDigit_one_div_pow (n k : Nat) : fractionDigit (1 / 10 ^ (n + 1)) (n + k) = 10 ^ k % 10 := by
  have hten : (0 : Rat) < 10 ^ (n + 1) := by positivity
  have hscaled : |1 / 10 ^ (n + 1)| * 10 ^ (n + k + 1) = (((10 ^ k : Nat) : Rat)) := by
    rw [abs_of_pos (by positivity), Nat.add_right_comm, pow_add _ (n + 1), ← mul_assoc, one_div_mul_cancel hten.ne',
      one_mul]
    push_cast
    rfl
  rw [fractionDigit, hscaled, Nat.floor_natCast]

/-- The limit is sharp: a single digit beyond it is not written. -/
theorem exactRatText?_one_div_pow {n : Nat} (hn : Expansion.digitLimit ≤ n) :
    exactRatText? (1 / 10 ^ (n + 1)) = none := by
  have hone : fractionDigit (1 / 10 ^ (n + 1)) n = 1 := fractionDigit_one_div_pow n 0
  rw [exactRatText?_eq_none_iff]
  constructor
  · intro m hm
    by_contra hle
    have hzero := hm n (by omega)
    omega
  · rintro f p ⟨hp, hrepeat⟩
    by_contra hle
    -- the digit would come back among the zeros behind it
    have hback := hrepeat n (by omega)
    have hzero : 10 ^ p % 10 = 0 := Nat.mod_eq_zero_of_dvd (dvd_pow_self 10 (by omega))
    rw [hone, fractionDigit_one_div_pow, hzero] at hback
    omega

theorem abs_sub_truncated_lt (r : Rat) (n : Nat) : |r - (towardZero (r * 10 ^ n) : Rat) / 10 ^ n| < 1 / 10 ^ n := by
  have hten : (0 : Rat) < 10 ^ n := by positivity
  have hscaled : r - (towardZero (r * 10 ^ n) : Rat) / 10 ^ n = (r * 10 ^ n - towardZero (r * 10 ^ n)) / 10 ^ n := by
    field_simp
  rw [hscaled, abs_div, abs_of_pos hten]
  exact div_lt_div_of_pos_right (abs_sub_towardZero_lt _) hten

theorem ratText_of_exactRatText?_eq_none (h : exactRatText? r = none) :
    ratText r = String.ofList (cutChars r Expansion.cutLength) := by
  cases hexp : Expansion.ofRat r with
  | finite | recurring => simp [exactRatText?, hexp, Expansion.isExact] at h
  | cut ds => exact ratText_of_cut hexp

/-- A rational is written in full, and read again, if its expansion ends or repeats within the limit; if not, it is
truncated toward zero. -/
theorem ratText_faithful (r : Rat) :
    (∀ s, exactRatText? r = some s → ratOfText? s = some r ∧
      ∃ n, Number.create (.text s) = .ok n ∧ n.toRational = .ok r) ∧
    (exactRatText? r = none ↔
      (∀ n, EndsAt r n → Expansion.digitLimit < n) ∧ ∀ f p, RepeatsFrom r f p → Expansion.digitLimit < f + p) ∧
    (exactRatText? r = none → ratText r = String.ofList (cutChars r Expansion.cutLength) ∧
      ∃ q, ratOfText? (ratText r) = some q ∧
        q = (towardZero (r * 10 ^ Expansion.cutLength) : Rat) / 10 ^ Expansion.cutLength ∧
        |r - q| < 1 / 10 ^ Expansion.cutLength) := by
  refine ⟨fun s hs => ⟨ratOfText?_of_exactRatText? hs, exists_create_of_exactRatText? hs⟩,
    exactRatText?_eq_none_iff, fun hnone => ?_⟩
  have htext := ratText_of_exactRatText?_eq_none hnone
  obtain ⟨d, hd, hvalue⟩ := ofText?_cutChars r (n := Expansion.cutLength) (by decide)
  rw [← htext] at hd
  refine ⟨htext, d.toRat, ratOfText?_of_ofText? hd, hvalue, ?_⟩
  rw [hvalue]
  exact abs_sub_truncated_lt r _

theorem ratText_faithful_seventh :
    (exactRatText? (1 / 7) = some "0.(142857)" ∧ ratOfText? "0.(142857)" = some (1 / 7)) ∧
    exactRatText? (1 / 10 ^ 2001) = none ∧
      ∃ q, ratOfText? (ratText (1 / 10 ^ 2001)) = some q ∧ |1 / 10 ^ 2001 - q| < 1 / 10 ^ 15 := by
  have hseventh : exactRatText? (1 / 7) = some "0.(142857)" := by decide +kernel
  have hnone : exactRatText? (1 / 10 ^ 2001) = none := exactRatText?_one_div_pow (n := 2000) le_rfl
  obtain ⟨-, q, hq, -, hlt⟩ := (ratText_faithful (1 / 10 ^ 2001)).2.2 hnone
  exact ⟨⟨hseventh, ((ratText_faithful _).1 _ hseventh).1⟩, hnone, q, hq, hlt⟩

end ExactCalc
