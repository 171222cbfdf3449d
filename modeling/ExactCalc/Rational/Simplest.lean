/-! # Simplification by convergents

The convergents of the continued fraction of a rational are its best approximations of growing
denominator, and the last is the rational itself. `simplify` takes the first that is near enough.
`isFiniteDecimal` tells the rationals that need no simplification: those with a finite expansion.
-/

namespace ExactCalc

def defaultTolerance : Rat := mkRat 1 (Nat.pow 2 52)

/-- The first convergent of `num / den` that lies nearer than `eps` to the target. The pairs `h₁ k₁` and
`h₂ k₂` are numerator and denominator of the last convergent and of the one before it. -/
def nearConvergent? (target eps : Rat) (num den h₁ h₂ k₁ k₂ : Nat) : Option Rat :=
  if den = 0 then none
  else
    let a := num / den
    let h := a * h₁ + h₂
    let k := a * k₁ + k₂
    let c := mkRat h k
    if (c - target).abs < eps then some c
    else nearConvergent? target eps den (num % den) h h₁ k k₁
termination_by den
decreasing_by exact Nat.mod_lt _ (by omega)

/-- The first convergent of the absolute value that lies nearer to it than `eps`, with the sign put back;
the rational itself if there is none. -/
def simplify (r eps : Rat) : Rat :=
  match nearConvergent? r.abs eps r.num.natAbs r.den 1 0 0 1 with
  | some c => if r < 0 then -c else c
  | none => r

def stripFactor (p n : Nat) : Nat :=
  if 1 < p ∧ 0 < n ∧ n % p = 0 then stripFactor p (n / p) else n
termination_by n
decreasing_by rename_i h; exact Nat.div_lt_self h.2.1 h.1

/-- Whether the expansion ends: the denominator has no prime factor but two and five. -/
def isFiniteDecimal (r : Rat) : Bool := stripFactor 5 (stripFactor 2 r.den) == 1

end ExactCalc
