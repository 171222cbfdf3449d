import ExactCalc.Decimal.Basic

/-! # Rounding

Three ways to round a quotient to an integer, and with it a decimal or a rational to a number of
digits after the point. The three differ on ties only, or drop the fraction.
-/

namespace ExactCalc

inductive RoundingMode
  /-- To the nearest, a tie toward plus infinity. -/
  | halfCeil
  /-- To the nearest, a tie away from zero. -/
  | halfUp
  | down
  deriving DecidableEq, Repr, Inhabited

/-- The quotient `n / d` rounded to an integer, for `d` above zero. -/
def RoundingMode.quotient (mode : RoundingMode) (n : Int) (d : Nat) : Int :=
  let q := n.tdiv d
  let r := n.tmod d
  let away := if n < 0 then q - 1 else q + 1
  if r = 0 then q
  else
    match mode with
    | .down => q
    | .halfUp =>
      match compare (2 * r.natAbs) d with
      | .lt => q
      | .gt => away
      | .eq => away
    | .halfCeil =>
      match compare (2 * r.natAbs) d with
      | .lt => q
      | .gt => away
      | .eq => if n < 0 then q else away

namespace Decimal

def round (d : Decimal) (places : Nat) (mode : RoundingMode) : Decimal :=
  if h : d.scale ≤ places then d
  else
    ofScaled (mode.quotient d.mantissa (Nat.pow 10 (d.scale - places))) places (lt_scaleLimit h)

def ofRat (r : Rat) (places : Nat) (mode : RoundingMode) (h : places < scaleLimit) : Decimal :=
  ofScaled (mode.quotient (r.num * (Nat.pow 10 places : Nat)) r.den) places h

end Decimal

end ExactCalc
