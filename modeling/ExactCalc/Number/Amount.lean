import ExactCalc.Decimal.Notation
import ExactCalc.Decimal.Rounding
import ExactCalc.Rational.Recurring

/-! # Amounts

An exact value is a decimal or a rational. As an amount it is first rounded to working precision; then
the digit after the last place of the amount decides: zero cuts the rest off, any other digit adds one.
-/

namespace ExactCalc

/-- An exact value in one of the two forms that calculations work with. -/
inductive Exact
  | decimal (d : Decimal)
  | rational (r : Rat)
  deriving DecidableEq

namespace Exact

def toRat : Exact → Rat
  | decimal d => d.toRat
  | rational r => r

def compare : Exact → Exact → Ordering
  | decimal a, decimal b => a.compare b
  | a, b => if a.toRat < b.toRat then .lt else if a.toRat = b.toRat then .eq else .gt

def isZero : Exact → Bool
  | decimal d => d.isZero
  | rational r => r == 0

def isOne : Exact → Bool
  | decimal d => d == Decimal.one
  | rational r => r == 1

end Exact

def rationalPlaces : Nat := 20

def Decimal.approximate (r : Rat) (mode : RoundingMode) : Decimal :=
  Decimal.ofRat r rationalPlaces mode (by decide)

structure AmountPolicy where
  /-- The digits after the point to which a decimal is rounded first. -/
  workingPlaces : Nat
  amountPlaces : Nat
  mode : RoundingMode
  deriving DecidableEq, Repr

def AmountPolicy.default : AmountPolicy := ⟨7, 6, .halfCeil⟩

namespace Amount

open Text

def dropFinalZeros (cs : List Char) : List Char := (cs.reverse.dropWhile (· == '0')).reverse

/-- The digits before and after the point when only the first `places` of those after it are kept. The next digit
cuts the rest off if it is zero, and adds one to the last place if it is not; the one may be carried across the point.
The digits behind the next one do not matter. -/
def capDigits (whole fraction : List Char) (places : Nat) : List Char × List Char :=
  let kept := fraction.take places
  if fraction[places]? = some '0' then (whole, dropFinalZeros kept)
  else
    let bumped := natOfDigits kept + 1
    if Nat.pow 10 places ≤ bumped then (digitsOfNat (natOfDigits whole + 1), [])
    else
      let digits := digitsOfNat bumped
      (whole, dropFinalZeros (List.replicate (places - digits.length) '0' ++ digits))

/-- A fixed-point spelling with at most `places` digits after the point. The sign goes if nothing but zero is left. -/
def capChars (cs : List Char) (places : Nat) : List Char :=
  let negative := cs.head? == some '-'
  let body := if negative then cs.tail else cs
  let whole := body.takeWhile (· ≠ '.')
  let fraction := (body.dropWhile (· ≠ '.')).tail
  if fraction.length ≤ places then cs
  else
    let (whole, fraction) := capDigits whole fraction places
    let isZero := whole.all (· == '0') && fraction.isEmpty
    (if negative && !isZero then ['-'] else []) ++
      (whole ++ if fraction.isEmpty then [] else '.' :: fraction)

end Amount

def Exact.working (v : Exact) (policy : AmountPolicy) : Decimal :=
  match v with
  | .decimal d => d.round policy.workingPlaces policy.mode
  | .rational r => Decimal.approximate r policy.mode

def Exact.amountText (v : Exact) (policy : AmountPolicy) : String :=
  String.ofList (Amount.capChars (v.working policy).toChars policy.amountPlaces)

end ExactCalc
