import ExactCalc.Decimal.Basic
import ExactCalc.Text.Digit

/-! # Decimal notation

Reading and writing decimals as text: an optional minus sign, digits, and a point with more digits.
There is no exponent. What is written has no leading and no trailing zero that could be dropped.
-/

namespace ExactCalc.Decimal

open Text

/-- Reads a decimal: either part may be empty, but not both, and a point must have digits after it. -/
def ofChars? (cs : List Char) : Option Decimal :=
  let negative := cs.head? == some '-'
  let body := if negative then cs.tail else cs
  let whole := body.takeWhile (· ≠ '.')
  let rest := body.dropWhile (· ≠ '.')
  let fraction := rest.tail
  if whole.isEmpty && fraction.isEmpty then none
  else if !rest.isEmpty && fraction.isEmpty then none
  else if !(areAsciiDigits whole && areAsciiDigits fraction) then none
  else if h : fraction.length < scaleLimit then
    let m : Int := natOfDigits (whole ++ fraction)
    some (ofScaled (if negative then -m else m) fraction.length h)
  else none

def ofText? (s : String) : Option Decimal := ofChars? s.toList

/-- The digits of a mantissa around the point, with zeros in front of it where they are needed. -/
def placePoint (m s : Nat) : List Char :=
  let digits := digitsOfNat m
  let padded := List.replicate (s + 1 - digits.length) '0' ++ digits
  if s = 0 then digits
  else padded.take (padded.length - s) ++ '.' :: padded.drop (padded.length - s)

def toChars (d : Decimal) : List Char :=
  (if d.isNegative then ['-'] else []) ++ placePoint d.mantissa.natAbs d.scale

def text (d : Decimal) : String := String.ofList d.toChars

end ExactCalc.Decimal
