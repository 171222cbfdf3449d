import ExactCalc.Decimal.Notation

/-! # Binary floating point

A 64-bit binary float is given by its bits. Two exact conversions stand here, and the range of products.

* `Binary64.toDecimal?`: the shortest decimal that reads back as the float, the nearest of those, and the
  larger of two equally near.
* `Binary64.ofDecimal`: the float nearest to a decimal, ties to even, infinite beyond the range.
* `Binary64.productOverflows`: whether the product of the floats nearest to two integers is infinite.
-/

namespace ExactCalc

/-- A float, by its bits: sign, eleven bits of exponent, fifty-two of fraction. -/
structure Binary64 where
  bits : UInt64
  deriving DecidableEq

namespace Binary64

def negative (x : Binary64) : Bool := 9223372036854775808 ≤ x.bits.toNat

def exponentField (x : Binary64) : Nat := x.bits.toNat / 4503599627370496 % 2048

def fractionField (x : Binary64) : Nat := x.bits.toNat % 4503599627370496

def isFinite (x : Binary64) : Bool := x.exponentField != 2047

def significand (x : Binary64) : Nat :=
  if x.exponentField = 0 then x.fractionField else x.fractionField + 4503599627370496

def exponent (x : Binary64) : Int :=
  if x.exponentField = 0 then -1074 else x.exponentField - 1075

def undefinedText (x : Binary64) : String :=
  if x.fractionField ≠ 0 then "NaN" else if x.negative then "-inf" else "inf"

/-! ## The shortest decimal -/

/-- The numbers that round to a float, as fractions over one denominator: the float itself between the
ends, which belong to them for an even significand. -/
structure Interval where
  low : Nat
  mid : Nat
  high : Nat
  den : Nat
  closed : Bool

/-- The numbers that round to a finite float other than zero, without the sign. Below a power of two the
next float is only half as far. -/
def interval (x : Binary64) : Interval :=
  let m := x.significand
  let up := Nat.pow 2 x.exponent.toNat
  let below := if x.fractionField = 0 && 1 < x.exponentField then 1 else 2
  { low := (4 * m - below) * up, mid := 4 * m * up, high := (4 * m + 2) * up,
    den := 4 * Nat.pow 2 (-x.exponent).toNat, closed := m % 2 == 0 }

def Interval.scaled (i : Interval) (s : Int) : Interval :=
  let up := Nat.pow 10 s.toNat
  { i with low := i.low * up, mid := i.mid * up, high := i.high * up, den := i.den * Nat.pow 10 (-s).toNat }

def Interval.contains (i : Interval) (n : Nat) : Bool :=
  if i.closed then i.low ≤ n * i.den && n * i.den ≤ i.high
  else i.low < n * i.den && n * i.den < i.high

def Interval.nearest? (i : Interval) : Option Nat :=
  let q := i.mid / i.den
  match i.contains q, i.contains (q + 1) with
  | true, true => if i.den ≤ 2 * (i.mid % i.den) then some (q + 1) else some q
  | true, false => some q
  | false, true => some (q + 1)
  | false, false => none

def Interval.magnitude (i : Interval) : Int :=
  (Text.digitsOfNat (i.mid * Nat.pow 10 400 / i.den)).length - 400

/-- The mantissa and the power of ten of the shortest decimal in the interval. -/
def Interval.shortest (i : Interval) : Nat × Int :=
  let digits := (List.range 17).findSome? fun (n : Nat) =>
    let s : Int := n + 1 - i.magnitude
    (i.scaled s).nearest?.map fun m => (m, -s)
  digits.getD (0, 0)

/-- The shortest decimal that reads back as the float; none for a float that is no number. -/
def toDecimal? (x : Binary64) : Option Decimal :=
  if !x.isFinite then none
  else if x.significand = 0 then some Decimal.zero
  else
    let (m, e) := x.interval.shortest
    let magnitude := m * Nat.pow 10 e.toNat
    let n : Int := if x.negative then -magnitude else magnitude
    if h : (-e).toNat < Decimal.scaleLimit then some (Decimal.ofScaled n (-e).toNat h) else none

/-! ## The nearest float -/

def divideToEven (n d : Nat) : Nat :=
  let q := n / d
  match compare (2 * (n % d)) d with
  | .lt => q
  | .gt => q + 1
  | .eq => q + q % 2

/-- The integer that the float nearest to an integer is, for one within the range of floats: at most
fifty-three binary digits are kept. -/
def nearestNat (n : Nat) : Nat :=
  let unit := Nat.pow 2 (n.log2 - 52)
  divideToEven n unit * unit

/-- Half a unit above the largest float: the least number whose nearest float is infinite. -/
def overflowBound : Nat := Nat.pow 2 1024 - Nat.pow 2 970

def productOverflows (m n : Nat) : Bool := overflowBound ≤ nearestNat m * nearestNat n

/-- The bits of the float nearest to the positive fraction `n / d`. -/
def nearestBits (n d : Nat) : Nat :=
  let scaled (e : Int) : Nat × Nat := (n * Nat.pow 2 (-e).toNat, d * Nat.pow 2 e.toNat)
  let e₀ : Int := (n.log2 : Int) - d.log2 - 53
  let e₁ := if (scaled e₀).1 / (scaled e₀).2 < 9007199254740992 then e₀ else e₀ + 1
  let e := max e₁ (-1074)
  let m := divideToEven (scaled e).1 (scaled e).2
  let (m, e) := if m = 9007199254740992 then (4503599627370496, e + 1) else (m, e)
  if 971 < e then 9218868437227405312
  else if m < 4503599627370496 then m
  else (e + 1075).toNat * 4503599627370496 + (m - 4503599627370496)

def ofDecimal (d : Decimal) : Binary64 :=
  if d.isZero then ⟨0⟩
  else
    let magnitude := nearestBits d.mantissa.natAbs (Nat.pow 10 d.scale)
    ⟨UInt64.ofNat (if d.isNegative then 9223372036854775808 + magnitude else magnitude)⟩

end Binary64

end ExactCalc
