import ExactCalc.Text.Digit

/-! # Recurring notation, read

`-12.3(45)`: digits before the point, fixed digits after it, and a period in parentheses. Such a text
stands for the sum of a geometric series, so its value is a fraction.
-/

namespace ExactCalc

structure Recurring where
  negative : Bool
  whole : List Char
  fixed : List Char
  period : List Char
  deriving DecidableEq, Repr

namespace Recurring

open Text

/-- The value without its sign. With `A` the digits before the period and `B` the digits up to its end
as integers, it is `A / 10 ^ n` without a period, else `(B - A) / (10 ^ n * (10 ^ m - 1))`. -/
def magnitude (t : Recurring) : Rat :=
  let a := natOfDigits (t.whole ++ t.fixed)
  if t.period.isEmpty then mkRat a (Nat.pow 10 t.fixed.length)
  else
    let b := natOfDigits (t.whole ++ t.fixed ++ t.period)
    mkRat (b - a : Int) (Nat.pow 10 t.fixed.length * (Nat.pow 10 t.period.length - 1))

def value (t : Recurring) : Rat := if t.negative then -t.magnitude else t.magnitude

/-- The value, if there is a digit at all, all digits are ASCII digits, and the parts have a length
that is a 32-bit word. -/
def value? (t : Recurring) : Option Rat :=
  let digits := t.whole ++ t.fixed ++ t.period
  if digits.isEmpty then none
  else if !areAsciiDigits digits then none
  else if t.fixed.length < 4294967296 && t.period.length < 4294967296 then some t.value
  else none

/-- Splits a text into the parts: a sign, digits, and a point with digits and a period after it. A point
with nothing after it is refused. -/
def ofChars? (cs : List Char) : Option Recurring :=
  let negative := cs.head? == some '-'
  let body := if negative then cs.tail else cs
  let whole := body.takeWhile isAsciiDigit
  match body.dropWhile isAsciiDigit with
  | [] => some ⟨negative, whole, [], []⟩
  | '.' :: after =>
    let fixed := after.takeWhile isAsciiDigit
    match after.dropWhile isAsciiDigit with
    | [] => if fixed.isEmpty then none else some ⟨negative, whole, fixed, []⟩
    | '(' :: inner =>
      let period := inner.takeWhile isAsciiDigit
      if inner.dropWhile isAsciiDigit = [')'] && !period.isEmpty then
        some ⟨negative, whole, fixed, period⟩
      else none
    | _ => none
  | _ => none

end Recurring

def ratOfText? (s : String) : Option Rat :=
  (Recurring.ofChars? s.toList).bind Recurring.value?

end ExactCalc
