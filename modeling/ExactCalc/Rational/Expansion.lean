import ExactCalc.Text.Digit

/-! # Recurring notation, written

Long division of a remainder by a denominator. A remainder that comes back starts the period; a
remainder of zero ends the expansion. At most `Expansion.digitLimit` digits are looked at, and an
expansion that goes on beyond them is cut to its first `Expansion.cutLength` digits.
-/

namespace ExactCalc

/-- The digits after the point of a fraction. -/
inductive Expansion
  | finite (digits : List Nat)
  | recurring (fixed period : List Nat)
  /-- The expansion neither ended nor repeated within the limit. -/
  | cut (digits : List Nat)
  deriving DecidableEq, Repr

namespace Expansion

open Text

def digitLimit : Nat := 2000

def cutLength : Nat := 15

/-- Long division by `den`. The trail holds the remainders met so far with the digit that each gave, the
latest first; `left` more digits may be added to it. -/
def divide (den : Nat) : (left : Nat) → (rem : Nat) → (trail : List (Nat × Nat)) → Expansion
  | left, rem, trail =>
    if rem = 0 then .finite (trail.reverse.map Prod.snd)
    else if trail.any (·.1 == rem) then
      let steps := trail.reverse
      .recurring ((steps.takeWhile (·.1 ≠ rem)).map Prod.snd)
        ((steps.dropWhile (·.1 ≠ rem)).map Prod.snd)
    else
      match left with
      | 0 => .cut (trail.reverse.map Prod.snd)
      | left + 1 => divide den left (rem * 10 % den) ((rem, rem * 10 / den) :: trail)

def ofRat (r : Rat) : Expansion := divide r.den digitLimit (r.num.natAbs % r.den) []

def digitChars (digits : List Nat) : List Char := digits.map Nat.digitChar

def isExact : Expansion → Bool
  | .finite _ | .recurring _ _ => true
  | .cut _ => false

def toChars : Expansion → List Char
  | .finite [] => []
  | .finite digits => '.' :: digitChars digits
  | .recurring fixed period => '.' :: (digitChars fixed ++ '(' :: (digitChars period ++ [')']))
  | .cut digits =>
    match ((digitChars (digits.take cutLength)).reverse.dropWhile (· == '0')).reverse with
    | [] => []
    | kept => '.' :: kept

end Expansion

def ratChars (r : Rat) : List Char :=
  (if r.num < 0 then ['-'] else []) ++ Text.digitsOfNat (r.num.natAbs / r.den) ++
    (Expansion.ofRat r).toChars

/-- The recurring notation of a rational, cut if the period is too long to be written. -/
def ratText (r : Rat) : String := String.ofList (ratChars r)

/-- The recurring notation of a rational, unless it would be cut. -/
def exactRatText? (r : Rat) : Option String :=
  if (Expansion.ofRat r).isExact then some (ratText r) else none

end ExactCalc
