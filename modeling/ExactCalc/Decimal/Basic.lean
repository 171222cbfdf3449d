/-! # Exact decimals

A decimal is an integer mantissa and a scale, the number of digits after the point; its value is
`mantissa / 10 ^ scale`. The scale is a 32-bit word and the pair is normal: no final zero of the
mantissa stands after the point, so that equal values have one representation.

* `Decimal.ofScaled` normalises any pair, and every operation ends with it.
* `Decimal.toRat` is the value; sums, differences and remainders align the scales first, products add them.
-/

namespace ExactCalc

def Decimal.scaleLimit : Nat := 4294967296

/-- A mantissa with a number of digits after the point, in normal form. -/
structure Decimal where
  mantissa : Int
  scale : Nat
  normal : scale = 0 ∨ ¬ (10 : Int) ∣ mantissa
  scale_lt : scale < Decimal.scaleLimit
  deriving DecidableEq

namespace Decimal

/-! ## Normal form -/

/-- Removes final zeros of the mantissa as long as they stand after the point. -/
def strip (m : Int) : Nat → Int × Nat
  | 0 => (m, 0)
  | s + 1 =>
    if m = 0 then (0, 0)
    else if m % 10 = 0 then strip (m / 10) s
    else (m, s + 1)

theorem strip_snd_le (m : Int) (s : Nat) : (strip m s).2 ≤ s := by
  induction s generalizing m with
  | zero => simp [strip]
  | succ s ih =>
    rw [strip]
    split
    · simp
    · split
      · exact Nat.le_succ_of_le (ih _)
      · exact Nat.le_refl _

theorem strip_normal (m : Int) (s : Nat) :
    (strip m s).2 = 0 ∨ ¬ (10 : Int) ∣ (strip m s).1 := by
  induction s generalizing m with
  | zero => simp [strip]
  | succ s ih =>
    rw [strip]
    split
    · simp
    · split
      · exact ih _
      · right; simp only; omega

theorem lt_scaleLimit {d : Decimal} {places : Nat} (h : ¬ d.scale ≤ places) : places < scaleLimit :=
  Nat.lt_trans (Nat.lt_of_not_le h) d.scale_lt

def ofScaled (m : Int) (s : Nat) (h : s < scaleLimit) : Decimal where
  mantissa := (strip m s).1
  scale := (strip m s).2
  normal := strip_normal m s
  scale_lt := Nat.lt_of_le_of_lt (strip_snd_le m s) h

def ofInt (n : Int) : Decimal := ofScaled n 0 (by decide)

def zero : Decimal := ofInt 0

def one : Decimal := ofInt 1

/-! ## Value and order -/

def toRat (d : Decimal) : Rat := mkRat d.mantissa (Nat.pow 10 d.scale)

def isZero (d : Decimal) : Bool := d.mantissa == 0

def isNegative (d : Decimal) : Bool := d.mantissa < 0

/-- The mantissa of a decimal written with `s` digits after the point, for `s` at least its scale. -/
def mantissaAt (d : Decimal) (s : Nat) : Int := d.mantissa * (Nat.pow 10 (s - d.scale) : Nat)

def commonScale (a b : Decimal) : Nat := Nat.max a.scale b.scale

theorem commonScale_lt (a b : Decimal) : a.commonScale b < scaleLimit :=
  Nat.max_lt.2 ⟨a.scale_lt, b.scale_lt⟩

def compare (a b : Decimal) : Ordering :=
  Ord.compare (a.mantissaAt (a.commonScale b)) (b.mantissaAt (a.commonScale b))

instance : Ord Decimal := ⟨compare⟩
instance : LT Decimal := ltOfOrd
instance : LE Decimal := leOfOrd

def max (a b : Decimal) : Decimal := if a.compare b = .gt then a else b

def min (a b : Decimal) : Decimal := if a.compare b = .gt then b else a

/-! ## Arithmetic -/

def add (a b : Decimal) : Decimal :=
  ofScaled (a.mantissaAt (a.commonScale b) + b.mantissaAt (a.commonScale b)) (a.commonScale b)
    (commonScale_lt a b)

def sub (a b : Decimal) : Decimal :=
  ofScaled (a.mantissaAt (a.commonScale b) - b.mantissaAt (a.commonScale b)) (a.commonScale b)
    (commonScale_lt a b)

/-- The product. There is none if the two scales add up to more than a 32-bit word. -/
def mul? (a b : Decimal) : Option Decimal :=
  if h : a.scale + b.scale < scaleLimit then
    some <| ofScaled (a.mantissa * b.mantissa) (a.scale + b.scale) h
  else none

def neg (a : Decimal) : Decimal := ofScaled (-a.mantissa) a.scale a.scale_lt

instance : Add Decimal := ⟨add⟩
instance : Sub Decimal := ⟨sub⟩
instance : Neg Decimal := ⟨neg⟩

/-- The remainder of the division that truncates toward zero; it has the sign of the dividend. There
is none for the divisor zero. -/
def rem? (a b : Decimal) : Option Decimal :=
  if b.isZero then none
  else some <| ofScaled
    (Int.tmod (a.mantissaAt (a.commonScale b)) (b.mantissaAt (a.commonScale b)))
    (a.commonScale b) (commonScale_lt a b)

/-- The decimal times `10 ^ e`, if the exponent and the new scale are 32-bit words. -/
def shift? (d : Decimal) (e : Int) : Option Decimal :=
  if scaleLimit ≤ e.natAbs then none
  else if 0 ≤ e then
    some <| ofScaled (d.mantissa * (Nat.pow 10 (e.natAbs - d.scale) : Nat)) (d.scale - e.natAbs)
      (Nat.lt_of_le_of_lt (Nat.sub_le ..) d.scale_lt)
  else if h : d.scale + e.natAbs < scaleLimit then some <| ofScaled d.mantissa (d.scale + e.natAbs) h
  else none

end Decimal

end ExactCalc
