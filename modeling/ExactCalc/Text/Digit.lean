/-! # Digits

* `isDigit`: the decimal digits of every script (general category `Nd` of Unicode 16), which come in runs of ten.
* `isAsciiDigit`: the ten digits that have a value here; `natOfDigits` and `digitsOfNat` read and
  write a natural number with them.
-/

namespace ExactCalc.Text

/-- The zeros of the runs of ten decimal digits. -/
def digitZeros : List Nat := [
  0x30, 0x660, 0x6f0, 0x7c0, 0x966, 0x9e6, 0xa66, 0xae6, 0xb66, 0xbe6, 0xc66, 0xce6, 0xd66,
  0xde6, 0xe50, 0xed0, 0xf20, 0x1040, 0x1090, 0x17e0, 0x1810, 0x1946, 0x19d0, 0x1a80, 0x1a90,
  0x1b50, 0x1bb0, 0x1c40, 0x1c50, 0xa620, 0xa8d0, 0xa900, 0xa9d0, 0xa9f0, 0xaa50, 0xabf0, 0xff10,
  0x104a0, 0x10d30, 0x10d40, 0x11066, 0x110f0, 0x11136, 0x111d0, 0x112f0, 0x11450, 0x114d0,
  0x11650, 0x116c0, 0x116d0, 0x116da, 0x11730, 0x118e0, 0x11950, 0x11bf0, 0x11c50, 0x11d50,
  0x11da0, 0x11f50, 0x16130, 0x16a60, 0x16ac0, 0x16b50, 0x16d70, 0x1ccf0, 0x1d7ce, 0x1d7d8,
  0x1d7e2, 0x1d7ec, 0x1d7f6, 0x1e140, 0x1e2f0, 0x1e4f0, 0x1e5f1, 0x1e950, 0x1fbf0]

/-- A decimal digit of some script. -/
def isDigit (c : Char) : Bool :=
  let n := c.toNat
  if n < 0x80 then 0x30 ≤ n && n ≤ 0x39 else digitZeros.any fun z => z ≤ n && n < z + 10

abbrev isAsciiDigit (c : Char) : Bool := c.isDigit

def areAsciiDigits (cs : List Char) : Bool := cs.all isAsciiDigit

def natOfDigits (cs : List Char) : Nat := Nat.ofDigitChars 10 cs 0

def digitsOfNat (n : Nat) : List Char := Nat.toDigits 10 n

theorem natOfDigits_digitsOfNat (n : Nat) : natOfDigits (digitsOfNat n) = n :=
  Nat.ofDigitChars_ten_toDigits

theorem isDigit_of_isAsciiDigit {c : Char} (h : isAsciiDigit c = true) : isDigit c = true := by
  have hc : 48 ≤ c.toNat ∧ c.toNat ≤ 57 := by
    simpa [isAsciiDigit, Char.isDigit, UInt32.le_iff_toNat_le] using h
  simp [isDigit, show c.toNat < 0x80 by omega, hc.1, hc.2]

end ExactCalc.Text
