/-! # White space

The characters of the Unicode property `White_Space`, and the three things the calculator does
with them: measuring a leading run, trimming both ends, and deleting them altogether.
-/

namespace ExactCalc.Text

/-- The characters with the property `White_Space`. -/
def isBlank (c : Char) : Bool :=
  let n := c.toNat
  (9 ≤ n && n ≤ 13) || n == 0x20 || n == 0x85 || n == 0xa0 || n == 0x1680 ||
    (0x2000 ≤ n && n ≤ 0x200a) || n == 0x2028 || n == 0x2029 || n == 0x202f || n == 0x205f ||
    n == 0x3000

def trimBlanks (cs : List Char) : List Char :=
  ((cs.dropWhile isBlank).reverse.dropWhile isBlank).reverse

def trim (s : String) : String :=
  String.ofList (trimBlanks s.toList)

def dropBlanks (cs : List Char) : List Char :=
  cs.filter fun c => !isBlank c

end ExactCalc.Text
