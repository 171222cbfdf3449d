import ExactCalc.Text.Digit

/-! # Numerals in a text

The numeral at the head of a list of characters. It is the first of four shapes that fits, each as long
as can be:

* digits, a point and digits, any of them possibly none, then a period in parentheses or brackets and an
  optional `r`;
* digits, which take a point, digits and an `r` with them only all together;
* a point and digits, with an optional `r`.

Digits with a plain fraction are two numerals here, `12` and `.5`; the scanner joins them.
-/

namespace ExactCalc.Token

open Text

def recurringMark (cs : List Char) : List Char := if cs.head? = some 'r' then ['r'] else []

/-- The period at the head, after its opening bracket, with the closing bracket and an optional `r`. -/
def periodUntil? (close : Char) (cs : List Char) : Option (List Char) :=
  let period := cs.takeWhile isDigit
  match cs.dropWhile isDigit with
  | c :: rest =>
    if c = close && !period.isEmpty then some (period ++ close :: recurringMark rest) else none
  | [] => none

def period? : List Char → Option (List Char)
  | '(' :: cs => (periodUntil? ')' cs).map ('(' :: ·)
  | '[' :: cs => (periodUntil? ']' cs).map ('[' :: ·)
  | _ => none

/-- The numeral at the head. -/
def numeral? (cs : List Char) : Option (List Char) :=
  let whole := cs.takeWhile isDigit
  match cs.dropWhile isDigit with
  | '.' :: after =>
    let fixed := after.takeWhile isDigit
    let rest := after.dropWhile isDigit
    match period? rest with
    | some period => some (whole ++ '.' :: (fixed ++ period))
    | none =>
      if whole.isEmpty then
        if fixed.isEmpty then none else some ('.' :: (fixed ++ recurringMark rest))
      else if !fixed.isEmpty && rest.head? = some 'r' then some (whole ++ '.' :: (fixed ++ ['r']))
      else some whole
  | _ => if whole.isEmpty then none else some whole

end ExactCalc.Token
