import ExactCalc.Error
import ExactCalc.Rational.Recurring
import ExactCalc.Text.Digit

/-! # Number literals

Which texts are numbers as written.

* Amounts: no sign, and one to six digits after a point. Numerals: an optional minus sign and any number
  of digits after a point. Both take digits of every script.
* Recurring literals: a period in parentheses or brackets, with an optional `r`, or an `r` after a fraction
  whose last digit recurs.
-/

namespace ExactCalc

open Text

def amountDigits : Nat := 6

/-- Whether the characters are digits, with an optional point that has at least one and at most `most`
digits after it; before it there may be none. -/
def isPlainNumeral (most : Option Nat) (cs : List Char) : Bool :=
  let whole := cs.takeWhile isDigit
  match cs.dropWhile isDigit with
  | [] => !whole.isEmpty
  | '.' :: fraction =>
    !fraction.isEmpty && fraction.all isDigit && most.all (fraction.length ≤ ·)
  | _ => false

def isAmountText (s : String) : Bool := isPlainNumeral (some amountDigits) s.toList

/-- Whether a text is an amount, or a numeral with a sign or more digits. -/
def isNumericText (s : String) : Bool :=
  isAmountText s ||
    (match s.toList with
    | '-' :: cs => isPlainNumeral none cs
    | cs => isPlainNumeral none cs)

def amountText? (s : String) : Result String :=
  if isAmountText s then .ok s else .error (.notAnAmount s)

/-! ## Recurring literals -/

def unsignedPart (cs : List Char) : List Char := if cs.head? = some '-' then cs.tail else cs

def isPeriodUntil (close : Char) (cs : List Char) : Bool :=
  let rest := cs.dropWhile isDigit
  !(cs.takeWhile isDigit).isEmpty && (rest == [close] || rest == [close, 'r'])

def isRecurringText (cs : List Char) : Bool :=
  let body := unsignedPart cs
  match body.dropWhile isDigit with
  | '.' :: after =>
    !(body.takeWhile isDigit).isEmpty &&
      match after.dropWhile isDigit with
      | ['r'] => !(after.takeWhile isDigit).isEmpty
      | '[' :: rest => isPeriodUntil ']' rest
      | '(' :: rest => isPeriodUntil ')' rest
      | _ => false
  | _ => false

/-- Whether it is the last digit of the characters that recurs. -/
def hasRecurringDigit (cs : List Char) : Bool :=
  match (unsignedPart cs).dropWhile isDigit with
  | '.' :: after => !(after.takeWhile isDigit).isEmpty && after.dropWhile isDigit == ['r']
  | _ => false

def dropMark (cs : List Char) : List Char := if cs.getLast? = some 'r' then cs.dropLast else cs

def encloseLast (cs : List Char) : List Char :=
  match cs.getLast? with
  | some last => cs.dropLast ++ ['(', last, ')']
  | none => []

/-- The characters with the first period in brackets in parentheses instead. -/
def replaceBrackets : List Char → List Char
  | [] => []
  | c :: cs =>
    let period := cs.takeWhile isDigit
    match cs.dropWhile isDigit with
    | ']' :: rest => if c = '[' && !period.isEmpty then '(' :: (period ++ ')' :: rest) else c :: replaceBrackets cs
    | _ => c :: replaceBrackets cs

/-- A recurring literal with its period in parentheses and no `r`. -/
def normalized (cs : List Char) : List Char :=
  let unmarked := dropMark cs
  if hasRecurringDigit cs then encloseLast unmarked
  else if unmarked.contains '[' then replaceBrackets unmarked
  else unmarked

def recurringValue? (s : String) : Option Rat :=
  if isRecurringText s.toList then ratOfText? (String.ofList (normalized s.toList)) else none

end ExactCalc
