import ExactCalc.Operand

/-! # Entries

An entry is a text as a person types it: a number, a number in scientific notation, or a calculation, with
white space around it. `Entry.read` gives its operand, `Worksheet.evaluate` everything there is to say
about it.
-/

namespace ExactCalc

open Text

namespace Entry

def exponentLimit : Nat := 10000

structure Scientific where
  mantissa : List Char
  negative : Bool
  exponent : List Char
  deriving DecidableEq, Repr

/-- The parts of a text in scientific notation. The mantissa has digits before the point and, if there is a
point, after it; the exponent has a sign. -/
def scientific? (cs : List Char) : Option Scientific :=
  let mantissa := cs.takeWhile (· ≠ 'e')
  let body := if mantissa.head? = some '-' then mantissa.tail else mantissa
  let fraction := body.dropWhile isDigit
  let plain := !(body.takeWhile isDigit).isEmpty &&
    (match fraction with
    | [] => true
    | '.' :: after => !after.isEmpty && after.all isDigit
    | _ => false)
  match cs.dropWhile (· ≠ 'e') with
  | 'e' :: sign :: exponent =>
    if plain && (sign = '+' || sign = '-') && !exponent.isEmpty && exponent.all isDigit then
      some ⟨mantissa, sign = '-', exponent⟩
    else none
  | _ => none

/-- The power of ten of an exponent, if the exponent is within the limit. -/
def Scientific.power? (s : Scientific) : Option Decimal :=
  if areAsciiDigits s.exponent then
    let k := natOfDigits s.exponent
    if k ≤ exponentLimit then Decimal.one.shift? (if s.negative then -(k : Int) else k) else none
  else none

/-- The number in scientific notation, exactly; `entry` is the whole text. -/
def Scientific.read (s : Scientific) (entry : String) : Result Operand := do
  match s.power? with
  | none => .error (.unsupported entry)
  | some power =>
    let mantissa ← Number.ofText (String.ofList s.mantissa)
    (Operand.number mantissa).apply .times (.number (.decimal power))

def readTrimmed (s : String) : Result Operand :=
  if isNumericText s then (Number.ofText s).map .number
  else
    match scientific? s.toList with
    | some t => t.read s
    | none => (Expr.ofText s).map Expr.toOperand

def read (s : String) : Except NotValid Operand :=
  (readTrimmed (trim s)).mapError (⟨trim s, ·⟩)

end Entry

/-- What there is to say about an entry. -/
structure Worksheet where
  value : String
  amount : String
  calculation : String
  tokens : String
  types : String
  json : String
  deriving DecidableEq, Repr

namespace Worksheet

def ofOperand (x : Operand) (policy : AmountPolicy) : Result Worksheet := do
  let value ← x.valueText
  let amount ← x.amountText policy
  let calculation := x.text
  let tokens :=
    match Token.scan calculation with
    | .ok ts => Token.render ts
    | .error _ => ""
  let types ← x.typeText
  let json ← x.toDocument
  return { value, amount, calculation, tokens, types, json := json.text }

def evaluate (s : String) (policy : AmountPolicy) : Except NotValid Worksheet := do
  let x ← Entry.read s
  (ofOperand x policy).mapError (⟨Text.trim s, ·⟩)

end Worksheet

end ExactCalc
