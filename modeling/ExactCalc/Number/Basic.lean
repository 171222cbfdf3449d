import ExactCalc.Binary64
import ExactCalc.Json.Document
import ExactCalc.Number.Amount
import ExactCalc.Number.Literal
import ExactCalc.Rational.Expansion
import ExactCalc.Rational.Simplest

/-! # Numbers

A number keeps the form in which it was given: a decimal, a rational, a numeral or an amount as written.

* `Number.create` makes one from a text, an integer, a float, a decimal or a rational.
* `Number.toDecimal`, `Number.toRational` and `Number.toExact` are its values; a numeral is read when its
  value is asked for, and may turn out to have none.
* `Number.text`, `Number.operandText` and `Number.toDocument` write it.
-/

namespace ExactCalc

/-- A number in the form in which it was given. -/
inductive Number
  | decimal (d : Decimal)
  | rational (r : Rat)
  /-- A numeral as written, with a sign or more than six digits after the point. -/
  | numeral (written : String)
  | amount (written : String)
  deriving DecidableEq

inductive Input
  | text (s : String)
  | rational (r : Rat)
  | decimal (d : Decimal)
  | float (x : Binary64)
  | integer (n : Int)
  deriving DecidableEq

namespace Number

def zero : Number := amount "0"

def one : Number := amount "1"

def kind : Number → String
  | decimal _ => "decimal"
  | rational _ => "rational"
  | numeral _ => "numeric_string"
  | amount _ => "amount_string"

/-- A rational result: exact if its expansion ends, simplified otherwise. -/
def ofRational (r : Rat) : Number :=
  if isFiniteDecimal r then rational r else rational (simplify r defaultTolerance)

def ofText (s : String) : Result Number :=
  if s.isEmpty then .ok zero
  else if isAmountText s then .ok (amount s)
  else if isNumericText s then .ok (numeral s)
  else
    match recurringValue? s with
    | some r => .ok (rational r)
    | none => .error (.unsupported s)

def create : Input → Result Number
  | .text s => ofText s
  | .rational r => .ok (ofRational r)
  | .decimal d => .ok (decimal d)
  | .integer n => .ok (decimal (Decimal.ofInt n))
  | .float x =>
    match x.toDecimal? with
    | some d => .ok (decimal d)
    | none => .error (.unsupported x.undefinedText)

/-! ## Values -/

def readAs {α : Type} (value? : String → Option α) (s : String) : Result α :=
  match value? s with
  | some v => .ok v
  | none => .error (.unsupported s)

def toDecimal : Number → Result Decimal
  | decimal d => .ok d
  | rational r => .ok (Decimal.approximate r .halfCeil)
  | numeral s | amount s => readAs Decimal.ofText? s

def toRational : Number → Result Rat
  | decimal d => .ok d.toRat
  | rational r => .ok r
  | numeral s | amount s => readAs ratOfText? s

/-- The exact value: a rational stays one, all else is a decimal. -/
def toExact : Number → Result Exact
  | rational r => .ok (.rational r)
  | n => n.toDecimal.map .decimal

def isZero (n : Number) : Result Bool := n.toExact.map Exact.isZero

def isOne (n : Number) : Result Bool := n.toExact.map Exact.isOne

def amountText (policy : AmountPolicy) : Number → Result String
  | amount s => .ok s
  | n => n.toExact.map (·.amountText policy)

/-- The number as an operand of an operation: a written number becomes a rational for a division, and a
decimal for any other operation. -/
def operandFor (op : Operation) : Number → Result Number
  | numeral s | amount s =>
    if op = .divide then (readAs ratOfText? s).map rational else (readAs Decimal.ofText? s).map decimal
  | n => .ok n

/-! ## Writing -/

def text : Number → String
  | decimal d => d.text
  | rational r => ratText r
  | numeral s | amount s => s

/-- The number as an operand in the text of a calculation: a rational whose period is too long to be
written becomes a division in parentheses. -/
def operandText : Number → String
  | rational r =>
    match exactRatText? r with
    | some s => s
    | none => "(" ++ toString r.num ++ " / " ++ toString r.den ++ ")"
  | n => n.text

/-- The JSON form of a number in the form that it has. A rational that is no integer is a division. -/
def plainDocument : Number → Document
  | rational r =>
    if r.den = 1 then .number (toString r.num)
    else .calculation (.number (toString r.num)) .divide (.number (toString r.den))
  | n => .number n.text

def toDocument (n : Number) : Result Document := do
  if ← n.isOne then return .number "1"
  if ← n.isZero then return .number "0"
  return n.plainDocument

end Number

end ExactCalc
