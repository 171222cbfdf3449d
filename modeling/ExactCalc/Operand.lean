import ExactCalc.Expr.Reduction
import ExactCalc.Json.Reader

/-! # Operands

An operand is a number, a calculation of two operands, or a phrase: a text that is read only when its value
is asked for, or a phrase that has been extended by an operation and is written out as text again.

Every value of an operand is a value of the number that it resolves to. `Operand.shortCircuit` tells when
one side of an operation is the result already, `Operand.apply` computes an operation, and
`Operand.compare`, `Operand.abs` and `Operand.extremum?` go by the exact values.
-/

namespace ExactCalc

mutual

/-- What an operation can be applied to. -/
inductive Operand
  | number (n : Number)
  | calculation (left : Operand) (op : Operation) (right : Operand)
  | phrase (p : Phrase)

/-- A text that is read on demand. -/
inductive Phrase
  | written (text : String)
  | extended (p : Phrase) (op : Operation) (operand : Operand)

end

/-! ## Short circuits -/

inductive Side
  | left
  | right
  deriving DecidableEq, Repr

/-- The side of an operation that is its result as it stands: the other side is neutral, or this one is a
zero in a product. The sides are asked for being zero or one in this order, and only as far as needed. -/
def Operation.shortCircuit {m : Type → Type} [Monad m] (op : Operation)
    (leftIsZero leftIsOne rightIsZero rightIsOne : m Bool) : m (Option Side) := do
  match op with
  | .plus =>
    if ← leftIsZero then return some .right
    if ← rightIsZero then return some .left
    return none
  | .minus =>
    if ← rightIsZero then return some .left
    return none
  | .multiply | .times =>
    if ← leftIsZero then return some .left
    if ← rightIsOne then return some .left
    if ← rightIsZero then return some .right
    if ← leftIsOne then return some .right
    return none
  | .divide =>
    if ← rightIsOne then return some .left
    return none
  | .modulo => return none

/-- Whether an operation with this right side leaves any left side as it is, or is to be taken so. -/
def Operation.isNeutral {m : Type → Type} [Monad m] (op : Operation) (isZero isOne : m Bool) : m Bool :=
  match op with
  | .plus | .minus => isZero
  | .multiply | .times | .divide => isOne
  | .modulo => return false

def Expr.toOperand : Expr → Operand
  | .number n => .number n
  | .binary left op right => .calculation left.toOperand op right.toOperand

/-! ## Text -/

/-- The text of an extended phrase: the phrase is written as the number that it is, or in parentheses. -/
def Phrase.join (source : String) (parsed : Result Expr) (op : Operation) (right : String) : String :=
  let left :=
    match parsed with
    | .ok (.number n) => n.operandText
    | _ => "(" ++ source ++ ")"
  left ++ " " ++ op.text ++ " " ++ right

mutual

def Operand.sideText : Operand → String
  | .number n => n.operandText
  | .calculation left op right => "(" ++ left.sideText ++ " " ++ op.text ++ " " ++ right.sideText ++ ")"
  | .phrase p => "(" ++ p.text ++ ")"

def Phrase.text : Phrase → String
  | .written s => s
  | .extended p op operand =>
    let source := p.text
    Phrase.join source (Expr.ofText source) op operand.sideText

end

def Phrase.parsed (p : Phrase) : Result Expr := Expr.ofText p.text

def Phrase.tokens (p : Phrase) : Except ScanError (List Token) := Token.scan p.text

def Operand.isWritten (literal : String) : Operand → Bool
  | .phrase (.written s) => Text.trim s == literal
  | _ => false

def Phrase.isValid (p : Phrase) : Bool := p.parsed.isOk

namespace Operand

def text : Operand → String
  | number n => n.text
  | calculation left op right => left.sideText ++ " " ++ op.text ++ " " ++ right.sideText
  | phrase p => p.text

def kind : Operand → String
  | number n => n.kind
  | calculation .. => "calculation"
  | phrase _ => "token_scan"

/-- What the operand is made of. A phrase is read, but nothing is resolved. -/
def typeText : Operand → Result String
  | number n => .ok n.kind
  | calculation left op right => .ok (left.kind ++ " " ++ op.text ++ " " ++ right.kind)
  | phrase p => p.parsed.map Expr.typeText

/-! ## Value -/

def resolve : Operand → Result Number
  | number n => .ok n
  | calculation left op right => do
    let a ← (← left.resolve).exactFor op
    let b ← (← right.resolve).exactFor op
    op.onExact a b
  | phrase p => do (← p.parsed).resolve

def toExact (x : Operand) : Result Exact := do (← x.resolve).toExact

def toDecimal (x : Operand) : Result Decimal := do (← x.resolve).toDecimal

def toRational (x : Operand) : Result Rat := do (← x.resolve).toRational

def valueText (x : Operand) : Result String := do return (← x.resolve).text

def amountText (x : Operand) (policy : AmountPolicy) : Result String := do
  (← x.resolve).amountText policy

def shown (x : Operand) : Result String := do
  match ← observed x.valueText with
  | .ok s => return s
  | .error _ => return x.text

def isZero (x : Operand) : Result Bool := do (← x.resolve).isZero

def isOne (x : Operand) : Result Bool := do (← x.resolve).isOne

def compare (x y : Operand) : Result Ordering := do
  let a ← x.toExact
  let b ← y.toExact
  return a.compare b

def shortCircuit (left : Operand) (op : Operation) (right : Operand) : Result (Option Side) :=
  op.shortCircuit left.isZero left.isOne right.isZero right.isOne

/-- The result of an operation: a side, if it short-circuits, else the number that it resolves to. -/
def reduce (left : Operand) (op : Operation) (right : Operand) : Result Operand := do
  match ← shortCircuit left op right with
  | some .left => return left
  | some .right => return right
  | none => return .number (← (calculation left op right).resolve)

/-! ## Operations -/

/-- The operation applied to two operands. A phrase is only extended; numbers and calculations are resolved
at once. -/
def apply (x : Operand) (op : Operation) (y : Operand) : Result Operand := do
  match x with
  | phrase p =>
    if ← op.isNeutral y.isZero y.isOne then return x
    return phrase (.extended p op y)
  | _ => reduce x op y

def opened : Operand → Result Operand
  | phrase p => p.parsed.map Expr.toOperand
  | x => .ok x

/-- The absolute value: the operand itself unless it is below zero. -/
def abs (x : Operand) : Result Operand := do
  let x ← x.opened
  if ← x.isZero then return x
  if (← x.compare (number (.decimal .zero))) = .lt then reduce (number .zero) .minus x
  else return x

/-- The first of a list that no later one beats, starting from `best`; one beats another if the other
compares to it as `worse`. -/
def extremum (worse : Ordering) (best : Operand) : List Operand → Result Operand
  | [] => .ok best
  | y :: ys => do
    if (← best.compare y) = worse then extremum worse y ys else extremum worse best ys

def max (x : Operand) (ys : List Operand) : Result Operand := do
  extremum .lt (← x.opened) ys

def min (x : Operand) (ys : List Operand) : Result Operand := do
  extremum .gt (← x.opened) ys

/-! ## Inspection -/

def formName : Number → String
  | .decimal _ => "Decimal"
  | .rational _ => "Rational"
  | .numeral _ => "NumericString"
  | .amount _ => "AmountString"

def operationName : Operation → String
  | .plus => "Plus"
  | .minus => "Minus"
  | .multiply => "Multiply"
  | .times => "Times"
  | .divide => "Divide"
  | .modulo => "Modulo"

def inspectNumber (n : Number) (text : String) : String :=
  "Number(Number(" ++ formName n ++ ", " ++ Text.quoted text ++ "))"

def inspectCalculation (left : String) (op : Operation) (right : String) : String :=
  "Calculation(Calculation \x7b left: " ++ left ++ ", operation: " ++ operationName op ++
    ", right: " ++ right ++ " \x7d)"

def inspectPhrase (text : String) : String := "Scan(TokenScan(" ++ Text.quoted text ++ "))"

def inspect : Operand → String
  | number n => inspectNumber n n.text
  | calculation left op right => inspectCalculation left.inspect op right.inspect
  | phrase p => inspectPhrase p.text

/-! ## JSON form -/

/-- The JSON form. The two sides of a calculation are resolved, but not the calculation itself, unless one
side is the result. A phrase keeps its text. -/
def toDocument : Operand → Result Document
  | number n => n.toDocument
  | calculation left op right => do
    let a ← (← left.resolve).operandFor op
    let b ← (← right.resolve).operandFor op
    match ← shortCircuit (number a) op (number b) with
    | some .left => a.toDocument
    | some .right => b.toDocument
    | none => return .calculation (← a.toDocument) op (← b.toDocument)
  | phrase p => .ok (.phrase p.text)

/-- The operand of a document. Numbers are made anew from their text; nothing else is read. -/
def ofDocument : Document → Result Operand
  | .number value => (Number.ofText value).map number
  | .calculation left op right => do
    return calculation (← ofDocument left) op (← ofDocument right)
  | .phrase value => .ok (phrase (.written value))

def ofJson (s : String) : Result Operand :=
  match Document.ofText? s with
  | some d => ofDocument d
  | none => .error .json

end Operand

end ExactCalc
