import ExactCalc.Number.Basic

/-! # Expressions

An expression is a tree of operations over numbers. It stands for what was written: nothing in it is
simplified. `Expr.resolve` computes its value, `Expr.text` writes it with every group in parentheses.

Arithmetic is decimal as long as both sides are decimals and nothing is divided, and rational otherwise;
both are exact, but a rational result with an infinite expansion is simplified.
-/

namespace ExactCalc

/-- A calculation as it was written. -/
inductive Expr
  | number (n : Number)
  | binary (left : Expr) (op : Operation) (right : Expr)
  deriving DecidableEq

/-! ## Arithmetic -/

def truncation (r : Rat) : Int := r.num.tdiv r.den

def Operation.onRationals (op : Operation) (a b : Rat) : Result Rat :=
  match op with
  | .plus => .ok (a + b)
  | .minus => .ok (a - b)
  | .multiply | .times => .ok (a * b)
  | .divide => if b = 0 then .error (.divisionByZero op) else .ok (a / b)
  | .modulo => if b = 0 then .error (.divisionByZero op) else .ok (a - b * truncation (a / b))

/-- The operation on exact values: decimal on decimals, unless it is a division. -/
def Operation.onExact (op : Operation) (a b : Exact) : Result Number :=
  match op, a, b with
  | .plus, .decimal a, .decimal b => .ok (.decimal (a + b))
  | .minus, .decimal a, .decimal b => .ok (.decimal (a - b))
  | .multiply, .decimal a, .decimal b | .times, .decimal a, .decimal b =>
    match a.mul? b with
    | some d => .ok (.decimal d)
    | none => .error .overflow
  | .modulo, .decimal a, .decimal b =>
    match a.rem? b with
    | some r => .ok (.decimal r)
    | none => .error (.divisionByZero op)
  | op, a, b => (op.onRationals a.toRat b.toRat).map Number.ofRational

def Number.exactFor (n : Number) (op : Operation) : Result Exact := do
  (← n.operandFor op).toExact

namespace Expr

/-- The value of an expression. The left side comes first, also where something fails. -/
def resolve : Expr → Result Number
  | number n => .ok n
  | binary left op right => do
    let a ← (← left.resolve).exactFor op
    let b ← (← right.resolve).exactFor op
    op.onExact a b

def sideText : Expr → String
  | number n => n.operandText
  | binary left op right => "(" ++ left.sideText ++ " " ++ op.text ++ " " ++ right.sideText ++ ")"

def text : Expr → String
  | number n => n.text
  | binary left op right => left.sideText ++ " " ++ op.text ++ " " ++ right.sideText

def sideKind : Expr → String
  | number n => n.kind
  | binary .. => "calculation"

def typeText : Expr → String
  | number n => n.kind
  | binary left op right => left.sideKind ++ " " ++ op.text ++ " " ++ right.sideKind

end Expr

end ExactCalc
