/-! # Operations

The six operations of a calculation. Two of them are written differently and mean the same product.
-/

namespace ExactCalc

inductive Operation
  | plus
  | minus
  /-- The product written with a star. -/
  | multiply
  /-- The product written with the letter x. -/
  | times
  | divide
  /-- The remainder of the division that truncates toward zero. -/
  | modulo
  deriving DecidableEq, Repr, Inhabited

namespace Operation

def symbol : Operation → Char
  | plus => '+'
  | minus => '-'
  | multiply => '*'
  | times => 'x'
  | divide => '/'
  | modulo => '%'

def text (op : Operation) : String := String.singleton op.symbol

def ofSymbol? : String → Option Operation
  | "+" => some plus
  | "-" => some minus
  | "*" => some multiply
  | "x" => some times
  | "/" => some divide
  | "%" => some modulo
  | _ => none

theorem ofSymbol?_text (op : Operation) : ofSymbol? op.text = some op := by
  cases op <;> decide

end Operation

end ExactCalc
