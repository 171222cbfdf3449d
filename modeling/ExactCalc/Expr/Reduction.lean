import ExactCalc.Expr.Basic
import ExactCalc.Token.Scan

/-! # Reduction of tokens to an expression

Operations are read from left to right and none binds stronger than another; only parentheses group. The
state of the reading is an operand on the left, an operation that waits for its right operand, and a stack
of what open parentheses have interrupted: a group, or a left operand with its operation.

* `Reduction.step` reads one token, `Reduction.finish` accepts the state after the last one.
* `Expr.ofTokens` reads a list of tokens, `Expr.ofText` a text.
-/

namespace ExactCalc

/-- What waits for an open parenthesis to be closed. -/
inductive Frame
  | group
  | pending (left : Expr) (op : Operation)
  deriving DecidableEq

/-- The state between two tokens. -/
structure Reduction where
  stack : List Frame := []
  left : Option Expr := none
  right : Option Expr := none
  operation : Option Operation := none
  mode : OperandMode := .left
  deriving DecidableEq

namespace Reduction

def snapshot (s : Reduction) : Snapshot where
  depth := s.stack.length
  left := s.left.map Expr.text
  right := s.right.map Expr.text
  operation := s.operation
  mode := s.mode

def fail {α : Type} (s : Reduction) (source : String) (fault : ParseFault) (token : Option Token) :
    Result α :=
  .error (.parse ⟨fault, s.snapshot, token, source⟩)

def openGroup (s : Reduction) (source : String) (t : Token) : Result Reduction :=
  match s.mode with
  | .left => .ok { s with stack := .group :: s.stack }
  | .right =>
    match s.left, s.operation with
    | none, _ =>
      match s.stack.head? with
      | some (.pending ..) => .ok s
      | _ => s.fail source .openWithoutLeft t
    | some _, none => s.fail source .openWithoutOperation t
    | some left, some op =>
      .ok { stack := .pending left op :: s.stack, left := none, right := none, operation := none,
            mode := .left }

/-- Completes the operation that an open parenthesis has interrupted, if it is the innermost frame. -/
def fold (stack : List Frame) (e : Expr) : List Frame × Expr :=
  match stack with
  | .pending left op :: rest => (rest, .binary left op e)
  | _ => (stack, e)

def readNumber (s : Reduction) (source : String) (t : Token) : Result Reduction := do
  let n ← Number.ofText (String.ofList (Text.dropBlanks t.text.toList))
  match s.mode with
  | .left => return { s with left := some (.number n), mode := .right }
  | .right =>
    match s.operation, s.left with
    | none, _ => s.fail source .rightWithoutOperation t
    | some _, none => s.fail source .rightWithoutLeft t
    | some op, some left =>
      let (stack, e) := fold s.stack (.binary left op (.number n))
      return { s with stack, left := some e, right := none, operation := none }

def readOperation (s : Reduction) (source : String) (t : Token) : Result Reduction :=
  if s.left.isNone then s.fail source .operationWithoutLeft t
  else if s.operation.isSome then s.fail source .operationPending t
  else
    match Operation.ofSymbol t.text with
    | .ok op => .ok { s with operation := some op }
    | .error e => .error (.scan e)

def closeGroup (s : Reduction) (source : String) (t : Token) (isLast : Bool) : Result Reduction :=
  let complete := s.operation.isNone && s.right.isNone && s.left.isSome
  match s.stack with
  | .group :: stack =>
    if complete then .ok { s with stack } else { s with stack }.fail source .closeIncompleteGroup t
  | .pending left op :: stack =>
    match s.left with
    | some inner =>
      if complete then .ok { s with stack, left := some (.binary left op inner), mode := .right }
      else { s with stack }.fail source .closeIncompleteOperation t
    | none => { s with stack }.fail source .closeIncompleteOperation t
  | [] =>
    if !isLast && (s.operation.isSome || s.right.isSome) then
      s.fail source .closeIncompleteReading t
    else .ok s

def step (s : Reduction) (source : String) (t : Token) (isLast : Bool) : Result Reduction :=
  match t.kind with
  | .opening => s.openGroup source t
  | .closing => s.closeGroup source t isLast
  | .numeric => s.readNumber source t
  | .operation => s.readOperation source t
  | .blank => s.fail source .blankToken t

def run (s : Reduction) (source : String) : List Token → Result Reduction
  | [] => .ok s
  | t :: ts => do (← s.step source t ts.isEmpty).run source ts

/-- The expression that has been read, if nothing is left open. -/
def finish (s : Reduction) (source : String) : Result Expr :=
  match s.stack, s.left, s.right, s.operation with
  | [], some e, none, none => .ok e
  | _, _, _, _ => s.fail source .unfinished none

end Reduction

namespace Expr

def ofTokens (source : String) (ts : List Token) : Result Expr := do
  (← ({} : Reduction).run source ts).finish source

def tokensOf (s : String) : Result (List Token) := (Token.scan s).mapError .scan

def ofText (s : String) : Result Expr := do
  ofTokens s (← tokensOf s)

end Expr

end ExactCalc
