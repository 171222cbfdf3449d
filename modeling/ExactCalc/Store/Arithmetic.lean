import ExactCalc.Store.Conversion

/-! # Operations on nodes

Arithmetic and comparison of nodes. A result that is one of the operands is the very node of that operand; any
other result is a new node.
-/

namespace ExactCalc

/-- What an operation is applied to: a node, or an input to make a number from. -/
inductive Argument
  | node (id : NodeId)
  | input (i : Input)

namespace Node

open Attempt

def ofArgument : Argument → Attempt NodeId
  | .node id => return id
  | .input i => do Session.newNumber (← ofResult (Number.create i))

def operandOf (id : NodeId) : Session Operand := do return (← get).operand id

def via {α : Type} (convert : Operand → NodeId → Attempt α) (id : NodeId) : Attempt α := do
  convert (← operandOf id) id

def shortCircuit (left : NodeId) (op : Operation) (right : NodeId) : Attempt (Option NodeId) := do
  let side ← op.shortCircuit (via isZero left) (via isOne left) (via isZero right) (via isOne right)
  match side with
  | some .left => return some left
  | some .right => return some right
  | none => return none

def reduce (left : NodeId) (op : Operation) (right : NodeId) : Attempt NodeId := do
  match ← shortCircuit left op right with
  | some id => return id
  | none =>
    let id ← Session.newCalculation left op right
    return (← via resolve id).id

/-- The operation applied to a node and an argument. Adding to zero gives the argument as it is. A phrase is
only extended, or stays itself. -/
def apply (id : NodeId) (op : Operation) (y : Argument) : Attempt NodeId := do
  match ← operandOf id with
  | .phrase p =>
    let y ← ofArgument y
    if ← op.isNeutral (via isZero y) (via isOne y) then return id
    let operand ← operandOf y
    Session.newNode { operand := .phrase (.extended p op operand), left := id, right := y }
  | _ =>
    if op = .plus then
      if ← via isZero id then return ← ofArgument y
    let y ← ofArgument y
    reduce id op y

def openedId (id : NodeId) : Attempt NodeId := do return (← via opened id).2

/-- Applies an operation to a number or a calculation, and then releases its node, unless it is the result. -/
def applyAndReleaseValue (id : NodeId) (op : Operation) (y : Argument) : Attempt NodeId := do
  let result ← apply id op y
  if result ≠ id then Session.release id
  return result

/-- Applies an operation and then releases the node. Of a phrase, the expression that it stands for takes part,
and the phrase forgets it afterwards, also after a failure. -/
def applyAndRelease (id : NodeId) (op : Operation) (y : Argument) : Attempt NodeId := do
  match ← operandOf id with
  | .phrase _ =>
    let inner ← openedId id
    let result ← observe (applyAndReleaseValue inner op y)
    Session.release id
    ofResult result
  | _ => applyAndReleaseValue id op y

def compare (id : NodeId) (y : Argument) : Attempt Ordering := do
  let y ← ofArgument y
  let a ← via exact id
  let b ← via exact y
  return a.compare b

def abs (id : NodeId) : Attempt NodeId := do
  let id ← openedId id
  if ← via isZero id then return id
  if (← compare id (.input (.integer 0))) = .lt then reduce Store.zeroId .minus id
  else return id

/-- The first of the arguments that no later one beats, starting from `best`; one beats another if the other
compares to it as `worse`. -/
def extremum (worse : Ordering) (best : NodeId) : List Argument → Attempt NodeId
  | [] => return best
  | y :: ys => do
    let id ← ofArgument y
    if (← compare best (.node id)) = worse then extremum worse id ys else extremum worse best ys

def max (id : NodeId) (ys : List Argument) : Attempt NodeId := do
  extremum .lt (← openedId id) ys

def min (id : NodeId) (ys : List Argument) : Attempt NodeId := do
  extremum .gt (← openedId id) ys

end Node

end ExactCalc
