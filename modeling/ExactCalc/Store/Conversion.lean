import ExactCalc.Store.Basic

/-! # Conversions of nodes

Every value of an operand, computed through the memos of its nodes. A node whose memo is filled answers from
it. Of a number, the memo holds the decimal, the rational and the texts that have to be computed; of a
calculation also the number that it resolves to; of a phrase its tokens and its expression, or the error.
-/

namespace ExactCalc

structure NumberNode where
  number : Number
  id : NodeId

namespace NumberNode

open Attempt

def decimal (n : NumberNode) : Attempt Decimal :=
  match n.number with
  | .decimal d => return d
  | m => remember n.id Memo.decimal (fun v s => { s with decimal := some v }) (ofResult m.toDecimal)

def rational (n : NumberNode) : Attempt Rat :=
  match n.number with
  | .rational r => return r
  | m =>
    remember n.id Memo.rational (fun v s => { s with rational := some v }) (ofResult m.toRational)

def exact (n : NumberNode) : Attempt Exact :=
  match n.number with
  | .rational r => return .rational r
  | _ => return .decimal (← n.decimal)

/-- A test of the exact value. The shared node is known to pass it without being read. -/
def passes (shared : NodeId) (test : Exact → Bool) (n : NumberNode) : Attempt Bool := do
  if n.id = shared then return true
  return test (← n.exact)

def isZero : NumberNode → Attempt Bool := passes Store.zeroId Exact.isZero

def isOne : NumberNode → Attempt Bool := passes Store.oneId Exact.isOne

def ofNumber (n : Number) : Session NumberNode := do return ⟨n, ← Session.newNumber n⟩

/-- The number as an operand of an operation; what it is read as is a number of its own. -/
def operandFor (n : NumberNode) (op : Operation) : Attempt NumberNode :=
  match n.number with
  | .decimal _ | .rational _ => return n
  | _ => do
    if op = .divide then ofNumber (.rational (← n.rational)) else ofNumber (.decimal (← n.decimal))

def exactFor (n : NumberNode) (op : Operation) : Attempt Exact := do (← n.operandFor op).exact

def text (n : NumberNode) : Session String :=
  match n.number with
  | .rational r => remember n.id Memo.text (fun v s => { s with text := some v }) (return ratText r)
  | m => return m.text

def operandText (n : NumberNode) : Session String :=
  match n.number with
  | .rational r => if (exactRatText? r).isSome then n.text else return n.number.operandText
  | _ => n.text

def amount (n : NumberNode) : Attempt String :=
  match n.number with
  | .amount s => return s
  | _ =>
    remember n.id Memo.amount (fun v s => { s with amount := some v }) do
      return (← n.exact).amountText AmountPolicy.default

def amountWith (n : NumberNode) (policy : AmountPolicy) : Attempt String :=
  match n.number with
  | .amount s => return s
  | _ => do return (← n.exact).amountText policy

def document (n : NumberNode) : Attempt Document := do
  if ← n.isOne then return .number "1"
  if ← n.isZero then return .number "0"
  return n.number.plainDocument

end NumberNode

namespace Node

open Attempt

/-! ## Reading phrases -/

def tokensWith (id : NodeId) (source : Session String) : Session (Except ScanError (List Token)) :=
  remember id Memo.tokens (fun v s => { s with tokens := some v }) do return Token.scan (← source)

/-- The expression of a phrase with the given text, and its node. An error is remembered too. -/
def parsedWith (id : NodeId) (source : Session String) : Session (Result (Expr × NodeId)) :=
  remember id Memo.parsed (fun v s => { s with parsed := some v }) do
    let text ← source
    let tokens ← tokensWith id source
    let read : Result Expr := do Expr.ofTokens text (← tokens.mapError CalcError.scan)
    match read with
    | .ok e => return .ok (e, ← Session.newExpr e)
    | .error e => return .error e

/-- A phrase that is extended: it is written as the number that it is read as, or in parentheses. -/
def baseText (source : Session String) : Result (Expr × NodeId) → Session String
  | .ok (.number n, i) => NumberNode.operandText ⟨n, i⟩
  | _ => do return "(" ++ (← source) ++ ")"

mutual

def sideText : Operand → NodeId → Session String
  | .number n, id => NumberNode.operandText ⟨n, id⟩
  | .calculation left op right, id => do
    let (l, r) ← sides id
    return "(" ++ (← sideText left l) ++ " " ++ op.text ++ " " ++ (← sideText right r) ++ ")"
  | .phrase p, id => do return "(" ++ (← phraseText p id) ++ ")"

def phraseText : Phrase → NodeId → Session String
  | .written s, _ => return s
  | .extended p op x, id => do
    let (l, r) ← sides id
    let left ← baseText (phraseText p l) (← parsedWith l (phraseText p l))
    return left ++ " " ++ op.text ++ " " ++ (← sideText x r)

end

def text : Operand → NodeId → Session String
  | .number n, id => NumberNode.text ⟨n, id⟩
  | .calculation left op right, id => do
    let (l, r) ← sides id
    return (← sideText left l) ++ " " ++ op.text ++ " " ++ (← sideText right r)
  | .phrase p, id => phraseText p id

def inspect : Operand → NodeId → Session String
  | .number n, id => do return Operand.inspectNumber n (← NumberNode.text ⟨n, id⟩)
  | .calculation left op right, id => do
    let (l, r) ← sides id
    return Operand.inspectCalculation (← inspect left l) op (← inspect right r)
  | .phrase p, id => do return Operand.inspectPhrase (← phraseText p id)

def tokens (p : Phrase) (id : NodeId) : Session (Except ScanError (List Token)) :=
  tokensWith id (phraseText p id)

def parsed (p : Phrase) (id : NodeId) : Attempt (Expr × NodeId) :=
  ExceptT.mk (parsedWith id (phraseText p id))

def isValid (p : Phrase) (id : NodeId) : Session Bool :=
  remember id Memo.valid (fun v s => { s with valid := some v }) do
    return (← parsedWith id (phraseText p id)).isOk

/-! ## Values -/

/-- The number that a calculation resolves to, by what its sides resolve to. -/
def resolveSides (op : Operation) (left right : NodeId → Attempt NumberNode) (id : NodeId) : Attempt NumberNode := do
  let (n, id) ← remember id Memo.resolved (fun v s => { s with resolved := some v }) do
    let (l, r) ← sides id
    let a ← (← left l).exactFor op
    let b ← (← right r).exactFor op
    let n ← ofResult (op.onExact a b)
    return (n, ← Session.newNumber n)
  return ⟨n, id⟩

def resolveExpr : Expr → NodeId → Attempt NumberNode
  | .number n, id => return ⟨n, id⟩
  | .binary left op right, id => resolveSides op (resolveExpr left) (resolveExpr right) id

def resolve : Operand → NodeId → Attempt NumberNode
  | .number n, id => return ⟨n, id⟩
  | .calculation left op right, id => resolveSides op (resolve left) (resolve right) id
  | .phrase p, id => do
    let (e, id) ← parsed p id
    resolveExpr e id

def opened (x : Operand) (id : NodeId) : Attempt (Operand × NodeId) := do
  match x with
  | .phrase p =>
    let (e, id) ← parsed p id
    return (e.toOperand, id)
  | x => return (x, id)

/-- A value of the number that an operand resolves to, remembered by a calculation. -/
def converted {α : Type} (slot : Memo → Option α) (fill : α → Memo → Memo) (convert : NumberNode → Attempt α)
    (x : Operand) (id : NodeId) : Attempt α := do
  match ← opened x id with
  | (.number n, id) => convert ⟨n, id⟩
  | (x, id) => remember id slot fill do convert (← resolve x id)

def decimal : Operand → NodeId → Attempt Decimal :=
  converted Memo.decimal (fun v s => { s with decimal := some v }) NumberNode.decimal

def rational : Operand → NodeId → Attempt Rat :=
  converted Memo.rational (fun v s => { s with rational := some v }) NumberNode.rational

def valueText : Operand → NodeId → Attempt String :=
  converted Memo.text (fun v s => { s with text := some v }) fun n => n.text

def amount : Operand → NodeId → Attempt String :=
  converted Memo.amount (fun v s => { s with amount := some v }) NumberNode.amount

def amountWith (x : Operand) (id : NodeId) (policy : AmountPolicy) : Attempt String := do
  (← resolve x id).amountWith policy

def exact (x : Operand) (id : NodeId) : Attempt Exact := do
  let (x, id) ← opened x id
  (← resolve x id).exact

/-- What is told of the number that an operand resolves to. A phrase that is written as this literal need not be
read. -/
def asked (literal : String) (ask : NumberNode → Attempt Bool) (x : Operand) (id : NodeId) : Attempt Bool := do
  if x.isWritten literal then return true
  ask (← resolve x id)

def isZero : Operand → NodeId → Attempt Bool := asked "0" NumberNode.isZero

def isOne : Operand → NodeId → Attempt Bool := asked "1" NumberNode.isOne

def typeText (x : Operand) (id : NodeId) : Attempt String := do
  match x with
  | .phrase p => return (← parsed p id).1.typeText
  | x => ofResult x.typeText

def shown (x : Operand) (id : NodeId) : Attempt String := do
  match ← observe (valueText x id) with
  | .ok s => return s
  | .error _ => text x id

def document (x : Operand) (id : NodeId) : Attempt Document := do
  match x with
  | .number n => NumberNode.document ⟨n, id⟩
  | .calculation left op right =>
    let (l, r) ← sides id
    let a ← (← resolve left l).operandFor op
    let b ← (← resolve right r).operandFor op
    match ← op.shortCircuit a.isZero a.isOne b.isZero b.isOne with
    | some .left => a.document
    | some .right => b.document
    | none => return .calculation (← a.document) op (← b.document)
  | .phrase p => return .phrase (← phraseText p id)

end Node

end ExactCalc
