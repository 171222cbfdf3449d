import ExactCalc.Entry
import ExactCalc.Store.Arithmetic

/-! # Sessions

A session is a sequence of requests to one store. Some make or find a node, some ask for a value of a node, and
one releases what a node remembers. `Store.perform` answers a request and gives the store after it.
-/

namespace ExactCalc

inductive Request
  | create (i : Input)
  | zero
  | one
  | phrase (text : String)
  | calculation (left : NodeId) (op : Operation) (right : NodeId)
  | readText (text : String)
  | readJson (text : String)
  | enter (text : String)
  | rebuild (id : NodeId)
  | reuse (x : Argument)
  | left (id : NodeId)
  | right (id : NodeId)
  | resolve (id : NodeId)
  | parsed (id : NodeId)
  | abs (id : NodeId)
  | max (id : NodeId) (xs : List Argument)
  | min (id : NodeId) (xs : List Argument)
  | apply (id : NodeId) (op : Operation) (x : Argument)
  | applyAndRelease (id : NodeId) (op : Operation) (x : Argument)
  /-- The side of an operation that is its result, if there is one. -/
  | shortCircuit (left : NodeId) (op : Operation) (right : NodeId)
  | reduce (left : NodeId) (op : Operation) (right : NodeId)
  | value (id : NodeId)
  | amount (id : NodeId)
  | amountWith (id : NodeId) (policy : AmountPolicy)
  | exact (id : NodeId)
  | decimal (id : NodeId)
  | rational (id : NodeId)
  | text (id : NodeId)
  | types (id : NodeId)
  | json (id : NodeId)
  | isZero (id : NodeId)
  | isOne (id : NodeId)
  | shown (id : NodeId)
  | inspect (id : NodeId)
  | compare (id : NodeId) (x : Argument)
  | isLess (id : NodeId) (x : Argument)
  | isGreater (id : NodeId) (x : Argument)
  | isValid (id : NodeId)
  | tokens (id : NodeId)
  | release (id : NodeId)

inductive Answer
  | node (id : NodeId)
  | none
  | text (s : String)
  | flag (b : Bool)
  | exact (v : Exact)
  | decimal (d : Decimal)
  | rational (r : Rat)
  | ordering (o : Ordering)
  | tokens (ts : List Token)
  | done
  | failed (e : CalcError)
  | notScanned (e : ScanError)
  | notValid (e : NotValid)

namespace Answer

def ofAttempt {α : Type} (answer : α → Answer) (attempt : Attempt α) : Session Answer := do
  match ← attempt.run with
  | .ok a => return answer a
  | .error e => return .failed e

end Answer

namespace Session

open Node

/-- The phrase of a node; a node of another kind is taken for the phrase of its text. -/
def phraseOf (id : NodeId) : Session Phrase := do
  match ← operandOf id with
  | .phrase p => return p
  | x => return .written x.text

def readEntry (s : String) : Attempt NodeId := do
  if isNumericText s then ofArgument (.input (.text s))
  else
    match Entry.scientific? s.toList with
    | some t =>
      match t.power? with
      | none => throw (.unsupported s)
      | some power =>
        let mantissa ← ofArgument (.input (.text (String.ofList t.mantissa)))
        apply mantissa .times (.input (.decimal power))
    | none => newExpr (← Attempt.ofResult (Expr.ofText s))

def answer : Request → Session Answer
  | .create i =>
    Answer.ofAttempt .node (ofArgument (.input i))
  | .zero => return .node Store.zeroId
  | .one => return .node Store.oneId
  | .phrase s => do return .node (← newPhrase (.written s))
  | .calculation left op right => do return .node (← newCalculation left op right)
  | .readText s => Answer.ofAttempt .node do newExpr (← Attempt.ofResult (Expr.ofText s))
  | .readJson s => Answer.ofAttempt .node do newOperand (← Attempt.ofResult (Operand.ofJson s))
  | .enter s => do
    match ← (readEntry (Text.trim s)).run with
    | .ok id => return .node id
    | .error e => return .notValid ⟨Text.trim s, e⟩
  | .rebuild id =>
    Answer.ofAttempt .node do
      let d ← via document id
      newOperand (← Attempt.ofResult (Operand.ofDocument d))
  | .reuse x => Answer.ofAttempt .node (ofArgument x)
  | .left id => do return .node (← Attempt.sides id).1
  | .right id => do return .node (← Attempt.sides id).2
  | .resolve id => Answer.ofAttempt (fun n => .node n.id) (via Node.resolve id)
  | .parsed id => Answer.ofAttempt .node (openedId id)
  | .abs id => Answer.ofAttempt .node (Node.abs id)
  | .max id xs => Answer.ofAttempt .node (Node.max id xs)
  | .min id xs => Answer.ofAttempt .node (Node.min id xs)
  | .apply id op x => Answer.ofAttempt .node (Node.apply id op x)
  | .applyAndRelease id op x => Answer.ofAttempt .node (Node.applyAndRelease id op x)
  | .shortCircuit left op right =>
    Answer.ofAttempt (fun | some id => .node id | none => .none) (Node.shortCircuit left op right)
  | .reduce left op right => Answer.ofAttempt .node (Node.reduce left op right)
  | .value id => Answer.ofAttempt .text (via valueText id)
  | .amount id => Answer.ofAttempt .text (via Node.amount id)
  | .amountWith id policy => Answer.ofAttempt .text (via (fun x id => Node.amountWith x id policy) id)
  | .exact id => Answer.ofAttempt .exact (via Node.exact id)
  | .decimal id => Answer.ofAttempt .decimal (via Node.decimal id)
  | .rational id => Answer.ofAttempt .rational (via Node.rational id)
  | .text id => do return .text (← Node.text (← operandOf id) id)
  | .types id => Answer.ofAttempt .text (via typeText id)
  | .json id => Answer.ofAttempt (fun d => .text d.text) (via document id)
  | .isZero id => Answer.ofAttempt .flag (via Node.isZero id)
  | .isOne id => Answer.ofAttempt .flag (via Node.isOne id)
  | .shown id => Answer.ofAttempt .text (via Node.shown id)
  | .inspect id => do return .text (← Node.inspect (← operandOf id) id)
  | .compare id x => Answer.ofAttempt .ordering (Node.compare id x)
  | .isLess id x => Answer.ofAttempt (fun o => .flag (o == .lt)) (Node.compare id x)
  | .isGreater id x => Answer.ofAttempt (fun o => .flag (o == .gt)) (Node.compare id x)
  | .isValid id => do return .flag (← Node.isValid (← phraseOf id) id)
  | .tokens id => do
    match ← Node.tokens (← phraseOf id) id with
    | .ok ts => return .tokens ts
    | .error e => return .notScanned e
  | .release id => do
    Session.release id
    return .done

end Session

def Store.perform (st : Store) (r : Request) : Answer × Store := (Session.answer r).run st

end ExactCalc
