import ExactCalc.Operand

/-! # Nodes

A store holds operands as nodes. A node has an identity, so that one node can be a side of several others, and
a memo in which it keeps what has once been computed of it. Zero and one, as they are written, are one node
each, in every store.

The operand of a node never changes. A memo can be emptied at any time.
-/

namespace ExactCalc

abbrev NodeId := Nat

/-- What a node remembers of itself. A number has no use for most of it, nor has a phrase. -/
structure Memo where
  resolved : Option (Number × NodeId) := none
  decimal : Option Decimal := none
  rational : Option Rat := none
  text : Option String := none
  amount : Option String := none
  tokens : Option (Except ScanError (List Token)) := none
  parsed : Option (Result (Expr × NodeId)) := none
  valid : Option Bool := none

/-- A node: its operand, the nodes of the two sides of a calculation or of the phrase and the operand of an
extended phrase, and its memo. -/
structure Cell where
  operand : Operand
  left : NodeId := 0
  right : NodeId := 0
  memo : Memo := {}

structure Store where
  cells : Array Cell

namespace Store

def zeroId : NodeId := 0

def oneId : NodeId := 1

def empty : Store := ⟨#[{ operand := .number .zero }, { operand := .number .one }]⟩

/-- The node of an identity; zero for an identity that was never given out. -/
def cell (st : Store) (id : NodeId) : Cell := st.cells.getD id { operand := .number .zero }

def operand (st : Store) (id : NodeId) : Operand := (st.cell id).operand

def memo (st : Store) (id : NodeId) : Memo := (st.cell id).memo

def updateMemo (st : Store) (id : NodeId) (f : Memo → Memo) : Store :=
  ⟨st.cells.modify id fun c => { c with memo := f c.memo }⟩

def push (st : Store) (c : Cell) : NodeId × Store := (st.cells.size, ⟨st.cells.push c⟩)

end Store

abbrev Session := StateM Store

/-- A computation that may fail; what was remembered stays. -/
abbrev Attempt := ExceptT CalcError Session

namespace Session

def newNode (c : Cell) : Session NodeId := modifyGet (·.push c)

/-- The node of a number: the shared one of zero or one as they are written, else a new one. -/
def newNumber (n : Number) : Session NodeId :=
  if n = .zero then return Store.zeroId
  else if n = .one then return Store.oneId
  else newNode { operand := .number n }

def newExpr : Expr → Session NodeId
  | .number n => newNumber n
  | .binary left op right => do
    let l ← newExpr left
    let r ← newExpr right
    newNode { operand := .calculation left.toOperand op right.toOperand, left := l, right := r }

mutual

def newOperand : Operand → Session NodeId
  | .number n => newNumber n
  | .calculation left op right => do
    let l ← newOperand left
    let r ← newOperand right
    newNode { operand := .calculation left op right, left := l, right := r }
  | .phrase p => newPhrase p

def newPhrase : Phrase → Session NodeId
  | .written s => newNode { operand := .phrase (.written s) }
  | .extended p op x => do
    let l ← newPhrase p
    let r ← newOperand x
    newNode { operand := .phrase (.extended p op x), left := l, right := r }

end

def newCalculation (left : NodeId) (op : Operation) (right : NodeId) : Session NodeId := do
  let st ← get
  newNode { operand := .calculation (st.operand left) op (st.operand right), left, right }

/-- Empties the memo of a node, for the next computation to fill it anew. A phrase forgets its expression
only. -/
def release (id : NodeId) : Session Unit :=
  modify fun st => st.updateMemo id fun m =>
    match st.operand id with
    | .phrase _ => { m with parsed := none }
    | _ => { m with resolved := none, decimal := none, rational := none, text := none, amount := none }

end Session

/-- What a node remembers in a slot, or else the result of the computation, which it remembers from now on. A
computation that fails leaves nothing to remember. -/
def remember {m : Type → Type} [Monad m] [MonadStateOf Store m] {α : Type} (id : NodeId) (slot : Memo → Option α)
    (fill : α → Memo → Memo) (compute : m α) : m α := do
  match slot ((← get).memo id) with
  | some v => return v
  | none =>
    let v ← compute
    modify (·.updateMemo id (fill v))
    return v

namespace Attempt

def ofResult {α : Type} (r : Result α) : Attempt α := ExceptT.mk (return r)

/-- The result of an attempt as a value, also if it is a failure; only an overflow goes on as one. -/
def observe {α : Type} (a : Attempt α) : Attempt (Result α) := ExceptT.mk do return observed (← a.run)

def sides (id : NodeId) : Session (NodeId × NodeId) := do
  let c := (← get).cell id
  return (c.left, c.right)

end Attempt

end ExactCalc
