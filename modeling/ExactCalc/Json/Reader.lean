import ExactCalc.Json.Document
import ExactCalc.Json.Value

/-! # Documents, read

Which JSON values are documents. An object has the member `type` once and each member of that type once, in
any order, and may have others. An array has the same values in a fixed order: the type, then its members.
An operation may also be an object with the sign as its only name and nothing as value. Inside another
document, a type may be given by its index.
-/

namespace ExactCalc.Document

inductive Tag
  | number
  | calculation
  | phrase
  deriving DecidableEq, Repr

def Tag.ofText? (s : String) : Option Tag :=
  if s = numberTag then some .number
  else if s = calculationTag then some .calculation
  else if s = phraseTag then some .phrase
  else none

/-- The kind named by a value; only an inner document can have an index. -/
def Tag.ofValue? (inner : Bool) : JsonValue → Option Tag
  | .string s => ofText? s
  | .natural n => if inner then [Tag.number, Tag.calculation, Tag.phrase][n]? else none
  | _ => none

def operation? : JsonValue → Option Operation
  | .string s => Operation.ofSymbol? s
  | .object [(s, .null)] | .object [(s, .object [])] => Operation.ofSymbol? s
  | _ => none

def text? : JsonValue → Option String
  | .string s => some s
  | _ => none

def only? (name : String) (members : List (String × JsonValue)) : Option JsonValue :=
  match members.filter (·.1 == name) with
  | [(_, v)] => some v
  | _ => none

def parts? (inner : Bool) : JsonValue → Option (Tag × List JsonValue)
  | .object members => do
    let tag ← Tag.ofValue? inner (← only? "type" members)
    match tag with
    | .number | .phrase => return (tag, [← only? "value" members])
    | .calculation =>
      return (tag, [← only? "left" members, ← only? "operation" members, ← only? "right" members])
  | .array (tag :: parts) => do return (← Tag.ofValue? inner tag, parts)
  | _ => none

/-- The document of a value in which at most `depth` documents stand inside each other. -/
def ofValue? : (depth : Nat) → (inner : Bool) → JsonValue → Option Document
  | 0, _, _ => none
  | depth + 1, inner, v =>
    match parts? inner v with
    | some (.number, [value]) => (text? value).map number
    | some (.phrase, [value]) => (text? value).map phrase
    | some (.calculation, [left, op, right]) => do
      return calculation (← ofValue? depth true left) (← operation? op) (← ofValue? depth true right)
    | _ => none

def ofText? (s : String) : Option Document :=
  (JsonValue.ofText? s).bind (ofValue? JsonValue.depthLimit false)

end ExactCalc.Document
