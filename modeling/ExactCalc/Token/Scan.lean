import ExactCalc.Error
import ExactCalc.Token.Numeral

/-! # Scanning

The tokens of a text are found in passes over the whole of it: white space, numerals, operation signs, opening
and closing parentheses, each on its own. `Token.raw` puts what is found in the order of its places and drops the
parentheses of periods. No pass minds a character that belongs to none, so that it shows as a gap.

`Token.scan` checks that the tokens cover the text and that there are as many opening as closing parentheses,
and forgets the white space. What is left is retouched twice (`Token.retouch`): digits with a fraction after them
are one number, and so is a minus sign with the number after it where an operand is expected. Either time the
places are collected first, and then the tokens there are fused from the last place to the first, so that
the places that are still to come stay where they are.
-/

namespace ExactCalc.Token

open Text

/-! ## Passes -/

def byteLength : List Char → Nat
  | [] => 0
  | c :: cs => c.utf8Size + byteLength cs

/-- All that a pattern finds in the characters from byte offset `pos` on, as tokens of one kind: it goes on
behind a match, and where there is none with the next character. -/
def findAll (kind : TokenKind) (pattern : List Char → Option (List Char)) (pos : Nat) : List Char → List Token
  | [] => []
  | c :: cs =>
    match pattern (c :: cs) with
    | some w => ⟨kind, pos, String.ofList w⟩ :: findAll kind pattern (pos + byteLength w) (cs.drop (w.length - 1))
    | none => findAll kind pattern (pos + c.utf8Size) cs
termination_by cs => cs.length
decreasing_by
  · rw [List.length_drop, List.length_cons]; omega
  · exact Nat.lt_succ_self _

def blanks? (cs : List Char) : Option (List Char) :=
  let run := cs.takeWhile isBlank
  if run.isEmpty then none else some run

def oneOf? (symbols : List Char) : List Char → Option (List Char)
  | c :: _ => if c ∈ symbols then some [c] else none
  | [] => none

def operationSymbols : List Char := ['+', '/', '*', 'x', '%', '-']

def isParenthesis (t : Token) : Bool := t.kind == .opening || t.kind == .closing

def isPeriodic (t : Token) : Bool := t.kind == .numeric && t.text.toList.any fun c => c == '(' || c == ')'

def isWithin (t u : Token) : Bool := u.start ≤ t.start && t.stop ≤ u.stop

/-- Whether the token is a parenthesis of one of these numbers. -/
def belongsTo (t : Token) (periodics : List Token) : Bool := t.isParenthesis && periodics.any t.isWithin

def raw (s : String) : List Token :=
  let cs := s.toList
  let found := findAll .blank blanks? 0 cs ++ findAll .numeric numeral? 0 cs ++
    findAll .operation (oneOf? operationSymbols) 0 cs ++ findAll .opening (oneOf? ['(']) 0 cs ++
    findAll .closing (oneOf? [')']) 0 cs
  let sorted := found.mergeSort fun t u => t.start ≤ u.start
  let periodics := sorted.filter isPeriodic
  sorted.filter fun t => !t.belongsTo periodics

/-! ## Checking -/

/-- The index of the first token that does not start where the one before it ends. -/
def gap? (index : Nat) : List Token → Option Nat
  | a :: b :: rest => if a.stop ≠ b.start then some index else gap? (index + 1) (b :: rest)
  | _ => none

/-- Whether the tokens cover a text of `size` bytes, with as many opening as closing parentheses. -/
def checkCover (size : Nat) (ts : List Token) : Except ScanError Unit :=
  match ts.head?, ts.getLast? with
  | some first, some last =>
    if first.start ≠ 0 then .error .firstTokenNotAtStart
    else if last.stop ≠ size then .error .lastTokenNotAtEnd
    else
      match gap? 1 ts with
      | some index => .error (.gap index)
      | none =>
        if ts.countP (·.kind == .opening) ≠ ts.countP (·.kind == .closing) then .error .imbalancedNesting
        else .ok ()
  | _, _ => .error .noTokens

/-! ## Retouching -/

def isInteger (t : Token) : Bool := t.kind == .numeric && areAsciiDigits t.text.toList

def isFraction (t : Token) : Bool := t.text.toList.head? == some '.'

def isMinus (t : Token) : Bool := t.kind == .operation && t.text == "-"

def expectsOperand (t : Token) : Bool := t.kind == .opening || t.kind == .operation

def spanning (s : String) (a b : Token) : Token := (ofSpan? s .numeric a.start b.stop).getD a

/-- The token at the index and the next one made one number. -/
def fuse (s : String) (ts : List Token) (i : Nat) : List Token :=
  match ts[i]?, ts[i + 1]? with
  | some a, some b => (ts.set i (spanning s a b)).eraseIdx (i + 1)
  | _, _ => ts

def endsInteger (ts : List Token) (i : Nat) : Bool :=
  match ts[i - 1]?, ts[i]? with
  | some previous, some current => previous.isInteger && current.isFraction
  | _, _ => false

/-- The indices of the fractions directly after an integer, the last one first. -/
def fusions (ts : List Token) : List Nat := (List.range' 1 (ts.length - 1)).reverse.filter (endsInteger ts)

/-- Whether a minus sign and a number follow the token at the index, after which an operand is expected. -/
def precedesNegative (ts : List Token) (i : Nat) : Bool :=
  match ts[i]?, ts[i + 1]?, ts[i + 2]? with
  | some t, some sign, some number => t.expectsOperand && sign.isMinus && number.kind == .numeric
  | _, _, _ => false

def negativesFrom (ts : List Token) (i : Nat) : List Nat :=
  if i < ts.length then
    if precedesNegative ts i then (i + 1) :: negativesFrom ts (i + 3) else negativesFrom ts (i + 1)
  else []
termination_by ts.length - i

def negatives (ts : List Token) : List Nat :=
  let leading := match ts with
    | sign :: number :: _ => if sign.isMinus && number.kind == .numeric then [0] else []
    | _ => []
  leading ++ negativesFrom ts 0

/-- The tokens of a text, none of them white space, with their fractions and their signs. -/
def retouch (s : String) (ts : List Token) : List Token :=
  let ts := (fusions ts).foldl (fun ts i => fuse s ts (i - 1)) ts
  (negatives ts).reverse.foldl (fuse s) ts

def scan (s : String) : Except ScanError (List Token) := do
  let ts := raw s
  checkCover s.utf8ByteSize ts
  return retouch s (ts.filter (·.kind ≠ .blank))

end ExactCalc.Token
