import ExactCalc.Binary64
import ExactCalc.Text.Digit

/-! # JSON values

The reader of JSON texts. `JsonValue.ofText?` accepts the whole grammar of JSON with three limits: at most
`JsonValue.depthLimit` arrays and objects stand inside each other, a number must be finite as a 64-bit float
when it is read from the digits that fit into a word (`JsonValue.exceedsFloat`), and an escaped surrogate must
have its partner.

Objects keep all their members in order, also those of one name.
-/

namespace ExactCalc

open Text

/-- A JSON value. Of a number only a natural below `2 ^ 64` is kept. -/
inductive JsonValue
  | null
  | bool (b : Bool)
  | natural (n : Nat)
  | number
  | string (s : String)
  | array (items : List JsonValue)
  | object (members : List (String × JsonValue))
  deriving Repr

namespace JsonValue

def depthLimit : Nat := 127

def isSpace (c : Char) : Bool := c = ' ' || c = '\t' || c = '\n' || c = '\r'

def skipSpace (cs : List Char) : List Char := cs.dropWhile isSpace

/-! ## Strings -/

def hexDigit? (c : Char) : Option Nat :=
  if '0' ≤ c && c ≤ '9' then some (c.toNat - 48)
  else if 'a' ≤ c && c ≤ 'f' then some (c.toNat - 87)
  else if 'A' ≤ c && c ≤ 'F' then some (c.toNat - 55)
  else none

def hexUnit? : List Char → Option (Nat × List Char)
  | a :: b :: c :: d :: rest => do
    let a ← hexDigit? a
    let b ← hexDigit? b
    let c ← hexDigit? c
    let d ← hexDigit? d
    return (((a * 16 + b) * 16 + c) * 16 + d, rest)
  | _ => none

/-- The character of an escape by code unit, after its `u`: one unit, or two surrogates. -/
def unitEscape? (cs : List Char) : Option (Char × List Char) := do
  let (n, rest) ← hexUnit? cs
  if n < 0xd800 || 0xdfff < n then return (Char.ofNat n, rest)
  else if 0xdc00 ≤ n then none
  else
    match rest with
    | '\\' :: 'u' :: rest =>
      let (low, rest) ← hexUnit? rest
      if 0xdc00 ≤ low && low ≤ 0xdfff then
        return (Char.ofNat (0x10000 + (n - 0xd800) * 0x400 + (low - 0xdc00)), rest)
      else none
    | _ => none

def escape? : List Char → Option (Char × List Char)
  | '\x22' :: rest => some ('\x22', rest)
  | '\\' :: rest => some ('\\', rest)
  | '/' :: rest => some ('/', rest)
  | 'b' :: rest => some ('\x08', rest)
  | 'f' :: rest => some ('\x0c', rest)
  | 'n' :: rest => some ('\n', rest)
  | 'r' :: rest => some ('\r', rest)
  | 't' :: rest => some ('\t', rest)
  | 'u' :: rest => unitEscape? rest
  | _ => none

/-- The characters of a string up to its closing quote, and the rest. Every round takes a character off the
text, so that its length is enough for `fuel`. -/
def stringTail? : (fuel : Nat) → List Char → Option (List Char × List Char)
  | 0, _ => none
  | _, [] => none
  | fuel + 1, c :: cs =>
    if c = '\x22' then some ([], cs)
    else if c = '\\' then do
      let (x, rest) ← escape? cs
      let (xs, rest) ← stringTail? fuel rest
      return (x :: xs, rest)
    else if c.toNat < 0x20 then none
    else do
      let (xs, rest) ← stringTail? fuel cs
      return (c :: xs, rest)

def string? (cs : List Char) : Option (String × List Char) :=
  (stringTail? cs.length cs).map fun (xs, rest) => (String.ofList xs, rest)

/-! ## Numbers -/

def continueWord (n : Nat) : List Char → Nat × List Char
  | [] => (n, [])
  | c :: cs =>
    let next := 10 * n + natOfDigits [c]
    if next < 18446744073709551616 then continueWord next cs else (n, c :: cs)

/-- A mantissa below `2 ^ 64` and a power of ten for a number with these digits before and after the point.
Digits that do not fit are left out; those before the point still count for the power of ten. -/
def wordMantissa (whole fraction : List Char) : Nat × Int :=
  let (m, wholeLeft) := continueWord 0 whole
  let (m, fractionLeft) := continueWord m fraction
  (m, wholeLeft.length - (fraction.length - fractionLeft.length : Nat))

/-- Whether `m * 10 ^ e` is infinite as a float. The mantissa and the power of ten are rounded before they are
multiplied, and `10 ^ 308` is the largest power of ten that is a float. -/
def exceedsFloat (m : Nat) (e : Int) : Bool :=
  m ≠ 0 && 0 ≤ e && (308 < e || Binary64.productOverflows m (Nat.pow 10 e.toNat))

def exponent? : List Char → Option (Option Int × List Char)
  | c :: cs =>
    if c = 'e' || c = 'E' then
      let negative := cs.head? = some '-'
      let body := if negative || cs.head? = some '+' then cs.tail else cs
      let digits := body.takeWhile isAsciiDigit
      if digits.isEmpty then none
      else
        let n : Int := natOfDigits digits
        some (some (if negative then -n else n), body.dropWhile isAsciiDigit)
    else some (none, c :: cs)
  | [] => some (none, [])

def fraction? : List Char → Option (Option (List Char) × List Char)
  | '.' :: cs =>
    let digits := cs.takeWhile isAsciiDigit
    if digits.isEmpty then none else some (some digits, cs.dropWhile isAsciiDigit)
  | cs => some (none, cs)

def number? (cs : List Char) : Option (JsonValue × List Char) := do
  let negative := cs.head? = some '-'
  let body := if negative then cs.tail else cs
  let whole := body.takeWhile isAsciiDigit
  if whole.isEmpty || (whole.head? = some '0' && 1 < whole.length) then none
  else
    let (fraction, rest) ← fraction? (body.dropWhile isAsciiDigit)
    let (exponent, rest) ← exponent? rest
    let (m, e) := wordMantissa whole (fraction.getD [])
    if exceedsFloat m (e + exponent.getD 0) then none
    else
      let n := natOfDigits whole
      if !negative && fraction.isNone && exponent.isNone && n < 18446744073709551616 then return (natural n, rest)
      else return (number, rest)

/-! ## Values -/

def word? (word : List Char) (cs : List Char) : Option (List Char) :=
  if word.isPrefixOf cs then some (cs.drop word.length) else none

mutual

/-- The value at the head, after white space, and the rest. At most `depth` arrays and objects may stand
inside each other. Two rounds take at least one character off the text. -/
def value? : (fuel depth : Nat) → List Char → Option (JsonValue × List Char)
  | 0, _, _ => none
  | fuel + 1, depth, cs =>
    match skipSpace cs with
    | 'n' :: rest => (word? ['u', 'l', 'l'] rest).map (null, ·)
    | 't' :: rest => (word? ['r', 'u', 'e'] rest).map (bool true, ·)
    | 'f' :: rest => (word? ['a', 'l', 's', 'e'] rest).map (bool false, ·)
    | '\x22' :: rest => (string? rest).map fun (s, rest) => (string s, rest)
    | '[' :: rest =>
      match depth with
      | 0 => none
      | depth + 1 =>
        match skipSpace rest with
        | ']' :: rest => some (array [], rest)
        | rest => (items? fuel depth rest).map fun (xs, rest) => (array xs, rest)
    | '\x7b' :: rest =>
      match depth with
      | 0 => none
      | depth + 1 =>
        match skipSpace rest with
        | '\x7d' :: rest => some (object [], rest)
        | rest => (members? fuel depth rest).map fun (ms, rest) => (object ms, rest)
    | rest => number? rest

def items? : (fuel depth : Nat) → List Char → Option (List JsonValue × List Char)
  | 0, _, _ => none
  | fuel + 1, depth, cs => do
    let (x, rest) ← value? fuel depth cs
    match skipSpace rest with
    | ']' :: rest => return ([x], rest)
    | ',' :: rest =>
      let (xs, rest) ← items? fuel depth rest
      return (x :: xs, rest)
    | _ => none

def members? : (fuel depth : Nat) → List Char → Option (List (String × JsonValue) × List Char)
  | 0, _, _ => none
  | fuel + 1, depth, cs =>
    match skipSpace cs with
    | '\x22' :: rest => do
      let (name, rest) ← string? rest
      match skipSpace rest with
      | ':' :: rest =>
        let (x, rest) ← value? fuel depth rest
        match skipSpace rest with
        | '\x7d' :: rest => return ([(name, x)], rest)
        | ',' :: rest =>
          let (ms, rest) ← members? fuel depth rest
          return ((name, x) :: ms, rest)
        | _ => none
      | _ => none
    | _ => none

end

def ofText? (s : String) : Option JsonValue :=
  let cs := s.toList
  match value? (2 * cs.length + 2) depthLimit cs with
  | some (v, rest) => if (skipSpace rest).isEmpty then some v else none
  | none => none

end JsonValue

end ExactCalc
