import ExactCalc.Operation

/-! # The JSON form of a calculation

A document is a number, a calculation of two documents, or a text to be read later. `Document.text` is its
compact JSON text: an object whose member `type` comes first.
-/

namespace ExactCalc

/-- The JSON form of a calculation. -/
inductive Document
  | number (value : String)
  | calculation (left : Document) (op : Operation) (right : Document)
  | phrase (value : String)
  deriving DecidableEq, Repr

namespace Document

def numberTag : String := "IntermediaryNumber"

def calculationTag : String := "IntermediaryCalculation"

def phraseTag : String := "TokenScan"

def hexEscape (n : Nat) : List Char :=
  let digits := Nat.toDigits 16 n
  ['\\', 'u'] ++ List.replicate (4 - digits.length) '0' ++ digits

def escapeChar (c : Char) : List Char :=
  if c = '\x22' then ['\\', '\x22']
  else if c = '\\' then ['\\', '\\']
  else if c = '\x08' then ['\\', 'b']
  else if c = '\t' then ['\\', 't']
  else if c = '\n' then ['\\', 'n']
  else if c = '\x0c' then ['\\', 'f']
  else if c = '\r' then ['\\', 'r']
  else if c.toNat < 0x20 then hexEscape c.toNat
  else [c]

def stringChars (s : String) : List Char := '\x22' :: (s.toList.flatMap escapeChar ++ ['\x22'])

def member (name : String) (value : List Char) : List Char := stringChars name ++ ':' :: value

def toChars : Document → List Char
  | number value =>
    '\x7b' :: (member "type" (stringChars numberTag) ++ ',' :: member "value" (stringChars value) ++
      ['\x7d'])
  | calculation left op right =>
    '\x7b' :: (member "type" (stringChars calculationTag) ++ ',' :: member "left" left.toChars ++
      ',' :: member "operation" (stringChars op.text) ++ ',' :: member "right" right.toChars ++
      ['\x7d'])
  | phrase value =>
    '\x7b' :: (member "type" (stringChars phraseTag) ++ ',' :: member "value" (stringChars value) ++
      ['\x7d'])

def text (d : Document) : String := String.ofList d.toChars

end Document

end ExactCalc
