import ExactCalc.Text.Printable

/-! # Quoted texts

How a message quotes a text: between double quotes, with a backslash before a quote or a backslash,
short escapes for the four usual controls, and the code point in braces for any other character
that cannot be shown.
-/

namespace ExactCalc.Text

def hexOfNat (n : Nat) : List Char := Nat.toDigits 16 n

/-- A character as written between double quotes. -/
def quoteChar (c : Char) : List Char :=
  if c = '\x00' then ['\\', '0']
  else if c = '\t' then ['\\', 't']
  else if c = '\r' then ['\\', 'r']
  else if c = '\n' then ['\\', 'n']
  else if c = '\\' then ['\\', '\\']
  else if c = '\x22' then ['\\', '\x22']
  else if isPrintable c then [c]
  else ['\\', 'u', '\x7b'] ++ hexOfNat c.toNat ++ ['\x7d']

def quoted (s : String) : String :=
  String.ofList ('\x22' :: (s.toList.flatMap quoteChar ++ ['\x22']))

end ExactCalc.Text
