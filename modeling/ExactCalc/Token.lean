import ExactCalc.Text.Blank

/-! # Tokens

A token is a piece of a text with its kind and the byte offset at which it starts. `Token.ofSpan?` cuts
one out of a text by its offsets; `Token.render` shows a list of tokens for diagnosis.
-/

namespace ExactCalc

inductive TokenKind
  | blank
  | opening
  | closing
  | numeric
  | operation
  deriving DecidableEq, Repr, Inhabited

structure Token where
  kind : TokenKind
  /-- The byte offset of the first character. -/
  start : Nat
  text : String
  deriving DecidableEq, Repr, Inhabited

namespace Token

def stop (t : Token) : Nat := t.start + t.text.utf8ByteSize

/-- The characters of a list from the byte offset on; none inside a character or behind the end. -/
def dropBytes? : Nat → List Char → Option (List Char)
  | 0, cs => some cs
  | _ + 1, [] => none
  | n + 1, c :: cs => if c.utf8Size ≤ n + 1 then dropBytes? (n + 1 - c.utf8Size) cs else none

def takeBytes? : Nat → List Char → Option (List Char)
  | 0, _ => some []
  | _ + 1, [] => none
  | n + 1, c :: cs =>
    if c.utf8Size ≤ n + 1 then (takeBytes? (n + 1 - c.utf8Size) cs).map (c :: ·) else none

/-- The token of a kind that covers the bytes from `start` to `stop` of a text; none if they do not lie
between characters. -/
def ofSpan? (source : String) (kind : TokenKind) (start stop : Nat) : Option Token :=
  if stop < start then none
  else do
    let rest ← dropBytes? start source.toList
    let cs ← takeBytes? (stop - start) rest
    pure { kind, start, text := String.ofList cs }

def shown (t : Token) : String :=
  match t.kind with
  | .numeric => "⟨" ++ t.text ++ "⟩"
  | _ => t.text

def render (ts : List Token) : String := " ".intercalate (ts.map shown)

end Token

end ExactCalc
