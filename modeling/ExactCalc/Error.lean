import ExactCalc.Operation
import ExactCalc.Text.Quoted
import ExactCalc.Token

/-! # Errors

What can go wrong, as causes; the wording of each is in one `message` function.

* `ScanError`: a text does not fall into tokens.
* `ParseError`: the tokens are no calculation; it keeps the state in which reading stopped.
* `CalcError`: everything, with values that cannot be read and divisions by zero.
* `NotValid`: an entry that was refused, with the reason.
-/

namespace ExactCalc

open Text

inductive ScanError
  | noTokens
  | firstTokenNotAtStart
  | lastTokenNotAtEnd
  /-- The token of this index does not start where the one before it ends. -/
  | gap (index : Nat)
  | imbalancedNesting
  | invalidOperation (found : String)
  deriving DecidableEq, Repr

def ScanError.message : ScanError → String
  | noTokens => "aucun jeton trouvé"
  | firstTokenNotAtStart => "le premier jeton n’est pas à l’index 0"
  | lastTokenNotAtEnd => "le dernier jeton ne finit pas en fin de chaîne"
  | gap index => "jeton attendu à l’index " ++ toString index
  | imbalancedNesting => "parenthèses déséquilibrées"
  | invalidOperation found => "opération attendue, trouvé " ++ quoted found

def Operation.ofSymbol (s : String) : Except ScanError Operation :=
  match ofSymbol? s with
  | some op => .ok op
  | none => .error (.invalidOperation s)

inductive OperandMode
  | left
  | right
  deriving DecidableEq, Repr, Inhabited

def OperandMode.text : OperandMode → String
  | left => "left"
  | right => "right"

/-- The state of the reduction of tokens to a calculation, for a message. -/
structure Snapshot where
  depth : Nat
  left : Option String
  right : Option String
  operation : Option Operation
  mode : OperandMode
  deriving DecidableEq, Repr

def Snapshot.shownText : Option String → String
  | none => "None"
  | some s => "Some(" ++ quoted s ++ ")"

def Snapshot.shownOperation : Option Operation → String
  | none => "None"
  | some op => "Some('" ++ op.text ++ "')"

def Snapshot.shown (s : Snapshot) : String :=
  "ParserSnapshot \x7b stack_depth: " ++ toString s.depth ++ ", left_operand: " ++ shownText s.left ++
    ", right_operand: " ++ shownText s.right ++ ", operation: " ++ shownOperation s.operation ++
    ", operand_mode: " ++ quoted s.mode.text ++ " \x7d"

inductive ParseFault
  | openWithoutLeft
  | openWithoutOperation
  | rightWithoutOperation
  | rightWithoutLeft
  | operationWithoutLeft
  | operationPending
  | closeIncompleteGroup
  | closeIncompleteOperation
  | closeIncompleteReading
  | blankToken
  | unfinished
  deriving DecidableEq, Repr

def ParseFault.message : ParseFault → String
  | openWithoutLeft => "parenthèse ouvrante sans opérande gauche"
  | openWithoutOperation => "parenthèse ouvrante sans opération"
  | rightWithoutOperation => "opérande droite sans opération"
  | rightWithoutLeft => "opérande droite sans opérande gauche"
  | operationWithoutLeft => "opération sans opérande gauche"
  | operationPending => "opération déjà en attente"
  | closeIncompleteGroup => "parenthèse fermante sur un groupe incomplet"
  | closeIncompleteOperation => "parenthèse fermante sur une opération incomplète"
  | closeIncompleteReading => "parenthèse fermante avec une analyse incomplète"
  | blankToken => "jeton ignoré inattendu"
  | unfinished => "analyse terminée dans un état incomplet"

/-- A fault, the token at which it was found (none at the end), and the text that was read. -/
structure ParseError where
  fault : ParseFault
  state : Snapshot
  token : Option Token
  source : String
  deriving DecidableEq, Repr

def ParseError.message (e : ParseError) : String :=
  e.fault.message ++ " (texte: " ++ quoted e.source ++ ")"

inductive CalcError
  | unsupported (input : String)
  | notAnAmount (input : String)
  | divisionByZero (op : Operation)
  | scan (e : ScanError)
  | parse (e : ParseError)
  | json
  /-- Two scales add up to more than a word. This is no answer like the others: the computation is broken off, and
  so is all that waits for it. -/
  | overflow
  deriving DecidableEq, Repr

def CalcError.message : CalcError → String
  | unsupported input => "argument non supporté : " ++ quoted input
  | notAnAmount input => "chaîne de montant non supportée : " ++ quoted input
  | divisionByZero op => "division par zéro (" ++ op.text ++ ")"
  | scan e => e.message
  | parse e => e.message
  | json => "JSON invalide"
  | overflow => "attempt to add with overflow"

abbrev Result := Except CalcError

/-- A result as a value, also if it is a failure; only an overflow goes on as one. -/
def observed {α : Type} : Result α → Result (Result α)
  | .error .overflow => .error .overflow
  | r => .ok r

structure NotValid where
  value : String
  reason : CalcError
  deriving DecidableEq, Repr

def NotValid.message (e : NotValid) : String := "valeur non valide : " ++ quoted e.value

end ExactCalc
