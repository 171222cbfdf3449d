import ExactCalc.Entry

/-! # Command line

The calculator as a program: it evaluates the expressions that it is given, or the lines of its input if there
are none, and writes the value of each, with more about it on request. What is refused is told on the error
output, and the program goes on, unless the computation was broken off.

* `Settings.ofArguments` reads the arguments from left to right and stops at the first that is wrong.
* `CommandLine.run` gives the whole output for the arguments and the input.
-/

namespace ExactCalc

structure Settings where
  json : Bool := false
  calculation : Bool := false
  amount : Bool := false
  tokens : Bool := false
  workingPlaces : Option Nat := none
  amountPlaces : Option Nat := none
  rounding : Option RoundingMode := none
  expressions : List String := []
  deriving Repr

/-- How the program ends without evaluating anything. -/
inductive Ending
  | usage (message : String)
  | version
  | help
  deriving Repr

namespace Settings

def placesLimit : Nat := 4294967295

def places? (s : String) : Option Nat :=
  let read (negative : Bool) (digits : List Char) : Option Nat :=
    let n := Text.natOfDigits digits
    if digits.isEmpty || !Text.areAsciiDigits digits || placesLimit < n || (negative && n ≠ 0) then none
    else some n
  match s.toList with
  | '-' :: digits => read true digits
  | '+' :: digits => read false digits
  | digits => read false digits

def rounding? : String → Option RoundingMode
  | "half-ceil" => some .halfCeil
  | "half-up" => some .halfUp
  | "down" => some .down
  | _ => none

def policy (s : Settings) : AmountPolicy :=
  let d := AmountPolicy.default
  ⟨s.workingPlaces.getD d.workingPlaces, s.amountPlaces.getD d.amountPlaces, s.rounding.getD d.mode⟩

def refuse {α : Type} (message : String) : Except Ending α := .error (.usage message)

def setFlag (s : Settings) (name : String) : Except Ending Settings :=
  let once (isSet : Bool) (t : Settings) : Except Ending Settings :=
    if isSet then refuse ("the argument '--" ++ name ++ "' cannot be used multiple times") else .ok t
  match name with
  | "json" => once s.json { s with json := true }
  | "calculation" => once s.calculation { s with calculation := true }
  | "amount" => once s.amount { s with amount := true }
  | "tokens" => once s.tokens { s with tokens := true }
  | _ => refuse ("unexpected argument '--" ++ name ++ "' found")

def takesValue (name : String) : Bool :=
  name == "working-places" || name == "amount-places" || name == "rounding"

def setOption (s : Settings) (name value : String) : Except Ending Settings :=
  let once {α : Type} (old : Option α) (new : Option α) (t : Option α → Settings) :
      Except Ending Settings :=
    if old.isSome then refuse ("the argument '--" ++ name ++ "' cannot be used multiple times")
    else if new.isNone then refuse ("invalid value '" ++ value ++ "' for '--" ++ name ++ "'")
    else .ok (t new)
  match name with
  | "working-places" => once s.workingPlaces (places? value) fun v => { s with workingPlaces := v }
  | "amount-places" => once s.amountPlaces (places? value) fun v => { s with amountPlaces := v }
  | "rounding" => once s.rounding (rounding? value) fun v => { s with rounding := v }
  | _ => refuse ("unexpected argument '--" ++ name ++ "' found")

def splitOption (cs : List Char) : String × Option String :=
  let name := String.ofList (cs.takeWhile (· ≠ '='))
  match cs.dropWhile (· ≠ '=') with
  | _ :: value => (name, some (String.ofList value))
  | [] => (name, none)

def addExpressions (s : Settings) (xs : List String) : Settings :=
  { s with expressions := s.expressions ++ xs }

/-- Whether an argument can be a value or an expression: it has no hyphen before other characters. -/
def isPlain (s : String) : Bool :=
  match s.toList with
  | '-' :: _ :: _ => false
  | _ => true

def readArguments (s : Settings) : List String → Except Ending Settings
  | [] => .ok s
  | arg :: args =>
    match arg.toList with
    | ['-', '-'] => .ok (s.addExpressions args)
    | '-' :: '-' :: rest =>
      match splitOption rest with
      | ("version", none) => .error .version
      | ("help", none) => .error .help
      | (name, some value) =>
        if takesValue name then do (← s.setOption name value).readArguments args
        else refuse ("unexpected value '" ++ value ++ "' for '--" ++ name ++ "'")
      | (name, none) =>
        if takesValue name then
          match args with
          | value :: args =>
            if isPlain value then do (← s.setOption name value).readArguments args
            else refuse ("a value is required for '--" ++ name ++ "' but none was supplied")
          | [] => refuse ("a value is required for '--" ++ name ++ "' but none was supplied")
        else do (← s.setFlag name).readArguments args
    | '-' :: 'V' :: _ => .error .version
    | '-' :: 'h' :: _ => .error .help
    | '-' :: c :: _ => refuse ("unexpected argument '-" ++ String.singleton c ++ "' found")
    | _ => (s.addExpressions [arg]).readArguments args

def ofArguments (args : List String) : Except Ending Settings := readArguments {} args

end Settings

/-- What the program writes, and its exit code. -/
structure Outcome where
  code : UInt32
  stdout : String
  stderr : String
  deriving DecidableEq, Repr

namespace CommandLine

def versionText : String := "intermediary 0.1.0\n"

def helpText : String :=
  "Évalue des calculs exacts lus de gauche à droite (\"1 + 2 * 3\" = 9)\n\n" ++
  "Usage: intermediary [OPTIONS] [EXPRESSIONS]...\n\n" ++
  "Arguments:\n" ++
  "  [EXPRESSIONS]...  Expressions (sinon : une par ligne sur stdin)\n\n" ++
  "Options:\n" ++
  "      --json                             Affiche aussi la forme JSON\n" ++
  "      --calculation                      Affiche le calcul reconnu (groupes explicites)\n" ++
  "      --amount                           Affiche le montant arrondi\n" ++
  "      --tokens                           Affiche les jetons\n" ++
  "      --working-places <WORKING_PLACES>  " ++
  "Précision de travail des décimaux avant arrondi du montant [default: 7]\n" ++
  "      --amount-places <AMOUNT_PLACES>    " ++
  "Chiffres après la virgule dans un montant [default: 6]\n" ++
  "      --rounding <ROUNDING>              " ++
  "Politique d’arrondi [default: half-ceil] [possible values: half-ceil, half-up, down]\n" ++
  "  -h, --help                             Print help\n" ++
  "  -V, --version                          Print version\n"

def report (s : Settings) (w : Worksheet) : String :=
  w.value ++ "\n" ++
    (if s.amount then "  montant : " ++ w.amount ++ "\n" else "") ++
    (if s.calculation then "  calcul  : " ++ w.calculation ++ "\n  types   : " ++ w.types ++ "\n" else "") ++
    (if s.tokens then "  jetons  : " ++ w.tokens ++ "\n" else "") ++
    (if s.json then "  json    : " ++ w.json ++ "\n" else "")

/-- The line about a refused expression. An expression that could not be read is told with the state of the
reading. -/
def complaint (e : NotValid) : String :=
  e.message ++ " : " ++ e.reason.message ++
    (match e.reason with
    | .parse p => " (état : " ++ p.state.shown ++ ")"
    | _ => "") ++ "\n"

def brokenOff : UInt32 := 101

def evaluate (s : Settings) (out : Outcome) (expression : String) : Outcome :=
  if out.code = brokenOff then out
  else
    match Worksheet.evaluate expression s.policy with
    | .ok w => { out with stdout := out.stdout ++ report s w }
    | .error ⟨_, .overflow⟩ =>
      { out with code := brokenOff, stderr := out.stderr ++ CalcError.overflow.message ++ "\n" }
    | .error e => { out with code := 1, stderr := out.stderr ++ complaint e }

/-! ## Lines of the input -/

def lines (bytes : List UInt8) : List (List UInt8) :=
  let step (b : UInt8) (acc : List (List UInt8)) : List (List UInt8) :=
    if b = 10 then [] :: acc
    else
      match acc with
      | [] => [[b]]
      | l :: ls => (b :: l) :: ls
  bytes.foldr step []

def isBlankLine (s : String) : Bool := s.toList.all Text.isBlank

/-- The outcome after the lines of the input. A line that is no text ends the reading. -/
def evaluateLines (s : Settings) (out : Outcome) : List (List UInt8) → Outcome
  | [] => out
  | line :: rest =>
    if out.code = brokenOff then out else
    match String.fromUTF8? (ByteArray.mk line.toArray) with
    | none =>
      { out with
        code := 1
        stderr := out.stderr ++ "lecture stdin : stream did not contain valid UTF-8\n" }
    | some text =>
      if isBlankLine text then evaluateLines s out rest
      else evaluateLines s (evaluate s out text) rest

def evaluateAll (s : Settings) (input : ByteArray) : Outcome :=
  if s.expressions.isEmpty then evaluateLines s ⟨0, "", ""⟩ (lines input.data.toList)
  else s.expressions.foldl (evaluate s) ⟨0, "", ""⟩

def run (args : List String) (input : ByteArray) : Outcome :=
  match Settings.ofArguments args with
  | .ok s => evaluateAll s input
  | .error .version => ⟨0, versionText, ""⟩
  | .error .help => ⟨0, helpText, ""⟩
  | .error (.usage message) => ⟨2, "", "error: " ++ message ++ "\n"⟩

end CommandLine

end ExactCalc
