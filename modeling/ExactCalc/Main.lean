import ExactCalc.CommandLine

/-! # The program

Standard input is read only if there is no expression among the arguments.
-/

open ExactCalc

def main (args : List String) : IO UInt32 := do
  let needsInput :=
    match Settings.ofArguments args with
    | .ok s => s.expressions.isEmpty
    | .error _ => false
  let input ← if needsInput then (← IO.getStdin).readBinToEnd else pure ByteArray.empty
  let out := CommandLine.run args input
  IO.print out.stdout
  IO.eprint out.stderr
  return out.code
