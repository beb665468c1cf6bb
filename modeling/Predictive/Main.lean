import Predictive.CommandLine

/-!
# The program
-/

open Predictive

def main (arguments : List String) : IO UInt32 := do
  let outcome := CommandLine.run arguments
  IO.print outcome.output
  return outcome.code.toUInt32
