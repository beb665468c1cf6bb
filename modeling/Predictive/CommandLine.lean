import Predictive.Display.View
import Predictive.Grammar.Expression

/-!
# The command line

The arguments name outputs, then options. The outputs are views of the
expression grammar, written in the order in which they are named. All other
arguments are answered with the help text.
-/

namespace Predictive.CommandLine

open Text

inductive Flag where
  | latex
  | json
  | strict
deriving DecidableEq

structure Request where
  views : List View
  format : Format
  strict : Bool
deriving DecidableEq

structure Outcome where
  output : String
  code : Nat
deriving DecidableEq

def view? (argument : String) : Option View :=
  if argument = "prod" then some .productions
  else if argument = "ff" then some .sets
  else if argument = "ll1" then some .grid
  else if argument = "trace" then some .trace
  else none

def option? (argument : String) : Option Flag :=
  if argument = "-l" then some .latex
  else if argument = "-j" then some .json
  else if argument = "-s" then some .strict
  else none

/-- The format that the last option about formats sets. -/
def formatOf (options : List Flag) : Format :=
  options.foldl
    (fun format o => match o with
      | .latex => .latex
      | .json => .json
      | .strict => format)
    .plain

/-- The request that the arguments make, if they are outputs and then options
only. The trace is shown if no output is named. -/
def Request.ofArguments? (arguments : List String) : Option Request :=
  let views := (arguments.takeWhile fun a => (view? a).isSome).filterMap view?
  ((arguments.dropWhile fun a => (view? a).isSome).mapM option?).map fun options =>
    ⟨if views.isEmpty then [.trace] else views, formatOf options, options.contains .strict⟩

def help : String :=
  unlines [
    "Usage: ll1-table [outputs] [options]",
    "outputs (default: trace):",
    "  prod: Productions",
    "  ff: First and follow",
    "  ll1: LL(1) parsing table",
    "  trace: One line per parsing table entry",
    "options:",
    "  -h: Print this help",
    "  -l: Print in LaTeX format",
    "  -j: Print in JSON format",
    "  -s: Fail if two productions claim the same table entry",
    ""]

/-- The text of a view with its last line ended; the trace has a title. -/
def outputText? (v : View) (f : Format) (g : Grammar) (a : Analysis) (t : Table) : Option String :=
  (v.text? f g a t).map fun text =>
    (if v = .trace then "Predictive Parsing Table:\n\n" else "") ++ text ++ "\n"

/-- Everything that a request writes, if the grammar has the table asked for. -/
def Request.output? (r : Request) (g : Grammar) : Option String :=
  g.analysis?.bind fun a =>
    let table := if r.strict then (g.strictTable? a).bind Except.toOption else g.table? a
    table.bind fun t => (r.views.mapM fun v : View => outputText? v r.format g a t).map "".intercalate

def run (arguments : List String) : Outcome :=
  match Request.ofArguments? arguments with
  | none => ⟨help, 0⟩
  | some r =>
    match expressionText.read.toOption.bind r.output? with
    | some output => ⟨output, 0⟩
    | none => ⟨"", 1⟩

end Predictive.CommandLine
