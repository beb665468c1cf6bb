import Predictive.Grammar.Basic
import Predictive.Text.Json
import Predictive.Text.Layout
import Predictive.Text.Tex

/-!
# Productions shown by names

The right sides of one left side, in plain text, LaTeX and JSON.
-/

namespace Predictive

open Text

structure NamedRule where
  left : String
  rights : List (List String)
deriving DecidableEq

namespace NamedRule

/-- The first right side after the left one, and each later one after `lead`. -/
def pieces (r : NamedRule) (width : Nat) (lead : String) : List String :=
  match r.rights with
  | [] => []
  | first :: later =>
    (padLeft width r.left ++ " -> " ++ unwords first) :: later.map fun right => lead ++ unwords right

def plainLine (r : NamedRule) (width : Nat) : String := "".intercalate (r.pieces width " | ")

def plainLines (r : NamedRule) (width : Nat) : String :=
  unlines (r.pieces width (padLeft width "" ++ "  | "))

/-- The pieces, where a width may be refused. -/
def piecesBy? (pad : Nat → String → Option String) (r : NamedRule) (width : Nat) (lead : Option String) :
    Option (List String) :=
  match r.rights with
  | [] => some []
  | first :: later =>
    (pad width r.left).bind fun left => (later.mapM fun right => lead.map (· ++ unwords right)).map fun later =>
      (left ++ " -> " ++ unwords first) :: later

def plainLineBy? (pad : Nat → String → Option String) (r : NamedRule) (width : Nat) : Option String :=
  (r.piecesBy? pad width (some " | ")).map ("".intercalate ·)

def plainLinesBy? (pad : Nat → String → Option String) (r : NamedRule) (width : Nat) : Option String :=
  (r.piecesBy? pad width ((pad width "").map (· ++ "  | "))).map unlines

def rightLatexBy (escape : String → String) (right : List String) : String := " \\ ".intercalate (right.map escape)

/-- Names are escaped and joined first; then every ε in the text, also one
inside a name, becomes the command for it. -/
def latexBy (escape : String → String) (r : NamedRule) (aligned : Bool) : String :=
  if r.rights.isEmpty then ""
  else
    let arrow := if aligned then " & \\rightarrow &" else " \\rightarrow "
    replaceChar 'ε' "\\epsilon"
      (escape r.left ++ arrow ++ " \\mid ".intercalate (r.rights.map (rightLatexBy escape)))

def latex (r : NamedRule) (aligned : Bool) : String := r.latexBy tex aligned

def value (r : NamedRule) : Json.Value :=
  .object [("left", .string r.left), ("rights", .array (r.rights.map .strings))]

end NamedRule

end Predictive
