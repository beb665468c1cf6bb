import Predictive.Display.NamedRule

/-!
# The productions of a grammar as text
-/

namespace Predictive

open Text

structure Listing where
  rules : List NamedRule
deriving DecidableEq

def Grammar.listing? (g : Grammar) : Option Listing :=
  (g.nonTerminals.mapM fun a : NonTerminal =>
    (a.productions.mapM g.productionNames?).map (NamedRule.mk a.name)).map Listing.mk

namespace Listing

/-- The left sides end in one column. -/
def plain (l : Listing) : String :=
  let width := widest (l.rules.map NamedRule.left)
  unlines (l.rules.map fun r => r.plainLines width)

def plainBy? (pad : Nat → String → Option String) (l : Listing) : Option String :=
  let width := widest (l.rules.map NamedRule.left)
  (l.rules.mapM fun r : NamedRule => r.plainLinesBy? pad width).map unlines

/-- An array; its first and last line are separated like its rows. -/
def latexBy (escape : String → String) (l : Listing) : String :=
  "\\\\\n".intercalate
    ("\\[\\begin\x7barray\x7d\x7bcll\x7d" :: l.rules.map (fun r => r.latexBy escape true) ++
      ["\\end\x7barray\x7d\\]"])

def latex (l : Listing) : String := l.latexBy tex

def value (l : Listing) : Json.Value := .array (l.rules.map NamedRule.value)

def json (l : Listing) : String := l.value.write

end Listing

end Predictive
