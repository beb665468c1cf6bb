import Predictive.Analysis.Follow
import Predictive.Text.Json
import Predictive.Text.Layout
import Predictive.Text.Tex

/-!
# FIRST and FOLLOW as text

A set is shown by the names of its members in ascending order; ε comes after
them and the end of input last.
-/

namespace Predictive

open Text

structure SummaryRow where
  name : String
  nullable : Bool
  first : List String
  follow : List String
deriving DecidableEq

structure Summary where
  rows : List SummaryRow
deriving DecidableEq

namespace Grammar

def setNames? (g : Grammar) (s : SymbolSet) : Option (List String) :=
  let named := s.toList.filter fun a => a != .epsilon && a != .endOfInput
  (named.mapM g.nameOf?).map fun names =>
    sortNames names ++ (if Symbol.epsilon ∈ s then [epsilonName] else []) ++
      (if Symbol.endOfInput ∈ s then [endName] else [])

def summaryRow? (g : Grammar) (a : Analysis) (n : NonTerminal) : Option SummaryRow :=
  (a.first.get? n.index).bind fun first =>
    (a.follow.get? n.index).bind fun follow =>
      (g.setNames? first).bind fun firstNames =>
        (g.setNames? follow).map fun followNames =>
          ⟨n.name, decide (Symbol.epsilon ∈ first), firstNames, followNames⟩

/-- One row for each nonterminal; the families may be larger than the grammar. -/
def summary? (g : Grammar) (a : Analysis) : Option Summary :=
  (g.nonTerminals.mapM (g.summaryRow? a)).map Summary.mk

end Grammar

namespace SummaryRow

def plain (r : SummaryRow) : String :=
  " | ".intercalate
    [r.name, truthValue r.nullable, ", ".intercalate r.first, ", ".intercalate r.follow]

def setLatexBy (escape : String → String) (names : List String) : String :=
  replaceChar 'ε' "$\\epsilon$" ("\\ ".intercalate (names.map escape))

def latexBy (escape : String → String) (r : SummaryRow) : String :=
  " & ".intercalate [escape r.name, truthValue r.nullable, setLatexBy escape r.first, setLatexBy escape r.follow]

def value (r : SummaryRow) : Json.Value :=
  .object [("name", .string r.name), ("nullable", .bool r.nullable), ("first", .strings r.first),
    ("follow", .strings r.follow)]

end SummaryRow

namespace Summary

def plain (s : Summary) : String := unlines (s.rows.map SummaryRow.plain)

def latexBy (escape : String → String) (s : Summary) : String :=
  "\\begin\x7btabular\x7d\x7bc|c|c|c\x7d\nSymbol & Nullable & First & Follow\\\\\\hline\n" ++
    "\\\\\n ".intercalate (s.rows.map (SummaryRow.latexBy escape)) ++ "\\\\\n\\end\x7btabular\x7d"

def latex (s : Summary) : String := s.latexBy tex

def value (s : Summary) : Json.Value := .object [("data", .array (s.rows.map SummaryRow.value))]

def json (s : Summary) : String := s.value.write

end Summary

end Predictive
