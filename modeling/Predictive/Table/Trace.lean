import Predictive.Table.Build
import Predictive.Text.Layout

/-!
# Tables as lines of text

Every cell is a line; a vanishing entry is shown as the empty production. A
conflict is told in the same words.
-/

namespace Predictive

open Text

namespace Grammar

def entryNames? (g : Grammar) (row : Nat) (e : Entry) : Option (List String) :=
  if e.vanishing then some [epsilonName]
  else (g.production? row e.production).bind g.productionNames?

def entryText? (g : Grammar) (row : Nat) (e : Entry) : Option String :=
  (g.nonTerminal? row).bind fun a =>
    (g.entryNames? row e).map fun names => a.name ++ " → " ++ unwords names

def cellText? (g : Grammar) (c : Cell) : Option String :=
  (g.nonTerminal? c.slot.row).bind fun a =>
    (g.nameOf? c.slot.lookahead).bind fun lookahead =>
      (g.entryText? c.slot.row c.entry).map fun entry =>
        "M[" ++ a.name ++ ", " ++ lookahead ++ "] = " ++ entry

end Grammar

def Table.trace? (t : Table) (g : Grammar) : Option String :=
  (t.cells.mapM g.cellText?).map unlines

/-! ## Conflicts -/

structure ConflictReport where
  nonTerminal : String
  lookahead : String
  existing : String
  incoming : String
deriving DecidableEq

def Conflict.report? (c : Conflict) (g : Grammar) : Option ConflictReport :=
  (g.nonTerminal? c.slot.row).bind fun a =>
    (g.nameOf? c.slot.lookahead).bind fun lookahead =>
      (g.entryText? c.slot.row c.existing).bind fun existing =>
        (g.entryText? c.slot.row c.incoming).map fun incoming =>
          ⟨a.name, lookahead, existing, incoming⟩

def ConflictReport.message (r : ConflictReport) : String :=
  "table conflict: nonterminal " ++ r.nonTerminal ++ ", terminal " ++ r.lookahead ++
    ", competing productions \x7b" ++ r.existing ++ ", " ++ r.incoming ++ "\x7d"

end Predictive
