import Predictive.Display.NamedRule
import Predictive.Table.Basic

/-!
# Tables laid out as a grid

One row for each nonterminal and one column for each lookahead; a cell shows the
right side of its entry.
-/

namespace Predictive

open Text

/-- A row with its label; a cell without an entry is `none`. -/
structure GridRow where
  label : String
  cells : List (Option (List String))
deriving DecidableEq

structure Grid where
  columns : List String
  rows : List GridRow
deriving DecidableEq

namespace Table

/-- What the cell of a nonterminal and a lookahead shows; an entry that vanishes shows no production. -/
def gridCell? (t : Table) (g : Grammar) (a : NonTerminal) (lookahead : Symbol) : Option (Option (List String)) :=
  match t.get? ⟨a.index, lookahead⟩ with
  | none => some none
  | some e =>
    if e.vanishing then some (some [epsilonName])
    else (a.productions[e.production]?.bind g.productionNames?).map some

def gridRow? (t : Table) (g : Grammar) (a : NonTerminal) : Option GridRow :=
  (g.lookaheads.mapM (t.gridCell? g a)).map (GridRow.mk a.name)

/-- Entries outside the rows and columns of the grammar are not shown. -/
def grid? (t : Table) (g : Grammar) : Option Grid :=
  (g.lookaheads.mapM g.nameOf?).bind fun columns =>
    (g.nonTerminals.mapM (t.gridRow? g)).map (Grid.mk columns)

end Table

def GridRow.rules (r : GridRow) : List NamedRule :=
  r.cells.map fun c => ⟨r.label, c.toList⟩

namespace Grid

def plainCells (d : Grid) : List (List String) :=
  ("" :: d.columns) ::
    d.rows.map fun r => r.label :: r.rules.map fun n => n.plainLine r.label.utf8ByteSize

def widths (d : Grid) : List Nat :=
  (List.range (d.columns.length + 1)).map fun j => widest (d.plainCells.map fun line => line.getD j "")

def plain (d : Grid) : String :=
  unlines (d.plainCells.map fun line => " | ".intercalate (List.zipWith padLeft d.widths line))

def rowCellsBy? (pad : Nat → String → Option String) (r : GridRow) : Option (List String) :=
  (r.rules.mapM fun n : NamedRule => n.plainLineBy? pad r.label.utf8ByteSize).map (r.label :: ·)

def plainCellsBy? (pad : Nat → String → Option String) (d : Grid) : Option (List (List String)) :=
  (d.rows.mapM (rowCellsBy? pad)).map (("" :: d.columns) :: ·)

/-- The widths of the columns, where every cell is looked up in its row. -/
def widthsOf? (columns : Nat) (rows : List (List String)) : Option (List Nat) :=
  (List.range columns).mapM fun j => (rows.mapM fun cells => cells[j]?).map widest

/-- A row as a line, where the width of every cell is looked up. -/
def plainLineBy? (pad : Nat → String → Option String) (widths : List Nat) (cells : List String) : Option String :=
  (cells.zipIdx.mapM fun (c : String × Nat) => widths[c.2]?.bind fun width => pad width c.1).map
    (" | ".intercalate ·)

/-- The plain text, if no lookup on the way is out of range and no width is refused. -/
def plainBy? (pad : Nat → String → Option String) (d : Grid) : Option String :=
  (d.plainCellsBy? pad).bind fun rows => (widthsOf? (d.columns.length + 1) rows).bind fun widths =>
    (rows.mapM (plainLineBy? pad widths)).map unlines

def plain? (d : Grid) : Option String := d.plainBy? fun width s => some (padLeft width s)

def latexHeaderBy (escape : String → String) (d : Grid) : String :=
  " & ".intercalate
    (("\\[\\begin\x7barray\x7d\x7bc" ++ "".intercalate (d.columns.map fun _ => "|l") ++ "\x7d\n") ::
      d.columns.map fun name => "\\text\x7b" ++ escape name ++ "\x7d")

def latexRowBy (escape : String → String) (r : GridRow) : String :=
  " & ".intercalate (escape r.label :: r.rules.map fun n => n.latexBy escape false)

def latexBy (escape : String → String) (d : Grid) : String :=
  d.latexHeaderBy escape ++ "\\\\\\hline\n" ++ "\\\\\n".intercalate (d.rows.map (latexRowBy escape)) ++
    "\n\\end\x7barray\x7d\\]"

def latex (d : Grid) : String := d.latexBy tex

def rowValue (r : GridRow) : Json.Value := .array [.string r.label, .array (r.rules.map NamedRule.value)]

def value (d : Grid) : Json.Value :=
  .object [("terminals", .strings d.columns), ("rows", .array (d.rows.map rowValue))]

def json (d : Grid) : String := d.value.write

end Grid

end Predictive
