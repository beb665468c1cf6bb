import Predictive.Display.Grid
import Predictive.Display.Listing
import Predictive.Display.Summary
import Predictive.Grammar.Text
import Predictive.Table.Trace

/-!
# Views of a grammar, its sets and its table
-/

namespace Predictive

inductive View where
  | productions
  | sets
  | grid
  | trace
deriving DecidableEq

inductive Format where
  | plain
  | latex
  | json
deriving DecidableEq

def Listing.text (l : Listing) : Format → String
  | .plain => l.plain
  | .latex => l.latex
  | .json => l.json

def Summary.text (s : Summary) : Format → String
  | .plain => s.plain
  | .latex => s.latex
  | .json => s.json

def Grid.text (d : Grid) : Format → String
  | .plain => d.plain
  | .latex => d.latex
  | .json => d.json

/-- The text of a view; the trace is the same in every format. -/
def View.text? (v : View) (f : Format) (g : Grammar) (a : Analysis) (t : Table) : Option String :=
  match v with
  | .productions => g.listing?.map fun l => l.text f
  | .sets => (g.summary? a).map fun s => s.text f
  | .grid => (t.grid? g).map fun d => d.text f
  | .trace => t.trace? g

/-- The text of a view, where a width may be refused. -/
def View.textBy? (pad : Nat → String → Option String) (v : View) (f : Format) (g : Grammar) (a : Analysis)
    (t : Table) : Option String :=
  match v, f with
  | .productions, .plain => g.listing?.bind (Listing.plainBy? pad)
  | .grid, .plain => (t.grid? g).bind (Grid.plainBy? pad)
  | v, f => v.text? f g a t

/-- No column is wider than the limit. -/
def View.Fits (v : View) (g : Grammar) (t : Table) : Prop :=
  match v with
  | .productions => ∀ l ∈ g.listing?, Text.widest (l.rules.map NamedRule.left) ≤ Text.widthLimit
  | .grid => ∀ d ∈ t.grid? g, ∀ width ∈ d.widths, width ≤ Text.widthLimit
  | .sets | .trace => True

instance (v : View) (g : Grammar) (t : Table) : Decidable (v.Fits g t) :=
  match v with
  | .productions => inferInstanceAs (Decidable (∀ l ∈ g.listing?, _))
  | .grid => inferInstanceAs (Decidable (∀ d ∈ t.grid? g, _))
  | .sets | .trace => inferInstanceAs (Decidable True)

/-- The grid of a grammar's table as JSON, or an object that tells the fault of
its text. -/
def GrammarText.gridJson? (t : GrammarText) : Option String :=
  match t.read with
  | .error e => some (Text.Json.Value.object [("error", .string e.message)]).write
  | .ok g =>
    g.analysis?.bind fun a => (g.table? a).bind fun table => (table.grid? g).map Grid.json

end Predictive
