import Predictive.Proofs.TraceLines

/-!
# Trace and grid

The trace goes through the cells of a table in their order, and the grid asks
for every slot of a row and a column. The columns ascend in the order of symbols
and the cells lie in them, so read row by row the grid has the cells in the order
of the table, and both write the same names.
-/

namespace Predictive

open Text

/-! ## Cells row by row -/

namespace Table
variable {t : Table}

def rowCells (t : Table) (columns : List Symbol) (row : Nat) : List Cell :=
  columns.filterMap fun a => (t.get? ⟨row, a⟩).map (Cell.mk ⟨row, a⟩)

theorem mem_rowCells {columns : List Symbol} {row : Nat} {c : Cell} :
    c ∈ t.rowCells columns row ↔ c ∈ t.cells ∧ c.slot.row = row ∧ c.slot.lookahead ∈ columns := by
  unfold rowCells
  rw [List.mem_filterMap, mem_cells]
  constructor
  · intro ⟨a, ha, hc⟩
    obtain ⟨e, he, rfl⟩ := Option.map_eq_some_iff.mp hc
    exact ⟨he, rfl, ha⟩
  · intro ⟨hc, hrow, ha⟩
    subst hrow
    exact ⟨_, ha, Option.map_eq_some_iff.mpr ⟨c.entry, hc, rfl⟩⟩

theorem ascending_rowCells {columns : List Symbol} (hcolumns : Ascending id columns) (row : Nat) :
    Ascending Cell.slot (t.rowCells columns row) := by
  unfold rowCells Ascending
  rw [List.pairwise_filterMap]
  refine hcolumns.imp fun {a b} hab c hc d hd => ?_
  obtain ⟨e, _, rfl⟩ := Option.map_eq_some_iff.mp hc
  obtain ⟨e', _, rfl⟩ := Option.map_eq_some_iff.mp hd
  exact Or.inr ⟨rfl, hab⟩

theorem cells_eq_rows {columns : List Symbol} (hcolumns : Ascending id columns) {n : Nat}
    (ht : ∀ c ∈ t.cells, c.slot.row < n ∧ c.slot.lookahead ∈ columns) :
    t.cells = (List.range n).flatMap (t.rowCells columns) := by
  have hrows : Ascending Cell.slot ((List.range n).flatMap (t.rowCells columns)) := by
    unfold Ascending
    rw [List.pairwise_flatMap]
    refine ⟨fun row _ => ascending_rowCells hcolumns row, List.pairwise_lt_range.imp fun {i j} hij c hc d hd => ?_⟩
    obtain ⟨_, hi, _⟩ := mem_rowCells.mp hc
    obtain ⟨_, hj, _⟩ := mem_rowCells.mp hd
    exact Or.inl (by rw [hi, hj]; exact hij)
  apply t.ascending.ext hrows
  intro c
  rw [List.mem_flatMap]
  constructor
  · intro hc
    obtain ⟨hrow, hcolumn⟩ := ht c hc
    exact ⟨c.slot.row, List.mem_range.mpr hrow, mem_rowCells.mpr ⟨hc, rfl, hcolumn⟩⟩
  · intro ⟨_, _, hc⟩
    exact (mem_rowCells.mp hc).1

end Table

namespace Grammar
variable {g : Grammar}

theorem ascending_lookaheads (g : Grammar) : Ascending id g.lookaheads := by
  unfold Ascending lookaheads
  rw [List.pairwise_append, List.pairwise_map]
  refine ⟨List.pairwise_lt_range.imp fun hij => Or.inr ⟨rfl, hij⟩, List.pairwise_singleton _ _, ?_⟩
  intro a ha b hb
  obtain ⟨i, _, rfl⟩ := List.mem_map.mp ha
  rw [List.mem_singleton.mp hb]
  exact Or.inl (by show 0 < 3; decide)

theorem mem_lookaheads {a : Symbol} (ha : g.Has a) (hlookahead : a.isLookahead = true) : a ∈ g.lookaheads := by
  unfold lookaheads
  cases a with
  | terminal i => exact List.mem_append_left _ (List.mem_map_of_mem (List.mem_range.mpr ha))
  | endOfInput => simp
  | nonTerminal i => cases hlookahead
  | epsilon => cases hlookahead

theorem place_of_fits {c : Cell} (hc : c.Fits g) : c.slot.row < g.size ∧ c.slot.lookahead ∈ g.lookaheads := by
  obtain ⟨p, hp⟩ := hc.production
  have hr : (⟨c.slot.row, c.entry.production, p⟩ : Rule) ∈ g.rules := mem_rules.mpr hp
  exact ⟨left_lt_size hr, mem_lookaheads hc.lookahead hc.isLookahead⟩

/-! ## The grid by names -/

-- the names that there are; only symbols and entries in range are asked for
def nameOf (g : Grammar) (s : Symbol) : String := (g.nameOf? s).getD ""

def rightOf (g : Grammar) (row : Nat) (e : Entry) : List String := (g.entryNames? row e).getD []

def shownCell (g : Grammar) (c : Cell) : ShownCell :=
  ⟨g.nameOf (.nonTerminal c.slot.row), g.nameOf c.slot.lookahead, g.rightOf c.slot.row c.entry⟩

theorem nameOf?_eq {s : Symbol} (hs : g.Has s) : g.nameOf? s = some (g.nameOf s) := by
  obtain ⟨name, hname⟩ := exists_nameOf? hs
  unfold nameOf
  rw [hname, Option.getD_some]

theorem nameOf_nonTerminal {i : Nat} {a : NonTerminal} (ha : g.nonTerminal? i = some a) :
    g.nameOf (.nonTerminal i) = a.name := by
  unfold nameOf
  rw [nameOf?_nonTerminal ha, Option.getD_some]

theorem shownCell_eq {c : Cell} {s : ShownCell} (h : g.shownCell? c = some s) : g.shownCell c = s := by
  obtain ⟨hrow, hlookahead, hright⟩ := shownCell?_eq_some_iff.mp h
  unfold shownCell nameOf rightOf
  rw [hrow, hlookahead, hright]
  rfl

theorem shown_eq_map {cells : List Cell} {shown : List ShownCell} (h : cells.mapM g.shownCell? = some shown) :
    shown = cells.map g.shownCell := by
  have htotal : ∀ c ∈ cells, g.shownCell? c = some (g.shownCell c) := by
    intro c hc
    obtain ⟨s, hs⟩ := exists_of_mapM h hc
    rw [hs, shownCell_eq hs]
  rw [mapM_eq_some_map htotal, Option.some.injEq] at h
  exact h.symm

end Grammar

/-- The cells that are not empty, row by row, with what stands at their row and column. -/
def GridRow.shown (columns : List String) (r : GridRow) : List ShownCell :=
  (columns.zip r.cells).filterMap fun c => c.2.map fun right => ⟨r.label, c.1, right⟩

namespace Grid

def shown (d : Grid) : List ShownCell := d.rows.flatMap (GridRow.shown d.columns)

def filled (d : Grid) : Nat := (d.rows.flatMap GridRow.cells).countP Option.isSome

/-- The grid has a row for each nonterminal and a column for each lookahead, in
order, and in a cell the right side that the table has there. -/
structure Shows (d : Grid) (t : Table) (g : Grammar) : Prop where
  labels : d.rows.map GridRow.label = g.nonTerminals.map NonTerminal.name
  columns : d.columns.map some = g.lookaheads.map g.nameOf?
  rectangular : d.Rectangular
  cells : ∀ (i j : Nat) (r : GridRow) (a : Symbol), d.rows[i]? = some r → g.lookaheads[j]? = some a →
    r.cells[j]? = some ((t.get? ⟨i, a⟩).bind (g.entryNames? i))
  single : ∀ r ∈ d.rows, ∀ n ∈ r.rules, n.left = r.label ∧ n.rights.length ≤ 1

theorem length_shown {d : Grid} (h : d.Rectangular) : d.shown.length = d.filled := by
  have hrow : ∀ r ∈ d.rows, (r.shown d.columns).length = r.cells.countP Option.isSome := by
    intro r hr
    have hcells : (d.columns.zip r.cells).map Prod.snd = r.cells := List.map_snd_zip (Nat.le_of_eq (h r hr))
    unfold GridRow.shown
    rw [List.length_filterMap_eq_countP, ← hcells, List.countP_map, hcells]
    simp [Function.comp_def]
  unfold shown filled
  rw [List.length_flatMap, List.countP_flatMap, List.map_congr_left hrow]
  rfl

end Grid

namespace Table

def gridOf (t : Table) (g : Grammar) : Grid where
  columns := g.lookaheads.map g.nameOf
  rows := g.nonTerminals.map fun n =>
    ⟨n.name, g.lookaheads.map fun a => (t.get? ⟨n.index, a⟩).map (g.rightOf n.index)⟩

variable {g : Grammar} {t : Table}

theorem gridCell?_eq (hg : g.InRange) (ht : t.InRange g) {n : NonTerminal} (hn : n ∈ g.nonTerminals) (a : Symbol) :
    t.gridCell? g n a = some ((t.get? ⟨n.index, a⟩).map (g.rightOf n.index)) := by
  unfold gridCell?
  cases he : t.get? ⟨n.index, a⟩ with
  | none => rfl
  | some e =>
    by_cases hvanishing : e.vanishing = true
    · simp [hvanishing, Grammar.rightOf, Grammar.entryNames?]
    · obtain ⟨p, hp⟩ := (ht ⟨⟨n.index, a⟩, e⟩ (mem_cells.mpr he)).production
      have hp' : g.production? n.index e.production = some p := hp
      rw [Grammar.production?, Grammar.nonTerminal?_index hn, Option.bind_some] at hp
      obtain ⟨names, hnames⟩ : ∃ names, g.productionNames? p = some names :=
        ⟨_, Grammar.productionNames?_eq hg hn p (List.mem_of_getElem? hp)⟩
      simp [hvanishing, hp, hp', hnames, Grammar.rightOf, Grammar.entryNames?]

theorem grid?_eq (hg : g.InRange) (ht : t.InRange g) : t.grid? g = some (t.gridOf g) := by
  have hcolumns : ∀ a ∈ g.lookaheads, g.nameOf? a = some (g.nameOf a) :=
    fun a ha => Grammar.nameOf?_eq (Grammar.has_of_mem_lookaheads ha)
  have hrows : ∀ n ∈ g.nonTerminals, t.gridRow? g n =
      some ⟨n.name, g.lookaheads.map fun a => (t.get? ⟨n.index, a⟩).map (g.rightOf n.index)⟩ := by
    intro n hn
    unfold gridRow?
    rw [mapM_eq_some_map fun a _ => gridCell?_eq hg ht hn a, Option.map_some]
  unfold grid?
  rw [mapM_eq_some_map hcolumns, Option.bind_some, mapM_eq_some_map hrows, Option.map_some]
  rfl

theorem entryNames?_eq (hg : g.InRange) (ht : t.InRange g) (i : Nat) (a : Symbol) :
    (t.get? ⟨i, a⟩).map (g.rightOf i) = (t.get? ⟨i, a⟩).bind (g.entryNames? i) := by
  cases he : t.get? ⟨i, a⟩ with
  | none => rfl
  | some e =>
    obtain ⟨s, hs⟩ := Grammar.exists_shownCell? hg.symbols (ht ⟨⟨i, a⟩, e⟩ (mem_cells.mpr he))
    obtain ⟨_, _, hright⟩ := Grammar.shownCell?_eq_some_iff.mp hs
    have hright' : g.entryNames? i e = some s.right := hright
    simp [Grammar.rightOf, hright']

theorem shows_gridOf (hg : g.InRange) (ht : t.InRange g) : (t.gridOf g).Shows t g where
  labels := List.map_map
  columns := by
    show List.map some (g.lookaheads.map g.nameOf) = _
    rw [List.map_map]
    exact List.map_congr_left fun a ha => (Grammar.nameOf?_eq (Grammar.has_of_mem_lookaheads ha)).symm
  rectangular := by
    intro r hr
    obtain ⟨n, _, rfl⟩ := List.mem_map.mp hr
    simp [gridOf]
  cells i j r a hr ha := by
    unfold gridOf at hr
    rw [List.getElem?_map] at hr
    obtain ⟨n, hn, rfl⟩ := Option.map_eq_some_iff.mp hr
    rw [Grammar.index_of_nonTerminal? hn]
    simpa [ha] using entryNames?_eq hg ht i a
  single r hr n hn := by
    obtain ⟨c, _, rfl⟩ := List.mem_map.mp hn
    exact ⟨rfl, Option.length_toList_le⟩

/-- Row by row, the grid shows the cells in the order of the table. -/
theorem shown_gridOf (ht : ∀ c ∈ t.cells, c.Fits g) : (t.gridOf g).shown = t.cells.map g.shownCell := by
  have hrow : ∀ n ∈ g.nonTerminals, GridRow.shown (g.lookaheads.map g.nameOf)
      ⟨n.name, g.lookaheads.map fun a => (t.get? ⟨n.index, a⟩).map (g.rightOf n.index)⟩ =
      (t.rowCells g.lookaheads n.index).map g.shownCell := by
    intro n hn
    have hname := Grammar.nameOf_nonTerminal (Grammar.nonTerminal?_index hn)
    unfold GridRow.shown rowCells
    rw [List.zip_map', List.filterMap_map, List.map_filterMap]
    refine List.filterMap_congr fun a _ => ?_
    simp [Grammar.shownCell, hname, Function.comp_def]
  have hrows : (t.gridOf g).shown =
      g.nonTerminals.flatMap fun n => (t.rowCells g.lookaheads n.index).map g.shownCell := by
    unfold Grid.shown gridOf
    rw [List.flatMap_map]
    exact List.flatMap_congr hrow
  have hrange : List.range g.size = g.nonTerminals.map NonTerminal.index := g.indexed.symm
  rw [hrows, cells_eq_rows g.ascending_lookaheads fun c hc => Grammar.place_of_fits (ht c hc), List.map_flatMap,
    hrange, List.flatMap_map]

end Table

namespace Grammar
variable {g : Grammar}

/-- The grid of a table that is built from sets of the grammar shows every cell
of it, and the lines of the trace are the cells of the grid that are not empty,
row by row. -/
theorem trace_lines_of_grid {t : GrammarText} (h : t.read = .ok g) {table : Table} (htable : g.Builds table) :
    ∃ d text, table.grid? g = some d ∧ table.trace? g = some text ∧ d.Shows table g ∧
      lines text = d.shown.map ShownCell.line ∧ d.filled = table.size := by
  obtain ⟨hg, hnames⟩ := GrammarText.inRange_consistent_of_read h
  have hfits := htable.fits hg
  have hrange := htable.inRange hg
  have hshows := Table.shows_gridOf hg hrange
  have hcells := Table.shown_gridOf hfits
  obtain ⟨text, shown, htext, hshown, rfl, hwords⟩ := Table.exists_trace_lines hnames hg hrange
  refine ⟨table.gridOf g, _, Table.grid?_eq hg hrange, htext, hshows, ?_, ?_⟩
  · rw [lines_unlines (not_mem_lines hwords) (ne_empty_lines shown), hcells, shown_eq_map hshown]
  · rw [← Grid.length_shown hshows.rectangular, hcells, List.length_map]
    rfl

theorem trace_lines_of_grid_expression : ∃ table d text, expressionText.grammar.Builds table ∧
    table.grid? expressionText.grammar = some d ∧ table.trace? expressionText.grammar = some text ∧
    lines text = d.shown.map ShownCell.line ∧ d.filled = 13 := by
  have hsize : (expressionText.grammar.analysis?.bind expressionText.grammar.table?).map Table.size = some 13 := by
    decide +kernel
  obtain ⟨table, hbuilds, hsize⟩ := exists_builds hsize
  obtain ⟨d, text, hd, htext, _, hlines, hfilled⟩ := trace_lines_of_grid read_expressionText hbuilds
  exact ⟨table, d, text, hbuilds, hd, htext, hlines, hfilled.trans hsize⟩

end Grammar

end Predictive
