import Mathlib.Algebra.GroupWithZero.Nat
import Mathlib.Data.List.Forall2
import Predictive.Proofs.TraceGrid

/-!
# Grids in plain text

The columns of a grid are as wide as their widest text has bytes, so no text has
more characters than its column, and what is missing is filled in front of it.
All lines are then of one length, and the bars between the columns stand one
below the other.
-/

namespace Predictive

open Text

/-! ## Columns -/

theorem length_intercalate {α : Type} (sep : List α) {parts : List (List α)} (hne : parts ≠ []) :
    (sep.intercalate parts).length + sep.length = (parts.map List.length).sum + sep.length * parts.length := by
  induction parts with
  | nil => exact absurd rfl hne
  | cons p parts ih =>
    by_cases hnil : parts = []
    · simp [hnil]
    · have ih := ih hnil
      rw [List.intercalate_cons_of_ne_nil hnil, List.length_append, List.length_append, List.map_cons, List.sum_cons,
        List.length_cons, Nat.mul_succ]
      omega

/-- A part begins where the ones before it and their separators end, and is
followed by a separator unless it is the last. -/
theorem drop_intercalate {α : Type} (sep : List α) {parts : List (List α)} {j : Nat} {p : List α}
    (hp : parts[j]? = some p) :
    ∃ later, (sep.intercalate parts).drop (((parts.take j).map List.length).sum + sep.length * j) = p ++ later ∧
      (j + 1 < parts.length → sep <+: later) := by
  induction j generalizing parts with
  | zero =>
    obtain ⟨parts, rfl⟩ : ∃ rest, parts = p :: rest := by
      cases parts with
      | nil => cases hp
      | cons q rest => exact ⟨rest, by simpa using hp⟩
    by_cases hnil : parts = []
    · exact ⟨[], by simp [hnil], by simp [hnil]⟩
    · refine ⟨sep ++ sep.intercalate parts, ?_, fun _ => List.prefix_append _ _⟩
      simp [List.intercalate_cons_of_ne_nil hnil]
  | succ j ih =>
    cases parts with
    | nil => cases hp
    | cons q parts =>
      rw [List.getElem?_cons_succ] at hp
      obtain ⟨later, hlater, hbar⟩ := ih hp
      have hnil : parts ≠ [] := fun e => by simp [e] at hp
      have hstart : (((q :: parts).take (j + 1)).map List.length).sum + sep.length * (j + 1) =
          (q ++ sep).length + (((parts.take j).map List.length).sum + sep.length * j) := by
        rw [List.take_succ_cons, List.map_cons, List.sum_cons, List.length_append, Nat.mul_succ]
        omega
      refine ⟨later, ?_, fun h => hbar (Nat.lt_of_succ_lt_succ h)⟩
      rw [hstart, List.intercalate_cons_of_ne_nil hnil, ← List.drop_drop, List.drop_left' rfl, hlater]

/-- Where a column begins, when every column before it is followed by three characters. -/
def columnStart (widths : List Nat) (j : Nat) : Nat := (widths.take j).sum + 3 * j

/-- No cell has more characters than its column. -/
structure WideEnough (widths : List Nat) (cells : List String) : Prop where
  columns : cells.length = widths.length
  whole : ∀ (j width : Nat) (cell : String), widths[j]? = some width → cells[j]? = some cell → cell.length ≤ width

/-- The line has a cell in each column, at its right end and whole, and a bar
between one column and the next. -/
structure InColumns (widths : List Nat) (cells : List String) (line : String) : Prop extends
    WideEnough widths cells where
  length : line.length = widths.sum + 3 * (widths.length - 1)
  cell : ∀ (j width : Nat) (cell : String), widths[j]? = some width → cells[j]? = some cell →
    (line.toList.drop (columnStart widths j)).take width = List.replicate (width - cell.length) ' ' ++ cell.toList
  bar : ∀ (j width : Nat), widths[j]? = some width → j + 1 < widths.length →
    (line.toList.drop (columnStart widths j + width)).take 3 = " | ".toList

def fieldsOf (widths : List Nat) (cells : List String) : List (List Char) :=
  (List.zipWith padLeft widths cells).map String.toList

def barred (widths : List Nat) (cells : List String) : String := " | ".intercalate (List.zipWith padLeft widths cells)

theorem toList_barred (widths : List Nat) (cells : List String) :
    (barred widths cells).toList = " | ".toList.intercalate (fieldsOf widths cells) :=
  String.toList_intercalate

namespace WideEnough
variable {widths : List Nat} {cells : List String} (h : WideEnough widths cells)
include h

theorem map_length_fieldsOf : (fieldsOf widths cells).map List.length = widths := by
  apply List.ext_getElem
  · simp [fieldsOf, h.columns]
  · intro j hj hj'
    have hcell : j < cells.length := h.columns ▸ hj'
    have hfits := h.whole j widths[j] cells[j] (List.getElem?_eq_getElem hj') (List.getElem?_eq_getElem hcell)
    simp only [fieldsOf, List.getElem_map, List.getElem_zipWith, String.length_toList, length_padLeft]
    exact Nat.max_eq_left hfits

theorem length_fieldsOf : (fieldsOf widths cells).length = widths.length := by
  rw [← List.length_map List.length, h.map_length_fieldsOf]

theorem length_barred (hne : widths ≠ []) : (barred widths cells).length = widths.sum + 3 * (widths.length - 1) := by
  have hpos := List.length_pos_of_ne_nil hne
  have hfields : fieldsOf widths cells ≠ [] := List.ne_nil_of_length_pos (by rwa [h.length_fieldsOf])
  have hlength := length_intercalate " | ".toList hfields
  have hbar : " | ".toList.length = 3 := rfl
  rw [h.map_length_fieldsOf, h.length_fieldsOf, ← toList_barred, String.length_toList, hbar] at hlength
  omega

theorem exists_field {j width : Nat} (hwidth : widths[j]? = some width) : ∃ cell later, cells[j]? = some cell ∧
    (barred widths cells).toList.drop (columnStart widths j) = (padLeft width cell).toList ++ later ∧
    (padLeft width cell).toList.length = width ∧ (j + 1 < widths.length → " | ".toList <+: later) := by
  have hj : j < cells.length := h.columns ▸ (List.getElem?_eq_some_iff.mp hwidth).1
  have hcell : cells[j]? = some cells[j] := List.getElem?_eq_getElem hj
  have hfield : (fieldsOf widths cells)[j]? = some (padLeft width cells[j]).toList := by
    simp [fieldsOf, List.getElem?_zipWith, hwidth, hcell]
  obtain ⟨later, hlater, hbar⟩ := drop_intercalate " | ".toList hfield
  rw [List.map_take, h.map_length_fieldsOf, ← toList_barred] at hlater
  rw [h.length_fieldsOf] at hbar
  refine ⟨cells[j], later, hcell, hlater, ?_, hbar⟩
  rw [String.length_toList, length_padLeft]
  exact Nat.max_eq_left (h.whole j width _ hwidth hcell)

theorem inColumns (hne : widths ≠ []) : InColumns widths cells (barred widths cells) := by
  refine ⟨h, h.length_barred hne, fun j width cell hwidth hcell => ?_, fun j width hwidth hlast => ?_⟩
  · obtain ⟨cell', later, hcell', hdrop, hlength, _⟩ := h.exists_field hwidth
    obtain rfl : cell' = cell := Option.some.inj (hcell'.symm.trans hcell)
    rw [hdrop, List.take_left' hlength, toList_padLeft]
  · obtain ⟨_, later, _, hdrop, hlength, hbar⟩ := h.exists_field hwidth
    rw [← List.drop_drop, hdrop, List.drop_left' hlength]
    exact (List.prefix_iff_eq_take.mp (hbar hlast)).symm

end WideEnough

/-! ## Lines of a grid -/

/-- What a cell shows has one right side or none. -/
theorem NamedRule.plainLine_cell (label : String) (c : Option (List String)) (width : Nat) :
    (NamedRule.mk label c.toList).plainLine width =
      (c.map fun names => padLeft width label ++ " -> " ++ unwords names).getD "" := by
  cases c <;> simp [plainLine, pieces]

namespace Grid
variable {d : Grid}

structure OfWords (d : Grid) : Prop where
  columns : ∀ name ∈ d.columns, IsWord name
  label : ∀ r ∈ d.rows, IsWord r.label
  cells : ∀ r ∈ d.rows, ∀ names, some names ∈ r.cells → ∀ name ∈ names, IsWord name

theorem OfWords.not_mem_cell (hd : d.OfWords) {cells : List String} (hcells : cells ∈ d.plainCells) {cell : String}
    (hcell : cell ∈ cells) : '\n' ∉ cell.toList := by
  have hword : ∀ {name : String}, IsWord name → '\n' ∉ name.toList := fun h => h.not_mem (by decide)
  rcases List.mem_cons.mp hcells with rfl | hcells
  · rcases List.mem_cons.mp hcell with rfl | hcell
    · simp
    · exact hword (hd.columns cell hcell)
  · obtain ⟨r, hr, rfl⟩ := List.mem_map.mp hcells
    rcases List.mem_cons.mp hcell with rfl | hcell
    · exact hword (hd.label r hr)
    · obtain ⟨n, hn, rfl⟩ := List.mem_map.mp hcell
      obtain ⟨c, hc, rfl⟩ := List.mem_map.mp hn
      rw [NamedRule.plainLine_cell]
      cases c with
      | none => simp
      | some names =>
        have hlabel := not_mem_padLeft (by decide) (hword (hd.label r hr)) r.label.utf8ByteSize
        have hright : '\n' ∉ (unwords names).toList :=
          not_mem_unwords (by decide) fun name hname => hword (hd.cells r hr names hc name hname)
        simp [hlabel, hright]

theorem length_widths (d : Grid) : d.widths.length = d.columns.length + 1 := by simp [widths]

theorem getElem?_widths {d : Grid} {j width : Nat} (h : d.widths[j]? = some width) :
    width = widest (d.plainCells.map fun line => line.getD j "") := by
  have hj : j < d.columns.length + 1 := d.length_widths ▸ (List.getElem?_eq_some_iff.mp h).1
  have hwidth : d.widths[j]? = some (widest (d.plainCells.map fun line => line.getD j "")) := by
    simp [widths, List.getElem?_range hj]
  exact Option.some.inj (h.symm.trans hwidth)

theorem wideEnough (hd : d.Rectangular) {cells : List String} (hcells : cells ∈ d.plainCells) :
    WideEnough d.widths cells where
  columns := by rw [hd.length_cells cells hcells, length_widths]
  whole j width cell hwidth hcell := by
    rw [getElem?_widths hwidth]
    apply length_le_widest
    exact List.mem_map.mpr ⟨cells, hcells, by rw [List.getD_eq_getElem?_getD, hcell]; rfl⟩

theorem inColumns_plainCells (hd : d.Rectangular) {cells : List String} (hcells : cells ∈ d.plainCells) :
    InColumns d.widths cells (barred d.widths cells) :=
  (wideEnough hd hcells).inColumns (List.ne_nil_of_length_pos (by rw [length_widths]; exact Nat.succ_pos _))

theorem lines_plain (hd : d.Rectangular) (hwords : d.OfWords) (hne : d.columns ≠ []) :
    lines d.plain = d.plainCells.map (barred d.widths) := by
  apply lines_unlines
  · refine List.forall_mem_map.mpr fun cells hcells => ?_
    apply not_mem_intercalate (by decide)
    intro field hfield
    rw [← List.map_uncurry_zip_eq_zipWith] at hfield
    obtain ⟨⟨width, cell⟩, hcell, rfl⟩ := List.mem_map.mp hfield
    exact not_mem_padLeft (by decide) (hwords.not_mem_cell hcells (List.of_mem_zip hcell).2) width
  · refine List.forall_mem_map.mpr fun cells hcells e => ?_
    -- there are two columns at least, so the line has a bar
    have hlength := (inColumns_plainCells hd hcells).length
    have hpos := List.length_pos_of_ne_nil hne
    rw [barred, e, length_widths, Nat.add_sub_cancel, String.length_empty] at hlength
    omega

theorem Shows.ofWords {g : Grammar} (hg : g.Consistent) {t : Table} (hd : d.Shows t g) : d.OfWords where
  columns name hname := by
    have hmem : some name ∈ g.lookaheads.map g.nameOf? := hd.columns ▸ List.mem_map_of_mem hname
    obtain ⟨a, _, ha⟩ := List.mem_map.mp hmem
    exact hg.isWord ha
  label r hr := by
    have hmem : r.label ∈ g.nonTerminals.map NonTerminal.name := hd.labels ▸ List.mem_map_of_mem hr
    obtain ⟨a, ha, hname⟩ := List.mem_map.mp hmem
    exact hname ▸ hg.isWord_of_mem ha
  cells r hr names hnames := by
    obtain ⟨i, hi⟩ := List.getElem?_of_mem hr
    obtain ⟨j, hj⟩ := List.getElem?_of_mem hnames
    have hcount : d.columns.length = g.lookaheads.length := by
      rw [← List.length_map some, hd.columns, List.length_map]
    have hlt : j < g.lookaheads.length := by
      rw [← hcount, ← hd.rectangular r hr]
      exact (List.getElem?_eq_some_iff.mp hj).1
    have hcell := hd.cells i j r _ hi (List.getElem?_eq_getElem hlt)
    rw [hj, Option.some.injEq] at hcell
    obtain ⟨e, _, he⟩ := Option.bind_eq_some_iff.mp hcell.symm
    exact (hg.words_of_entryNames? he).2

end Grid

namespace Grammar
variable {g : Grammar}

/-- A grid in plain text has a line for the header and one for each nonterminal,
and all of them have their cells in the same columns. -/
theorem grid_in_columns {t : GrammarText} (h : t.read = .ok g) {table : Table} (htable : g.Builds table) :
    ∃ d, table.grid? g = some d ∧ d.Shows table g ∧ (lines d.plain).length = g.size + 1 ∧
      List.Forall₂ (InColumns d.widths) d.plainCells (lines d.plain) := by
  obtain ⟨hg, hnames⟩ := GrammarText.inRange_consistent_of_read h
  have hrange := htable.inRange hg
  have hshows := Table.shows_gridOf hg hrange
  have hne : (table.gridOf g).columns ≠ [] := by simp [Table.gridOf, lookaheads]
  have hlines := Grid.lines_plain hshows.rectangular (hshows.ofWords hnames) hne
  refine ⟨table.gridOf g, Table.grid?_eq hg hrange, hshows, ?_, ?_⟩
  · rw [hlines, List.length_map]
    simp [Grid.plainCells, Table.gridOf, size]
  · rw [hlines, List.forall₂_map_right_iff, List.forall₂_same]
    exact fun cells hcells => Grid.inColumns_plainCells hshows.rectangular hcells

/-- Names with more bytes than characters, and a terminal that looks like a bar. -/
def wideText : GrammarText where
  rules := [⟨"日", ["é λβ 日", ""]⟩, ⟨"é", ["|"]⟩]
  start := "日"
  terminals := none

def wideGrid : Grid where
  columns := ["λβ", "|", "$"]
  rows := [⟨"日", [none, some ["é", "λβ", "日"], some ["ε"]]⟩, ⟨"é", [none, some ["|"], none]⟩]

theorem grid_in_columns_wide : ∃ g table, wideText.read = .ok g ∧ g.Builds table ∧ table.grid? g = some wideGrid ∧
    List.Forall₂ (InColumns [3, 4, 20, 11]) wideGrid.plainCells (lines wideGrid.plain) ∧
    lines wideGrid.plain =
      ["    |   λβ |                    | |           $",
        "  日 |      |          日 -> é λβ 日 |      日 -> ε",
        "  é |      |               é -> | |            "] := by
  have hread : wideText.read = .ok wideText.grammar :=
    GrammarText.read_eq_ok_iff.mpr ⟨by decide +kernel, rfl⟩
  have hgrid : (wideText.grammar.analysis?.bind wideText.grammar.table?).map
      (fun table => table.grid? wideText.grammar) = some (some wideGrid) := by decide +kernel
  obtain ⟨table, hbuilds, hgrid⟩ := exists_builds hgrid
  obtain ⟨d, hd, _, _, hcolumns⟩ := grid_in_columns hread hbuilds
  rw [hgrid, Option.some.injEq] at hd
  subst hd
  have hwidths : wideGrid.widths = [3, 4, 20, 11] := by decide +kernel
  rw [hwidths] at hcolumns
  exact ⟨_, table, hread, hbuilds, hgrid, hcolumns, by decide +kernel⟩

end Grammar

end Predictive
