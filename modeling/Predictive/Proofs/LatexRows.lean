import Predictive.Proofs.AlignedGrid
import Predictive.Proofs.AlignedListing
import Predictive.Proofs.CanonicalSummary
import Predictive.Proofs.MarkedNames

/-!
# Rows in LaTeX

A marked name is fielded and without a line break, and so is what joins names. The
ampersands of a row are then those between its cells, and row breaks are between
the rows, whatever the names are made of.
-/

namespace Predictive

open Text

theorem append_intercalate (lead sep first : String) (later : List String) :
    lead ++ sep.intercalate (first :: later) = sep.intercalate ((lead ++ first) :: later) := by
  cases later <;> simp [String.intercalate_cons_cons, String.append_assoc]

/-- What every separator ends with opens the parts after it. -/
theorem intercalate_lead (sep lead first : String) (later : List String) :
    (sep ++ lead).intercalate (first :: later) = sep.intercalate (first :: later.map (lead ++ ·)) := by
  induction later generalizing first with
  | nil => simp
  | cons second later ih =>
    rw [String.intercalate_cons_cons, ih, List.map_cons, String.intercalate_cons_cons, ← append_intercalate]
    simp only [String.append_assoc]

/-! ## Cells -/

theorem fieldedLine_texMarked {mark : String} (hmark : FieldedLine 0 mark) {name : String} (hname : IsWord name) :
    FieldedLine 0 (texMarked mark name) :=
  ⟨fielded_texMarked hmark.toFielded name, not_mem_texMarked hmark.line (by decide) (hname.not_mem (by decide))⟩

theorem fieldedLine_tex {name : String} (hname : IsWord name) : FieldedLine 0 (tex name) := by
  rw [← texMarked_self]
  exact fieldedLine_texMarked (by decide) hname

theorem fieldedLine_names {mark sep : String} (hmark : FieldedLine 0 mark) (hsep : FieldedLine 0 sep)
    {names : List String} (hnames : ∀ name ∈ names, IsWord name) :
    FieldedLine 0 (sep.intercalate (names.map (texMarked mark))) := by
  have hparts : ∀ p ∈ names.map (texMarked mark), FieldedLine 0 p :=
    List.forall_mem_map.mpr fun name hname => fieldedLine_texMarked hmark (hnames name hname)
  simpa using hsep.intercalate hparts

namespace NamedRule

structure OfWords (r : NamedRule) : Prop where
  left : IsWord r.left
  rights : ∀ right ∈ r.rights, ∀ name ∈ right, IsWord name

theorem OfWords.fieldedLine_latex {r : NamedRule} (hr : r.OfWords) (hne : r.rights ≠ []) (aligned : Bool) :
    FieldedLine (if aligned then 2 else 0) (r.latexBy tex aligned) := by
  have hmark : FieldedLine 0 "\\epsilon" := by decide
  have harrow : FieldedLine (if aligned then 2 else 0) (arrow aligned) := by
    cases aligned <;> decide
  have hright : ∀ p ∈ r.rights.map markedRight, FieldedLine 0 p :=
    List.forall_mem_map.mpr fun right hright =>
      fieldedLine_names hmark (by decide) (hr.rights right hright)
  have hrights : FieldedLine 0 (" \\mid ".intercalate (r.rights.map markedRight)) := by
    have hmid : FieldedLine 0 " \\mid " := by decide
    simpa using hmid.intercalate hright
  rw [latex_eq hne]
  simpa using ((fieldedLine_texMarked hmark hr.left).append harrow).append hrights

end NamedRule

/-! ## Grids -/

namespace Grid

def latexPreamble (d : Grid) : String := "c" ++ "".intercalate (d.columns.map fun _ => "|l")

def latexNamesBy (escape : String → String) (d : Grid) : String :=
  " & ".intercalate ("" :: d.columns.map fun name => "\\text\x7b" ++ escape name ++ "\x7d")

/-- A column for the labels and one for each lookahead, and in every row a cell for each column. -/
structure InRows (escape : String → String) (d : Grid) : Prop where
  columns : columnsOf d.latexPreamble = d.columns.length + 1
  table : Tabulated "\\[\\begin\x7barray\x7d" d.latexPreamble (d.latexNamesBy escape)
    (d.rows.map (latexRowBy escape)) [] "\n\\end\x7barray\x7d\\]" (d.latexBy escape)

theorem toList_latexPreamble (d : Grid) :
    d.latexPreamble.toList = 'c' :: d.columns.flatMap fun _ => [ '|', 'l'] := by
  have hcolumns : ∀ names : List String, ("".intercalate (names.map fun _ => "|l")).toList =
      names.flatMap fun _ => [ '|', 'l'] := by
    intro names
    induction names with
    | nil => rfl
    | cons name names ih =>
      cases names with
      | nil => simp
      | cons name' names =>
        rw [List.flatMap_cons, ← ih]
        simp [String.intercalate_cons_cons]
  rw [latexPreamble, String.toList_append, hcolumns]
  rfl

theorem columnsOf_latexPreamble (d : Grid) : columnsOf d.latexPreamble = d.columns.length + 1 := by
  rw [columnsOf, toList_latexPreamble, List.countP_cons, List.countP_flatMap]
  simp [Function.comp_def]

theorem latexBy_eq (escape : String → String) (d : Grid) :
    d.latexBy escape = "\\[\\begin\x7barray\x7d" ++ "\x7b" ++ d.latexPreamble ++ "\x7d" ++ "\n" ++
      (d.latexNamesBy escape ++ "\\\\\\hline" ++ "\n" ++
        (rowBreak.intercalate (d.rows.map (latexRowBy escape) ++ []) ++ "\n\\end\x7barray\x7d\\]")) := by
  have hheader := append_intercalate
    ("\\[\\begin\x7barray\x7d\x7bc" ++ "".intercalate (d.columns.map fun _ => "|l") ++ "\x7d\n")
    " & " "" (d.columns.map fun name => "\\text\x7b" ++ escape name ++ "\x7d")
  rw [String.append_empty] at hheader
  unfold latexBy latexHeaderBy latexNamesBy latexPreamble rowBreak
  rw [← hheader, List.append_nil]
  simp only [String.append_assoc]
  rfl

variable {d : Grid} (hd : d.Rectangular) (hwords : d.OfWords)
include hwords

theorem fieldedLine_latexNames : FieldedLine d.columns.length (d.latexNamesBy tex) := by
  have hsep : FieldedLine 1 " & " := by decide
  have hempty : FieldedLine 0 "" := by decide
  have hcells : ∀ p ∈ d.columns.map (fun name => "\\text\x7b" ++ tex name ++ "\x7d"), FieldedLine 0 p := by
    refine List.forall_mem_map.mpr fun name hname => ?_
    have htext : FieldedLine 0 "\\text" := by decide
    have hcell := htext.append (fieldedLine_tex (hwords.columns name hname)).braces
    rwa [← String.append_assoc, ← String.append_assoc] at hcell
  simpa [latexNamesBy] using hsep.row hempty hcells

include hd in
theorem fieldedLine_latexRow {r : GridRow} (hr : r ∈ d.rows) : FieldedLine d.columns.length (latexRowBy tex r) := by
  have hsep : FieldedLine 1 " & " := by decide
  have hcells : ∀ p ∈ r.rules.map (fun n => n.latexBy tex false), FieldedLine 0 p := by
    refine List.forall_mem_map.mpr fun n hn => ?_
    obtain ⟨c, hc, rfl⟩ := List.mem_map.mp hn
    cases c with
    | none =>
      have hempty : FieldedLine 0 "" := by decide
      exact hempty
    | some names =>
      have hrule : NamedRule.OfWords ⟨r.label, [names]⟩ :=
        ⟨hwords.label r hr, by simpa using hwords.cells r hr names hc⟩
      exact hrule.fieldedLine_latex (List.cons_ne_nil _ _) false
  have hrow := hsep.row (fieldedLine_tex (hwords.label r hr)) hcells
  rw [List.length_map, GridRow.rules, List.length_map, hd r hr] at hrow
  exact hrow

include hd in
theorem inRows : d.InRows tex where
  columns := d.columnsOf_latexPreamble
  table := by
    have hpreamble : '\n' ∉ d.latexPreamble.toList := by simp [toList_latexPreamble]
    have hcolumns : columnsOf d.latexPreamble - 1 = d.columns.length := by rw [columnsOf_latexPreamble]; rfl
    rw [d.latexBy_eq]
    apply Tabulated.of_lines (by decide) hpreamble
    · rw [hcolumns]
      exact fieldedLine_latexNames hwords
    · rw [hcolumns]
      exact List.forall_mem_map.mpr fun r hr => fieldedLine_latexRow hd hwords hr
    · simp
    · exact Or.inr ⟨"\\end\x7barray\x7d\\]", rfl, by decide⟩

end Grid

/-! ## Summaries -/

namespace Summary

/-- The rows but the first are indented. -/
def latexRowsBy (escape : String → String) (s : Summary) : List String :=
  match s.rows.map (SummaryRow.latexBy escape) with
  | [] => []
  | first :: later => first :: later.map (" " ++ ·)

structure InRows (escape : String → String) (s : Summary) : Prop where
  table : Tabulated "\\begin\x7btabular\x7d" "c|c|c|c" "Symbol & Nullable & First & Follow"
    (s.latexRowsBy escape) ["\\end\x7btabular\x7d"] "" (s.latexBy escape)

structure OfWords (s : Summary) : Prop where
  name : ∀ r ∈ s.rows, IsWord r.name
  first : ∀ r ∈ s.rows, ∀ name ∈ r.first, IsWord name
  follow : ∀ r ∈ s.rows, ∀ name ∈ r.follow, IsWord name

variable {s : Summary}

theorem mem_latexRowsBy {escape : String → String} {row : String} (h : row ∈ s.latexRowsBy escape) :
    ∃ r ∈ s.rows, row = r.latexBy escape ∨ row = " " ++ r.latexBy escape := by
  unfold latexRowsBy at h
  cases hrows : s.rows with
  | nil => simp [hrows] at h
  | cons r rows =>
    simp only [hrows, List.map_cons, List.mem_cons, List.map_map, List.mem_map, Function.comp_apply] at h
    rcases h with rfl | ⟨r', hr', rfl⟩
    · exact ⟨r, List.mem_cons_self, Or.inl rfl⟩
    · exact ⟨r', List.mem_cons_of_mem r hr', Or.inr rfl⟩

theorem latexBy_eq (escape : String → String) (hne : s.rows ≠ []) :
    s.latexBy escape = "\\begin\x7btabular\x7d" ++ "\x7b" ++ "c|c|c|c" ++ "\x7d" ++ "\n" ++
      ("Symbol & Nullable & First & Follow" ++ "\\\\\\hline" ++ "\n" ++
        (rowBreak.intercalate (s.latexRowsBy escape ++ ["\\end\x7btabular\x7d"]) ++ "")) := by
  have hlead : "\\\\\n " = rowBreak ++ " " := rfl
  obtain ⟨r, rows, hrows⟩ := List.exists_cons_of_ne_nil hne
  unfold latexBy latexRowsBy
  rw [hrows, List.map_cons, hlead, intercalate_lead, String.intercalate_append_of_ne_nil (List.cons_ne_nil _ _) (by simp)]
  simp only [String.append_assoc, String.append_empty, String.intercalate_singleton]
  rfl

theorem OfWords.fieldedLine_latex (hs : s.OfWords) {r : SummaryRow} (hr : r ∈ s.rows) :
    FieldedLine 3 (r.latexBy tex) := by
  have hsep : FieldedLine 1 " & " := by decide
  have hset : ∀ {names : List String}, (∀ name ∈ names, IsWord name) →
      FieldedLine 0 (SummaryRow.setLatexBy tex names) := by
    intro names hnames
    rw [SummaryRow.setLatex_eq]
    exact fieldedLine_names (by decide) (by decide) hnames
  have hnullable : FieldedLine 0 (truthValue r.nullable) := by
    cases r.nullable <;> decide
  have hcells : ∀ p ∈ [truthValue r.nullable, SummaryRow.setLatexBy tex r.first,
      SummaryRow.setLatexBy tex r.follow],
      FieldedLine 0 p := by
    simpa using ⟨hnullable, hset (hs.first r hr), hset (hs.follow r hr)⟩
  exact hsep.row (fieldedLine_tex (hs.name r hr)) hcells

theorem OfWords.inRows (hs : s.OfWords) (hne : s.rows ≠ []) : s.InRows tex where
  table := by
    have hindent : FieldedLine 0 " " := by decide
    rw [latexBy_eq tex hne]
    apply Tabulated.of_lines (by decide) (by decide)
    · decide
    · intro row hrow
      obtain ⟨r, hr, rfl | rfl⟩ := mem_latexRowsBy hrow
      · exact hs.fieldedLine_latex hr
      · exact hindent.append (hs.fieldedLine_latex hr)
    · simp
    · exact Or.inl (by decide)

end Summary

theorem Grammar.Consistent.isWord_of_mem_namesOf {g : Grammar} (hnames : g.Consistent) {set : SymbolSet}
    (hset : ∀ b ∈ set, g.Has b) : ∀ name ∈ g.namesOf set, IsWord name := by
  intro name hname
  obtain ⟨b, hb, rfl⟩ := mem_namesOf.mp hname
  exact hnames.isWord (nameOf?_eq (hset b hb))

theorem Grammar.Snapshot.ofWords_summaryOf {g : Grammar} (hg : g.WellFormed) (hnames : g.Consistent) {a : Analysis}
    (ha : g.Snapshot a) : (g.summaryOf a).OfWords := by
  have hrow : ∀ r ∈ (g.summaryOf a).rows, ∃ n ∈ g.nonTerminals, ∃ first follow, g.SetsFit first follow ∧
      r = g.rowOf n.name first follow := by
    intro r hr
    obtain ⟨n, hn, rfl⟩ := List.mem_map.mp hr
    obtain ⟨_, _, hfit⟩ := ha.sets_of_mem hg hn
    exact ⟨n, hn, _, _, hfit, rfl⟩
  refine ⟨fun r hr => ?_, fun r hr => ?_, fun r hr => ?_⟩
  · obtain ⟨n, hn, _, _, _, rfl⟩ := hrow r hr
    exact hnames.isWord_of_mem hn
  · obtain ⟨_, _, _, _, hfit, rfl⟩ := hrow r hr
    exact hnames.isWord_of_mem_namesOf hfit.first_has
  · obtain ⟨_, _, _, _, hfit, rfl⟩ := hrow r hr
    exact hnames.isWord_of_mem_namesOf hfit.follow_has

theorem Grammar.rows_summaryOf_ne_nil {g : Grammar} (hg : g.WellFormed) (a : Analysis) : (g.summaryOf a).rows ≠ [] := by
  apply List.ne_nil_of_length_pos
  rw [length_summaryOf]
  exact Nat.zero_lt_of_lt hg.start

/-! ## Listings -/

namespace Listing

def latexRowsBy (escape : String → String) (l : Listing) : List String :=
  "\\[\\begin\x7barray\x7d\x7bcll\x7d" :: l.rules.map (fun r => r.latexBy escape true) ++
    ["\\end\x7barray\x7d\\]"]

/-- The first and the last row belong to the array. -/
structure InRows (escape : String → String) (l : Listing) : Prop where
  broken : BrokenInto "" (l.latexRowsBy escape) "" (l.latexBy escape)
  rows : ∀ r ∈ l.rules, r.rights ≠ [] → Fielded 2 (r.latexBy escape true)

theorem inRows {l : Listing} (h : ∀ r ∈ l.rules, r.OfWords) : l.InRows tex where
  broken := by
    have hline : ∀ row ∈ l.latexRowsBy tex, '\n' ∉ row.toList ∧ row.toList.getLast? ≠ some '\\' := by
      intro row hrow
      rcases List.mem_cons.mp hrow with rfl | hrow
      · decide
      rcases List.mem_append.mp hrow with hrow | hrow
      · obtain ⟨r, hr, rfl⟩ := List.mem_map.mp hrow
        by_cases hne : r.rights = []
        · simp [NamedRule.latexBy, hne]
        · have hfielded := (h r hr).fieldedLine_latex hne true
          exact ⟨hfielded.line, hfielded.ending⟩
      · rw [List.mem_singleton.mp hrow]
        decide
    have hbroken := BrokenInto.of_rows hline (Or.inl (by decide : '\n' ∉ "".toList))
    rwa [String.append_empty] at hbroken
  rows r hr hne := ((h r hr).fieldedLine_latex hne true).toFielded

end Listing

namespace Grammar
variable {g : Grammar}

theorem ofWords_of_mem_listingOf (hg : g.InRange) (hnames : g.Consistent) :
    ∀ r ∈ g.listingOf.rules, r.OfWords := by
  intro r hr
  obtain ⟨a, ha, rfl⟩ := List.mem_map.mp hr
  refine ⟨hnames.isWord_of_mem ha, fun right hright => ?_⟩
  obtain ⟨p, hp, rfl⟩ := List.mem_map.mp hright
  exact (hnames.words_of_productionNames? (productionNames?_eq hg ha p hp)).2

/-- Whatever the names of a grammar are made of, its grid, its summary and its
listing in LaTeX are in rows with the fields they should have. -/
theorem latex_in_rows {escape : String → String} (hescape : EscapesTex escape) {t : GrammarText} (h : t.read = .ok g)
    {a : Analysis} (ha : g.Snapshot a) {table : Table} (htable : g.Builds table) :
    ∃ d s l, table.grid? g = some d ∧ g.summary? a = some s ∧ g.listing? = some l ∧
      d.Shows table g ∧ s.rows.map SummaryRow.name = g.nonTerminals.map NonTerminal.name ∧ l.Shows g ∧
      d.InRows escape ∧ s.InRows escape ∧ l.InRows escape := by
  obtain rfl := hescape.eq_tex
  obtain ⟨hg, hnames⟩ := GrammarText.inRange_consistent_of_read h
  have hwell := GrammarText.wellFormed_of_read h
  have hrange := htable.inRange hg
  have hshows := Table.shows_gridOf hg hrange
  refine ⟨table.gridOf g, g.summaryOf a, g.listingOf, Table.grid?_eq hg hrange, ha.summary?_eq hwell, listing?_eq hg,
    hshows, names_summaryOf g a, shows_listingOf hg, ?_, ?_, ?_⟩
  · exact Grid.inRows hshows.rectangular (hshows.ofWords hnames)
  · exact (ha.ofWords_summaryOf hwell hnames).inRows (rows_summaryOf_ne_nil hwell a)
  · exact Listing.inRows (ofWords_of_mem_listingOf hg hnames)

/-- The signs of a table in LaTeX for names. -/
def braceText : GrammarText where
  rules := [⟨"\x7b", ["& \x7dε", "--"]⟩, ⟨"&", ["\\ $_", ""]⟩]
  start := "\x7b"
  terminals := none

def braceGrid : Grid where
  columns := ["\x7dε", "--", "\\", "$_", "$"]
  rows :=
    [⟨"\x7b", [some ["&", "\x7dε"], some ["--"], some ["&", "\x7dε"], none, none]⟩,
      ⟨"&", [some ["ε"], none, some ["\\", "$_"], none, none]⟩]

theorem latex_in_rows_braces : ∃ g a table s l, braceText.read = .ok g ∧ g.Snapshot a ∧ g.Builds table ∧
    table.grid? g = some braceGrid ∧ braceGrid.InRows tex ∧ s.InRows tex ∧ l.InRows tex ∧
    g.summary? a = some s ∧ g.listing? = some l ∧
    braceGrid.rows.map (Grid.latexRowBy tex) =
      ["\\\x7b & \\\x7b \\rightarrow \\& \\ \\\x7d\\epsilon & \\\x7b \\rightarrow -\x7b\x7d- & " ++
        "\\\x7b \\rightarrow \\& \\ \\\x7d\\epsilon &  & ",
        "\\& & \\& \\rightarrow \\epsilon &  & \\& \\rightarrow \\textbackslash\x7b\x7d \\ \\$\\_ &  & "] := by
  have hread : braceText.read = .ok braceText.grammar :=
    GrammarText.read_eq_ok_iff.mpr ⟨by decide +kernel, rfl⟩
  have hgrid : (braceText.grammar.analysis?.bind braceText.grammar.table?).map
      (fun table => table.grid? braceText.grammar) = some (some braceGrid) := by decide +kernel
  obtain ⟨table, hbuilds, hgrid⟩ := exists_builds hgrid
  have hsolved : (braceText.grammar.analysis?).isSome = true := by decide +kernel
  obtain ⟨a, ha⟩ := Option.isSome_iff_exists.mp hsolved
  obtain ⟨d, s, l, hd, hs, hl, _, _, _, hdrows, hsrows, hlrows⟩ :=
    latex_in_rows escapesTex_tex hread (snapshot_of_analysis? ha) hbuilds
  rw [hgrid, Option.some.injEq] at hd
  subst hd
  exact ⟨_, a, table, s, l, hread, snapshot_of_analysis? ha, hbuilds, hgrid, hdrows, hsrows, hlrows, hs, hl,
    by decide +kernel⟩

end Grammar

end Predictive
