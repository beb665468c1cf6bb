import Predictive.Proofs.LatexRows
import Predictive.Proofs.TraceReading

/-!
# The mark for ε in LaTeX cells

Every ε in the joined text of a cell gets the mark, and so does one inside a name.
The left side of a cell is then not the label of its row, and the mark stands in
cells whose right side is not empty. Where no name has an ε, a cell has the mark
only for an entry that vanishes.
-/

namespace Predictive

open Text

namespace Text

def Occurs (word text : String) : Prop := word.toList <:+: text.toList

namespace Occurs
variable {word s t : String}

theorem append_left (h : Occurs word s) (t : String) : Occurs word (s ++ t) := by
  unfold Occurs at *
  rw [String.toList_append]
  exact List.infix_append_of_infix_left h

theorem append_right (h : Occurs word t) (s : String) : Occurs word (s ++ t) := by
  unfold Occurs at *
  rw [String.toList_append]
  exact List.infix_append_of_infix_right h

theorem intercalate (sep : String) {parts : List String} {p : String} (h : Occurs word p) (hp : p ∈ parts) :
    Occurs word (sep.intercalate parts) := by
  induction parts with
  | nil => cases hp
  | cons q parts ih =>
    cases parts with
    | nil =>
      rw [List.mem_singleton.mp hp] at h
      simpa using h
    | cons r parts =>
      rw [String.intercalate_cons_cons]
      rcases List.mem_cons.mp hp with rfl | hp
      · exact (h.append_left sep).append_left _
      · exact (ih hp).append_right _

end Occurs

/-! ## Marks in names -/

theorem occurs_texMarked (mark : String) {name : String} (h : 'ε' ∈ name.toList) : Occurs mark (texMarked mark name) := by
  unfold Occurs
  rw [toList_texMarked]
  generalize name.toList = cs at h ⊢
  induction cs with
  | nil => cases h
  | cons c cs ih =>
    rw [markedCodes]
    rcases List.mem_cons.mp h with rfl | h
    · exact List.infix_append_of_infix_left (List.infix_refl _)
    · exact List.infix_append_of_infix_right (ih h)

theorem texMarked_of_not_mem {name : String} (h : 'ε' ∉ name.toList) (mark : String) :
    texMarked mark name = tex name := by
  have key : ∀ cs : List Char, 'ε' ∉ cs → markedCodes mark cs = markedCodes "ε" cs := by
    intro cs hcs
    induction cs with
    | nil => rfl
    | cons c cs ih =>
      simp only [List.mem_cons, not_or] at hcs
      rw [markedCodes, markedCodes, ih hcs.2, markedCode, markedCode, if_neg (Ne.symm hcs.1), if_neg (Ne.symm hcs.1)]
  rw [← texMarked_self, ← String.toList_inj, toList_texMarked, toList_texMarked, key _ h]

/-- No code but the mark itself begins like it. -/
theorem escaped_of_mem_signs {mark : String} (hmark : Fielded 0 mark) {name : String}
    (h : .escaped 'e' ∈ texSigns (texMarked mark name).toList) :
    'ε' ∈ name.toList ∧ .escaped 'e' ∈ texSigns mark.toList := by
  have hcodes : ∀ p ∈ texCodes, .escaped 'e' ∉ texSigns p.2.toList := by decide
  rw [toList_texMarked] at h
  generalize name.toList = cs at h ⊢
  induction cs with
  | nil => simp [markedCodes, texSigns] at h
  | cons c cs ih =>
    have hcode := fielded_markedCode hmark c cs.head?
    have hsplit := hcode.signs_append (String.ofList (markedCodes mark cs))
    simp only [String.toList_append, String.toList_ofList] at hsplit
    rw [markedCodes, hsplit, List.mem_append] at h
    rcases h with h | h
    · unfold markedCode at h
      split at h
      · rename_i hε
        exact ⟨by simp [hε], h⟩
      split at h
      · exact absurd h (by decide)
      rcases texChar_eq c with ⟨code, hmem, e⟩ | ⟨_, e⟩
      · rw [e] at h
        exact absurd h (hcodes _ hmem)
      · rw [e] at h
        simp [texSigns] at h
    · exact (ih h).imp_left (List.mem_cons_of_mem c)

theorem escaped_of_occurs {text : String} {n : Nat} (htext : Fielded n text) (h : Occurs "\\epsilon" text) :
    .escaped 'e' ∈ texSigns text.toList := by
  have hlead : [ '\\', 'e'] <+: "\\epsilon".toList := by decide
  exact escaped_of_infix (hlead.isInfix.trans h) htext.unbroken

theorem texMarked_eq_tex_iff {name : String} : texMarked "\\epsilon" name = tex name ↔ 'ε' ∉ name.toList := by
  constructor
  · intro h hmem
    have hoccurs := occurs_texMarked "\\epsilon" hmem
    rw [h, ← texMarked_self] at hoccurs
    have hfielded : Fielded 0 (texMarked "ε" name) := fielded_texMarked (by decide) name
    exact absurd (escaped_of_mem_signs (by decide) (escaped_of_occurs hfielded hoccurs)).2 (by decide)
  · exact fun h => texMarked_of_not_mem h "\\epsilon"

end Text

/-! ## Marks in cells -/

/-- A cell has the mark in place of every ε in the names of its two sides. -/
structure MarkedCell (escape : String → String) (label : String) (right : List String) (text : String) : Prop where
  shown : text = markedBy escape "\\epsilon" label ++ " \\rightarrow " ++
    " \\ ".intercalate (right.map (markedBy escape "\\epsilon"))
  label_iff : markedBy escape "\\epsilon" label = escape label ↔ 'ε' ∉ label.toList
  mark_iff : Occurs "\\epsilon" text ↔ 'ε' ∈ label.toList ∨ ∃ name ∈ right, 'ε' ∈ name.toList

theorem markedCell_latex (label : String) (right : List String) :
    MarkedCell tex label right ((NamedRule.mk label [right]).latexBy tex false) := by
  have htext : (NamedRule.mk label [right]).latexBy tex false =
      texMarked "\\epsilon" label ++ " \\rightarrow " ++ " \\ ".intercalate (right.map (texMarked "\\epsilon")) := by
    rw [NamedRule.latex_eq (List.cons_ne_nil right [])]
    rfl
  refine ⟨htext, texMarked_eq_tex_iff, ?_⟩
  rw [htext]
  have hmark : Fielded 0 "\\epsilon" := by decide
  have hlabel : Fielded 0 (texMarked "\\epsilon" label) := fielded_texMarked hmark label
  have harrow : Fielded 0 " \\rightarrow " := by decide
  have hsep : Fielded 0 " \\ " := by decide
  have hnames : ∀ p ∈ right.map (texMarked "\\epsilon"), Fielded 0 p :=
    List.forall_mem_map.mpr fun name _ => fielded_texMarked hmark name
  constructor
  · intro h
    have hsign := escaped_of_occurs ((hlabel.append harrow).append (hsep.intercalate hnames)) h
    rw [(hlabel.append harrow).signs_append, hlabel.signs_append, List.mem_append, List.mem_append] at hsign
    rcases hsign with (hsign | hsign) | hsign
    · exact Or.inl (escaped_of_mem_signs hmark hsign).1
    · exact absurd hsign (by decide)
    · rcases hsep.mem_signs_intercalate hnames hsign with hsign | ⟨p, hp, hsign⟩
      · exact absurd hsign (by decide)
      · obtain ⟨name, hname, rfl⟩ := List.mem_map.mp hp
        exact Or.inr ⟨name, hname, (escaped_of_mem_signs hmark hsign).1⟩
  · rintro (h | ⟨name, hname, h⟩)
    · exact ((occurs_texMarked "\\epsilon" h).append_left _).append_left _
    · exact ((occurs_texMarked "\\epsilon" h).intercalate " \\ " (List.mem_map_of_mem hname)).append_right _

namespace Grammar
variable {g : Grammar}

theorem Consistent.mem_names_of_entryNames? (hg : g.Consistent) {row : Nat} {e : Entry} {names : List String}
    (h : g.entryNames? row e = some names) (hne : names ≠ [epsilonName]) :
    ∀ name ∈ names, name ∈ g.alphabet.names := by
  intro name hname
  unfold entryNames? at h
  split at h
  · exact absurd (Option.some.inj h).symm hne
  obtain ⟨p, hp, h⟩ := Option.bind_eq_some_iff.mp h
  obtain ⟨a, ha, hp⟩ := Option.bind_eq_some_iff.mp hp
  unfold productionNames? at h
  split at h
  · exact absurd (Option.some.inj h).symm hne
  obtain ⟨s, hs, hname⟩ := exists_of_mem_mapM h hname
  obtain ⟨_, hmark⟩ := hg.symbols a (List.mem_of_getElem? ha) p (List.mem_of_getElem? hp) s hs
  exact mem_names_of_nameOf? hmark hname

theorem Consistent.occurs_iff_vanishing {escape : String → String} (hg : g.Consistent)
    (hplain : ∀ name ∈ g.alphabet.names, 'ε' ∉ name.toList)
    {c : Cell} (hfits : c.Fits g) {label : String} {right : List String} {text : String}
    (hright : g.entryNames? c.slot.row c.entry = some right) (hlabel : label ∈ g.alphabet.names)
    (h : MarkedCell escape label right text) : Occurs "\\epsilon" text ↔ c.entry.vanishing = true := by
  have hvanishing := hg.vanishing_iff hfits hright
  apply h.mark_iff.trans
  constructor
  · rintro (hε | ⟨name, hname, hε⟩)
    · exact absurd hε (hplain label hlabel)
    · exact hvanishing.mpr (Classical.byContradiction fun hne =>
        hplain name (hg.mem_names_of_entryNames? hright hne name hname) hε)
  · intro hv
    exact Or.inr ⟨epsilonName, by rw [hvanishing.mp hv]; exact List.mem_cons_self, by decide⟩

/-- In a row of the grid in LaTeX, a cell without an entry is empty. Any other
has the row's label on its left side only if the label has no ε in it, and has the
mark wherever a name has an ε. If no name has one, only vanishing entries have it. -/
theorem marks_of_grid {escape : String → String} (hescape : EscapesTex escape) {t : GrammarText} (h : t.read = .ok g)
    {table : Table} (htable : g.Builds table) :
    ∃ d, table.grid? g = some d ∧ d.Shows table g ∧ ∀ (i j : Nat) (r : GridRow) (a : Symbol), d.rows[i]? = some r →
      g.lookaheads[j]? = some a → ∃ text, (r.rules.map fun n => n.latexBy escape false)[j]? = some text ∧
        (table.get? ⟨i, a⟩ = none → text = "") ∧
        ∀ e, table.get? ⟨i, a⟩ = some e → ∃ right, g.entryNames? i e = some right ∧
          MarkedCell escape r.label right text ∧
          ((∀ name ∈ g.alphabet.names, 'ε' ∉ name.toList) → (Occurs "\\epsilon" text ↔ e.vanishing = true)) := by
  obtain rfl := hescape.eq_tex
  obtain ⟨hg, hnames⟩ := GrammarText.inRange_consistent_of_read h
  have hrange := htable.inRange hg
  have hshows := Table.shows_gridOf hg hrange
  refine ⟨table.gridOf g, Table.grid?_eq hg hrange, hshows, fun i j r a hr ha => ?_⟩
  have hcell := hshows.cells i j r a hr ha
  refine ⟨_, by rw [GridRow.rules, List.map_map, List.getElem?_map, hcell]; rfl, fun hnone => ?_, fun e he => ?_⟩
  · rw [hnone]
    rfl
  have hmem : ⟨⟨i, a⟩, e⟩ ∈ table.cells := Table.mem_cells.mpr he
  have hfits := htable.fits hg _ hmem
  obtain ⟨s, hs⟩ := exists_shownCell? hg.symbols (hrange _ hmem)
  obtain ⟨_, _, hright⟩ := shownCell?_eq_some_iff.mp hs
  have hright : g.entryNames? i e = some s.right := hright
  have htext : (table.get? ⟨i, a⟩).bind (g.entryNames? i) = some s.right := by rw [he, Option.bind_some, hright]
  have hmarked := markedCell_latex r.label s.right
  have hlabel : r.label ∈ g.nonTerminals.map NonTerminal.name :=
    hshows.labels ▸ List.mem_map_of_mem (List.mem_of_getElem? hr)
  refine ⟨s.right, hright, ?_⟩
  rw [Function.comp_apply, htext]
  exact ⟨hmarked, fun hplain =>
    hnames.occurs_iff_vanishing hplain hfits hright (Alphabet.mem_names.mpr (Or.inl hlabel)) hmarked⟩

/-- A name with an ε in it. -/
def epsilonText : GrammarText where
  rules := [⟨"Aε", ["a"]⟩]
  start := "Aε"
  terminals := none

def epsilonGrid : Grid := ⟨["a", "$"], [⟨"Aε", [some ["a"], none]⟩]⟩

theorem read_epsilonText : epsilonText.read = .ok epsilonText.grammar :=
  GrammarText.read_eq_ok_iff.mpr ⟨by decide +kernel, rfl⟩

theorem exists_epsilonGrid : ∃ table, epsilonText.grammar.Builds table ∧
    table.grid? epsilonText.grammar = some epsilonGrid ∧ table.get? ⟨0, .terminal 0⟩ = some ⟨0, false⟩ := by
  have hgrid : (epsilonText.grammar.analysis?.bind epsilonText.grammar.table?).map
      (fun table => (table.grid? epsilonText.grammar, table.get? ⟨0, .terminal 0⟩)) =
        some (some epsilonGrid, some ⟨0, false⟩) := by decide +kernel
  obtain ⟨table, hbuilds, hgrid⟩ := exists_builds hgrid
  exact ⟨table, hbuilds, (Prod.mk.inj hgrid).1, (Prod.mk.inj hgrid).2⟩

theorem marks_of_grid_name : ∃ g table, epsilonText.read = .ok g ∧ g.Builds table ∧
    table.grid? g = some epsilonGrid ∧ MarkedCell tex "Aε" ["a"] "A\\epsilon \\rightarrow a" := by
  obtain ⟨table, hbuilds, hgrid, hentry⟩ := exists_epsilonGrid
  obtain ⟨d, hd, _, hcells⟩ := marks_of_grid escapesTex_tex read_epsilonText hbuilds
  rw [hgrid, Option.some.injEq] at hd
  subst hd
  obtain ⟨text, htext, _, hmarked⟩ := hcells 0 0 ⟨"Aε", [some ["a"], none]⟩ (.terminal 0) rfl (by decide +kernel)
  obtain ⟨right, hright, hmarked, _⟩ := hmarked _ hentry
  have hcell : text = "A\\epsilon \\rightarrow a" := by
    have hfirst : (GridRow.rules ⟨"Aε", [some ["a"], none]⟩ |>.map fun n => n.latexBy tex false)[0]? =
        some "A\\epsilon \\rightarrow a" := by decide +kernel
    exact Option.some.inj (htext.symm.trans hfirst)
  have hnames : epsilonText.grammar.entryNames? 0 ⟨0, false⟩ = some ["a"] := by decide +kernel
  rw [hnames, Option.some.injEq] at hright
  subst hright hcell
  exact ⟨_, table, read_epsilonText, hbuilds, hgrid, hmarked⟩

/-- The label of the row is not the left side of its cell, and the mark stands in
it though its right side is not empty. -/
theorem label_not_left : ∃ g table, epsilonText.read = .ok g ∧ g.Builds table ∧ table.grid? g = some epsilonGrid ∧
    ∃ r ∈ epsilonGrid.rows, ∃ n ∈ r.rules, n.rights = [["a"]] ∧
      (∀ rest, n.latex false ≠ tex r.label ++ " \\rightarrow " ++ rest) ∧ Occurs "\\epsilon" (n.latex false) := by
  obtain ⟨table, hbuilds, hgrid, _⟩ := exists_epsilonGrid
  have hcell : (NamedRule.mk "Aε" [["a"]]).latex false = "A\\epsilon \\rightarrow a" := by decide +kernel
  refine ⟨_, table, read_epsilonText, hbuilds, hgrid, _, List.mem_cons_self, ⟨"Aε", [["a"]]⟩, List.mem_cons_self, rfl,
    fun rest h => ?_, ?_⟩
  · have hlabel : tex "Aε" = "Aε" := by decide +kernel
    rw [hcell, hlabel] at h
    have hchars := congrArg (fun s => s.toList[1]?) h
    simp at hchars
  · rw [hcell]
    exact ⟨"A".toList, " \\rightarrow a".toList, by decide +kernel⟩

end Grammar

end Predictive
