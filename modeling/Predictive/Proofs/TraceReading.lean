import Mathlib.Data.List.Forall2
import Predictive.Proofs.TraceLines

/-!
# Traces read back

A line is read at its blanks: names have none, so whatever signs they are made
of, the parts have fixed places. What is read tells the row and the lookahead of
a cell, since no two symbols have one name, and it tells a vanishing cell, since
no other right side is ε. So a trace leaves open nothing but which of several
productions of one right side stands in a cell.
-/

namespace Predictive

open Text

namespace ShownCell

/-- The row is the first part without `M[` and the comma, the lookahead the
second one without the bracket, and the right side all that comes after the arrow. -/
def ofLine? (line : String) : Option ShownCell :=
  match cutAt ' ' line with
  | row :: lookahead :: _ :: _ :: _ :: right =>
    some ⟨String.ofList (row.toList.drop 2).dropLast, String.ofList lookahead.toList.dropLast, right⟩
  | _ => none

theorem OfWords.ofLine?_line {c : ShownCell} (hc : c.OfWords) : ofLine? c.line = some c := by
  unfold ofLine?
  rw [line_eq_unwords hc.right_ne_nil, cutAt_unwords (hc.not_mem_parts (by decide)) (List.cons_ne_nil _ _)]
  simp [parts]

theorem mapM_ofLine? {shown : List ShownCell} (h : ∀ s ∈ shown, s.OfWords) :
    (shown.map line).mapM ofLine? = some shown := by
  induction shown with
  | nil => rfl
  | cons s shown ih =>
    obtain ⟨hs, hshown⟩ := List.forall_mem_cons.mp h
    rw [List.map_cons, List.mapM_cons, hs.ofLine?_line, ih hshown]
    rfl

end ShownCell

/-! ## Cells told by what they show -/

/-- The cells are on one slot, and show one right side, perhaps of two productions. -/
def Cell.ShowsSame (g : Grammar) (c d : Cell) : Prop :=
  c.slot = d.slot ∧ c.entry.vanishing = d.entry.vanishing ∧
    g.entryNames? c.slot.row c.entry = g.entryNames? d.slot.row d.entry

namespace Grammar
variable {g : Grammar}

theorem Consistent.nameOf?_inj (hg : g.Consistent) {s s' : Symbol} {name : String} (h : g.nameOf? s = some name)
    (h' : g.nameOf? s' = some name) : s = s' := by
  have hs := (hg.symbolOf?_iff name s).mpr h
  rw [(hg.symbolOf?_iff name s').mpr h', Option.some.injEq] at hs
  exact hs.symm

theorem Consistent.productionNames?_ne (hg : g.Consistent) {i k : Nat} {p : Production}
    (hp : g.production? i k = some p) (hne : p ≠ []) : g.productionNames? p ≠ some [epsilonName] := by
  intro h
  have hempty : p.isEmpty = false := by simpa using hne
  unfold productionNames? at h
  rw [hempty, if_neg Bool.false_ne_true] at h
  obtain ⟨s, hs, hname⟩ := exists_of_mem_mapM h List.mem_cons_self
  obtain ⟨a, ha, hp⟩ := Option.bind_eq_some_iff.mp hp
  obtain ⟨_, hs, _⟩ := hg.symbols a (List.mem_of_getElem? ha) p (List.mem_of_getElem? hp) s hs
  exact hs (hg.nameOf?_inj hname rfl)

theorem Consistent.vanishing_iff (hg : g.Consistent) {c : Cell} (hc : c.Fits g) {names : List String}
    (h : g.entryNames? c.slot.row c.entry = some names) : c.entry.vanishing = true ↔ names = [epsilonName] := by
  unfold entryNames? at h
  by_cases hvanishing : c.entry.vanishing = true
  · rw [if_pos hvanishing, Option.some.injEq] at h
    simp [hvanishing, h]
  · rw [if_neg hvanishing] at h
    obtain ⟨p, hp, h⟩ := Option.bind_eq_some_iff.mp h
    have hne : p ≠ [] := fun e => hvanishing (hc.vanishing (e ▸ hp))
    simp only [hvanishing, false_iff, Bool.false_eq_true]
    intro e
    exact hg.productionNames?_ne hp hne (e ▸ h)

theorem Consistent.showsSame (hg : g.Consistent) {c d : Cell} (hc : c.Fits g) (hd : d.Fits g) {s : ShownCell}
    (hcs : g.shownCell? c = some s) (hds : g.shownCell? d = some s) : c.ShowsSame g d := by
  obtain ⟨hrow, hlookahead, hright⟩ := shownCell?_eq_some_iff.mp hcs
  obtain ⟨hrow', hlookahead', hright'⟩ := shownCell?_eq_some_iff.mp hds
  have hslot : c.slot = d.slot := by
    have hrows := Symbol.nonTerminal.inj (hg.nameOf?_inj hrow hrow')
    have hlookaheads := hg.nameOf?_inj hlookahead hlookahead'
    cases h : c.slot
    cases h' : d.slot
    simp_all
  refine ⟨hslot, ?_, hright.trans hright'.symm⟩
  rw [Bool.eq_iff_iff, hg.vanishing_iff hc hright, hg.vanishing_iff hd hright']

end Grammar

theorem forall₂_of_mapM {α β : Type} {f : α → Option β} {R : α → α → Prop} {l m : List α} {ys : List β}
    (hl : l.mapM f = some ys) (hm : m.mapM f = some ys)
    (hR : ∀ x ∈ l, ∀ x' ∈ m, ∀ y, f x = some y → f x' = some y → R x x') : List.Forall₂ R l m := by
  induction l generalizing m ys with
  | nil =>
    cases hl
    have hlength := length_of_mapM hm
    rw [List.eq_nil_of_length_eq_zero hlength.symm]
    exact .nil
  | cons x l ih =>
    rw [List.mapM_cons] at hl
    obtain ⟨y, hy, hl⟩ := Option.bind_eq_some_iff.mp hl
    obtain ⟨zs, hzs, hl⟩ := Option.bind_eq_some_iff.mp hl
    cases hl
    cases m with
    | nil => cases hm
    | cons x' m =>
      rw [List.mapM_cons] at hm
      obtain ⟨y', hy', hm⟩ := Option.bind_eq_some_iff.mp hm
      obtain ⟨zs', hzs', hm⟩ := Option.bind_eq_some_iff.mp hm
      cases hm
      refine .cons (hR x List.mem_cons_self x' List.mem_cons_self y hy hy') (ih hzs hzs' fun a ha b hb => ?_)
      exact hR a (List.mem_cons_of_mem _ ha) b (List.mem_cons_of_mem _ hb)

namespace Grammar
variable {g : Grammar}

/-- However its names are made up, the cells of a built table are read off its
trace: their names are, and with them all but the numbers of productions. -/
theorem cells_of_trace {t : GrammarText} (h : t.read = .ok g) {table : Table} (htable : g.Builds table) :
    ∃ text shown, table.trace? g = some text ∧ table.cells.mapM g.shownCell? = some shown ∧
      (0 < table.size → (cutAt '\n' text).length = table.size ∧
        (cutAt '\n' text).mapM ShownCell.ofLine? = some shown) ∧
      ∀ other, g.Builds other → other.trace? g = some text →
        List.Forall₂ (Cell.ShowsSame g) table.cells other.cells := by
  obtain ⟨hg, hnames⟩ := GrammarText.inRange_consistent_of_read h
  obtain ⟨text, shown, htext, hshown, rfl, hwords⟩ := Table.exists_trace_lines hnames hg (htable.inRange hg)
  refine ⟨_, shown, htext, hshown, fun hsize => ?_, fun other hother htext' => ?_⟩
  · have hlength : (shown.map ShownCell.line).length = table.size := by
      rw [List.length_map]
      exact length_of_mapM hshown
    rw [cutAt_unlines (not_mem_lines hwords) (List.ne_nil_of_length_pos (hlength ▸ hsize))]
    exact ⟨hlength, ShownCell.mapM_ofLine? hwords⟩
  · obtain ⟨text', shown', htext'', hshown', rfl, hwords'⟩ :=
      Table.exists_trace_lines hnames hg (hother.inRange hg)
    rw [htext', Option.some.injEq] at htext''
    have hlines := congrArg lines htext''
    rw [lines_unlines (not_mem_lines hwords) (ne_empty_lines shown),
      lines_unlines (not_mem_lines hwords') (ne_empty_lines shown')] at hlines
    have hsame : some shown = some shown' := by
      rw [← ShownCell.mapM_ofLine? hwords, hlines, ShownCell.mapM_ofLine? hwords']
    cases hsame
    apply forall₂_of_mapM hshown hshown'
    intro c hc d hd s hcs hds
    exact hnames.showsSame (htable.fits hg c hc) (hother.fits hg d hd) hcs hds

/-- The signs of a line for names. -/
def bracketText : GrammarText where
  rules := [⟨"→", ["] = M[,", "ε"]⟩, ⟨"M[,", ["→ ,"]⟩]
  start := "→"
  terminals := none

theorem cells_of_trace_brackets : ∃ g table text, bracketText.read = .ok g ∧ g.Builds table ∧
    table.trace? g = some text ∧ (cutAt '\n' text).mapM ShownCell.ofLine? = some
      [⟨"→", "]", ["]", "=", "M[,"]⟩, ⟨"→", ",", ["ε"]⟩, ⟨"→", "$", ["ε"]⟩, ⟨"M[,", "]", ["→", ","]⟩,
        ⟨"M[,", ",", ["→", ","]⟩] := by
  have hread : bracketText.read = .ok bracketText.grammar :=
    GrammarText.read_eq_ok_iff.mpr ⟨by decide +kernel, rfl⟩
  have hcells : (bracketText.grammar.analysis?.bind bracketText.grammar.table?).map
      (fun table => (decide (0 < table.size), table.cells.mapM bracketText.grammar.shownCell?)) = some (true, some
      [⟨"→", "]", ["]", "=", "M[,"]⟩, ⟨"→", ",", ["ε"]⟩, ⟨"→", "$", ["ε"]⟩, ⟨"M[,", "]", ["→", ","]⟩,
        ⟨"M[,", ",", ["→", ","]⟩]) := by
    decide +kernel
  obtain ⟨table, hbuilds, hcells⟩ := exists_builds hcells
  rw [Prod.mk.injEq, decide_eq_true_eq] at hcells
  obtain ⟨text, shown, htext, hshown, hback, _⟩ := cells_of_trace hread hbuilds
  rw [hshown] at hcells
  exact ⟨_, table, text, hread, hbuilds, htext, (hback hcells.1).2.trans hcells.2⟩

end Grammar

end Predictive
