import Predictive.Proofs.Built
import Predictive.Text.Cut

/-!
# Lines of a trace

A line shows a cell by names: its row, its lookahead and a right side. Names are
words, so a line breaks nowhere, and it has a blank only between its parts.
-/

namespace Predictive

open Text

/-- A cell as a line shows it. -/
structure ShownCell where
  nonTerminal : String
  lookahead : String
  right : List String
deriving DecidableEq

namespace ShownCell

def line (c : ShownCell) : String :=
  "M[" ++ c.nonTerminal ++ ", " ++ c.lookahead ++ "] = " ++ (c.nonTerminal ++ " → " ++ unwords c.right)

/-- What stands between the blanks of the line. -/
def parts (c : ShownCell) : List String :=
  ("M[" ++ c.nonTerminal ++ ",") :: (c.lookahead ++ "]") :: "=" :: c.nonTerminal :: "→" :: c.right

structure OfWords (c : ShownCell) : Prop where
  nonTerminal : IsWord c.nonTerminal
  lookahead : IsWord c.lookahead
  right_ne_nil : c.right ≠ []
  right : ∀ name ∈ c.right, IsWord name

variable {c : ShownCell}

theorem line_eq_unwords (h : c.right ≠ []) : c.line = unwords c.parts := by
  obtain ⟨name, names, e⟩ := List.exists_cons_of_ne_nil h
  unfold line parts unwords
  rw [e]
  simp only [String.intercalate_cons_cons, String.append_assoc]
  rfl

theorem OfWords.not_mem_parts (hc : c.OfWords) {x : Char} (hx : isBlank x = true) : ∀ p ∈ c.parts, x ∉ p.toList := by
  have hsigns : IsWord "M[,]=→" := by decide
  have hne := hsigns.not_mem hx
  simp only [String.reduceToList, List.mem_cons, List.not_mem_nil, or_false, not_or] at hne
  have hA := hc.nonTerminal.not_mem hx
  have ha := hc.lookahead.not_mem hx
  intro p hp
  simp only [parts, List.mem_cons] at hp
  rcases hp with rfl | rfl | rfl | rfl | rfl | hp
  · simp [hA, hne]
  · simp [ha, hne]
  · simp [hne]
  · exact hA
  · simp [hne]
  · exact (hc.right p hp).not_mem hx

theorem OfWords.not_mem_line (hc : c.OfWords) : '\n' ∉ c.line.toList := by
  rw [line_eq_unwords hc.right_ne_nil]
  exact not_mem_unwords (by decide) (hc.not_mem_parts (by decide))

theorem line_ne_empty (c : ShownCell) : c.line ≠ "" := by
  intro e
  have hlength := congrArg String.length e
  simp [line] at hlength

end ShownCell

/-! ## Names are words -/

namespace Grammar
variable {g : Grammar}

theorem Consistent.isWord (hg : g.Consistent) {s : Symbol} {name : String} (h : g.nameOf? s = some name) :
    IsWord name := by
  by_cases hs : s ≠ .epsilon ∧ s ≠ .endOfInput
  · exact hg.word name (mem_names_of_nameOf? hs h)
  · cases s with
    | terminal i => simp at hs
    | nonTerminal i => simp at hs
    | epsilon =>
      cases h
      decide
    | endOfInput =>
      cases h
      decide

theorem Consistent.isWord_of_mem (hg : g.Consistent) {a : NonTerminal} (ha : a ∈ g.nonTerminals) : IsWord a.name := by
  obtain ⟨i, hi⟩ := List.getElem?_of_mem ha
  exact hg.isWord (nameOf?_nonTerminal hi)

theorem Consistent.words_of_productionNames? (hg : g.Consistent) {p : Production} {names : List String}
    (h : g.productionNames? p = some names) : names ≠ [] ∧ ∀ name ∈ names, IsWord name := by
  unfold productionNames? at h
  split at h
  · cases h
    refine ⟨List.cons_ne_nil _ _, fun name hname => ?_⟩
    rw [List.mem_singleton.mp hname]
    exact hg.isWord (s := .epsilon) rfl
  · rename_i hp
    refine ⟨fun e => ?_, fun name hname => ?_⟩
    · have hlength := length_of_mapM h
      rw [e, List.length_nil] at hlength
      exact hp (List.isEmpty_iff.mpr (List.length_eq_zero_iff.mp hlength.symm))
    · obtain ⟨s, _, hs⟩ := exists_of_mem_mapM h hname
      exact hg.isWord hs

theorem Consistent.words_of_entryNames? (hg : g.Consistent) {row : Nat} {e : Entry} {names : List String}
    (h : g.entryNames? row e = some names) : names ≠ [] ∧ ∀ name ∈ names, IsWord name := by
  unfold entryNames? at h
  split at h
  · exact hg.words_of_productionNames? (p := []) h
  · obtain ⟨p, _, h⟩ := Option.bind_eq_some_iff.mp h
    exact hg.words_of_productionNames? h

/-! ## Cells shown by names -/

def shownCell? (g : Grammar) (c : Cell) : Option ShownCell :=
  (g.nonTerminal? c.slot.row).bind fun a =>
    (g.nameOf? c.slot.lookahead).bind fun lookahead =>
      (g.entryNames? c.slot.row c.entry).map fun right => ⟨a.name, lookahead, right⟩

theorem cellText?_eq (g : Grammar) (c : Cell) : g.cellText? c = (g.shownCell? c).map ShownCell.line := by
  unfold cellText? shownCell? entryText?
  cases g.nonTerminal? c.slot.row with
  | none => rfl
  | some a =>
    cases g.nameOf? c.slot.lookahead with
    | none => rfl
    | some lookahead => cases g.entryNames? c.slot.row c.entry <;> rfl

theorem shownCell?_eq_some_iff {c : Cell} {s : ShownCell} : g.shownCell? c = some s ↔
    g.nameOf? (.nonTerminal c.slot.row) = some s.nonTerminal ∧ g.nameOf? c.slot.lookahead = some s.lookahead ∧
      g.entryNames? c.slot.row c.entry = some s.right := by
  have hname : g.nameOf? (.nonTerminal c.slot.row) = (g.nonTerminal? c.slot.row).map NonTerminal.name := by
    simp [nameOf?, Alphabet.nameOf?, alphabet, nonTerminal?]
  obtain ⟨nonTerminal, lookahead, right⟩ := s
  rw [hname]
  unfold shownCell?
  cases g.nonTerminal? c.slot.row <;> cases g.nameOf? c.slot.lookahead <;>
    cases g.entryNames? c.slot.row c.entry <;> simp

theorem Consistent.ofWords (hg : g.Consistent) {c : Cell} {s : ShownCell} (h : g.shownCell? c = some s) :
    s.OfWords := by
  obtain ⟨hrow, hlookahead, hright⟩ := shownCell?_eq_some_iff.mp h
  obtain ⟨hne, hwords⟩ := hg.words_of_entryNames? hright
  exact ⟨hg.isWord hrow, hg.isWord hlookahead, hne, hwords⟩

theorem exists_shownCell? (hsymbols : ∀ r ∈ g.rules, ∀ s ∈ r.right, g.Has s) {c : Cell} (hc : c.InRange g) :
    ∃ s, g.shownCell? c = some s := by
  obtain ⟨text, htext⟩ := exists_cellText? hsymbols hc
  rw [cellText?_eq] at htext
  obtain ⟨s, hs, _⟩ := Option.map_eq_some_iff.mp htext
  exact ⟨s, hs⟩

end Grammar

/-! ## The lines of a trace -/

theorem Table.exists_trace_lines {g : Grammar} (hg : g.Consistent) (hrange : g.InRange) {t : Table}
    (ht : t.InRange g) : ∃ text shown, t.trace? g = some text ∧ t.cells.mapM g.shownCell? = some shown ∧
      text = unlines (shown.map ShownCell.line) ∧ ∀ s ∈ shown, s.OfWords := by
  obtain ⟨shown, hshown⟩ := exists_mapM fun c hc =>
    Option.isSome_iff_exists.mpr (Grammar.exists_shownCell? hrange.symbols (ht c hc))
  refine ⟨_, shown, ?_, hshown, rfl, fun s hs => ?_⟩
  · unfold trace?
    rw [funext g.cellText?_eq, map_of_mapM hshown, Option.map_some]
  · obtain ⟨c, _, hc⟩ := exists_of_mem_mapM hshown hs
    exact hg.ofWords hc

theorem not_mem_lines {shown : List ShownCell} (h : ∀ s ∈ shown, s.OfWords) :
    ∀ line ∈ shown.map ShownCell.line, '\n' ∉ line.toList :=
  List.forall_mem_map.mpr fun s hs => (h s hs).not_mem_line

theorem ne_empty_lines (shown : List ShownCell) : ∀ line ∈ shown.map ShownCell.line, line ≠ "" :=
  List.forall_mem_map.mpr fun s _ => s.line_ne_empty

end Predictive
