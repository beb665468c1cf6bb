import Predictive.Display.View
import Predictive.Proofs.FirstConflict
import Predictive.Proofs.Nullability
import Predictive.Proofs.Rebuilding
import Predictive.Proofs.Staleness

/-!
# Lookups in range

Sets solved for a grammar hold its symbols only, wherever the passes are stopped,
and a table filled from them has entries for its productions only. Added
productions come after the others, so a table stays in range. All lines of a grid
are as long as its head. So in a session that stays on one grammar, nothing that
is computed or shown meets a number that is out of range.
-/

namespace Predictive

open Text

/-! ## Tables in range -/

/-- The cell is in a column of the grammar and shows a production of its row. -/
structure Cell.InRange (g : Grammar) (c : Cell) : Prop where
  lookahead : g.Has c.slot.lookahead
  production : ∃ p, g.production? c.slot.row c.entry.production = some p

def Table.InRange (t : Table) (g : Grammar) : Prop := ∀ c ∈ t.cells, c.InRange g

theorem Cell.InRange.addProduction? {g h : Grammar} {i : Nat} {p : Production} (hadd : g.addProduction? i p = some h)
    {c : Cell} (hc : c.InRange g) : c.InRange h where
  lookahead := (Grammar.has_addProduction? hadd).mpr hc.lookahead
  production := by
    obtain ⟨q, hq⟩ := hc.production
    have hrule : (⟨c.slot.row, c.entry.production, q⟩ : Rule) ∈ g.rules := Grammar.mem_rules.mpr hq
    exact ⟨q, Grammar.mem_rules.mp (Grammar.rules_subset_addProduction? hadd hrule)⟩

section
variable {g : Grammar} (hsymbols : ∀ r ∈ g.rules, ∀ s ∈ r.right, g.Has s)
include hsymbols

theorem Rule.Claims.inRange {r : Rule} (hr : r ∈ g.rules) {F P : Facts} (hF : ∀ i a, F i a → g.Has a)
    (hP : ∀ i a, P i a → g.Has a) {c : Cell} (h : r.Claims F P c) : c.InRange g where
  lookahead := h.has (hsymbols r hr) hF hP
  production := by
    rw [h.row, h.production]
    exact ⟨r.right, Grammar.mem_rules.mp hr⟩

namespace Grammar

theorem exists_claims?_inRange {a : Analysis} (ha : a.InRange g) :
    ∃ claims, g.claims? a = some claims ∧ ∀ c ∈ claims, c.InRange g := by
  have hg : g.BodiesInRange := fun r hr _ hi => hsymbols r hr _ hi
  obtain ⟨claims, hclaims, hmem, _⟩ := exists_claims? hg ha.first_size ha.follow_size
  refine ⟨claims, hclaims, fun c hc => ?_⟩
  obtain ⟨r, hr, hrc⟩ := (hmem c).mp hc
  exact hrc.inRange hsymbols hr ha.first_has ha.follow_has

theorem exists_table? {a : Analysis} (ha : a.InRange g) : ∃ t, g.table? a = some t ∧ t.InRange g := by
  obtain ⟨claims, hclaims, hrange⟩ := exists_claims?_inRange hsymbols ha
  exact ⟨(∅ : Table).fill claims, by rw [table?, hclaims, Option.map_some], Table.forall_cells_fill hrange⟩

/-- A strict fill ends with a table in range or a conflict that can be told. -/
theorem exists_strictTable? {a : Analysis} (ha : a.InRange g) :
    (∃ t, g.strictTable? a = some (.ok t) ∧ t.InRange g) ∨
      ∃ k r, g.strictTable? a = some (.error k) ∧ k.report? g = some r := by
  obtain ⟨claims, hclaims, hrange⟩ := exists_claims?_inRange hsymbols ha
  rw [strictTable?, hclaims, Option.map_some]
  cases h : (∅ : Table).fillStrictly claims with
  | ok t =>
    refine Or.inl ⟨t, rfl, ?_⟩
    rw [Table.eq_fill_of_fillStrictly h]
    exact Table.forall_cells_fill hrange
  | error k =>
    -- both entries of the conflict were claimed, one of them before the other
    obtain ⟨l, c, m, rfl, _, hslot, hincoming, hexisting, _⟩ := Table.parts_of_fillStrictly_error h
    have hnew : c.InRange g := hrange c (by simp)
    have hold : Cell.InRange g ⟨c.slot, k.existing⟩ :=
      hrange _ (List.mem_append_left _ (Table.mem_of_get?_fill hexisting))
    have hincoming' : ∃ p, g.production? k.slot.row k.incoming.production = some p := by
      rw [hslot, hincoming]
      exact hnew.production
    obtain ⟨r, hr, _⟩ := exists_report? hsymbols (hslot ▸ hnew.lookahead) (hslot ▸ hold.production) hincoming'
    exact Or.inr ⟨k, r, rfl, hr⟩

end Grammar

end

/-! ## Sets and tables shown -/

namespace Grammar
variable {g : Grammar}

theorem exists_setNames? {s : SymbolSet} (hs : ∀ b ∈ s, g.Has b) : ∃ names, g.setNames? s = some names := by
  have hnamed : ∀ b ∈ s.toList.filter (fun a => a != .epsilon && a != .endOfInput), (g.nameOf? b).isSome = true :=
    fun b hb => nameOf?_isSome.mpr (hs b (List.mem_filter.mp hb).1)
  obtain ⟨names, hnames⟩ := exists_mapM hnamed
  exact ⟨_, congrArg (Option.map _) hnames⟩

theorem exists_summary? {a : Analysis} (ha : a.InRange g) : ∃ s, g.summary? a = some s := by
  have hrow : ∀ n ∈ g.nonTerminals, (g.summaryRow? a n).isSome = true := by
    intro n hn
    have hi : n.index < g.size := index_lt_size hn
    obtain ⟨first, hfirst⟩ := SetFamily.exists_get? (ha.first_size ▸ hi)
    obtain ⟨follow, hfollow⟩ := SetFamily.exists_get? (ha.follow_size ▸ hi)
    obtain ⟨_, hfirstNames⟩ := exists_setNames? fun b hb => ha.first_has _ b ((SetFamily.holds_iff hfirst).mpr hb)
    obtain ⟨_, hfollowNames⟩ := exists_setNames? fun b hb => ha.follow_has _ b ((SetFamily.holds_iff hfollow).mpr hb)
    simp [summaryRow?, hfirst, hfollow, hfirstNames, hfollowNames]
  obtain ⟨rows, hrows⟩ := exists_mapM hrow
  exact ⟨_, congrArg (Option.map _) hrows⟩

theorem has_of_mem_lookaheads {a : Symbol} (ha : a ∈ g.lookaheads) : g.Has a := by
  rcases List.mem_append.mp ha with ha | ha
  · obtain ⟨i, hi, rfl⟩ := List.mem_map.mp ha
    exact List.mem_range.mp hi
  · rw [List.mem_singleton.mp ha]
    trivial

theorem exists_cellText? (hsymbols : ∀ r ∈ g.rules, ∀ s ∈ r.right, g.Has s) {c : Cell} (hc : c.InRange g) :
    ∃ text, g.cellText? c = some text := by
  obtain ⟨name, hname⟩ := exists_nameOf? hc.lookahead
  obtain ⟨entry, hentry⟩ := exists_entryText? hsymbols hc.production
  obtain ⟨p, hp⟩ := hc.production
  obtain ⟨n, hn, _⟩ := Option.bind_eq_some_iff.mp hp
  unfold cellText?
  rw [hn, Option.bind_some, hname, Option.bind_some, hentry]
  exact ⟨_, rfl⟩

end Grammar

/-- Every row has a cell for each column. -/
def Grid.Rectangular (d : Grid) : Prop := ∀ r ∈ d.rows, r.cells.length = d.columns.length

namespace Table
variable {g : Grammar} {t : Table} (ht : t.InRange g)
include ht

variable (hsymbols : ∀ r ∈ g.rules, ∀ s ∈ r.right, g.Has s)
include hsymbols

theorem exists_trace? : ∃ text, t.trace? g = some text := by
  obtain ⟨lines, hlines⟩ := exists_mapM fun c hc =>
    Option.isSome_iff_exists.mpr (Grammar.exists_cellText? hsymbols (ht c hc))
  exact ⟨_, congrArg (Option.map _) hlines⟩

theorem exists_gridCell? {n : NonTerminal} (hn : n ∈ g.nonTerminals) (lookahead : Symbol) :
    ∃ cell, t.gridCell? g n lookahead = some cell := by
  unfold gridCell?
  cases he : t.get? ⟨n.index, lookahead⟩ with
  | none => exact ⟨none, rfl⟩
  | some e =>
    obtain ⟨p, hp⟩ := (ht ⟨⟨n.index, lookahead⟩, e⟩ (mem_cells.mpr he)).production
    obtain ⟨names, hnames⟩ :=
      Grammar.exists_productionNames? (hsymbols ⟨n.index, e.production, p⟩ (Grammar.mem_rules.mpr hp))
    rw [Grammar.production?, Grammar.nonTerminal?_index hn, Option.bind_some] at hp
    by_cases hvanishing : e.vanishing
    · exact ⟨some [epsilonName], if_pos hvanishing⟩
    · exact ⟨some names, by simp [hvanishing, hp, hnames]⟩

theorem exists_gridRow? {n : NonTerminal} (hn : n ∈ g.nonTerminals) :
    ∃ row, t.gridRow? g n = some row ∧ row.cells.length = g.lookaheads.length := by
  obtain ⟨cells, hcells⟩ := exists_mapM fun lookahead (_ : lookahead ∈ g.lookaheads) =>
    Option.isSome_iff_exists.mpr (exists_gridCell? ht hsymbols hn lookahead)
  exact ⟨⟨n.name, cells⟩, congrArg (Option.map _) hcells, length_of_mapM hcells⟩

theorem exists_grid? : ∃ d, t.grid? g = some d ∧ d.Rectangular := by
  have hcolumns : ∀ a ∈ g.lookaheads, (g.nameOf? a).isSome = true :=
    fun a ha => Grammar.nameOf?_isSome.mpr (Grammar.has_of_mem_lookaheads ha)
  have hrow : ∀ n ∈ g.nonTerminals, ∃ row, t.gridRow? g n = some row ∧ row.cells.length = g.lookaheads.length :=
    fun n hn => exists_gridRow? ht hsymbols hn
  obtain ⟨columns, hcolumns⟩ := exists_mapM hcolumns
  obtain ⟨rows, hrows⟩ := exists_mapM fun n hn => Option.isSome_iff_exists.mpr ((hrow n hn).imp fun _ => And.left)
  refine ⟨⟨columns, rows⟩, ?_, fun r hr => ?_⟩
  · unfold grid?
    rw [hcolumns, Option.bind_some, hrows, Option.map_some]
  · obtain ⟨n, hn, hr⟩ := exists_of_mem_mapM hrows hr
    obtain ⟨row, hrow, hlength⟩ := hrow n hn
    rw [hr, Option.some.injEq] at hrow
    rw [hrow, hlength, length_of_mapM hcolumns]

end Table

/-! ## Plain text laid out -/

namespace NamedRule
variable {pad : Nat → String → Option String} {width : Nat} (hpad : ∀ s, pad width s = some (padLeft width s))
include hpad

theorem piecesBy?_eq (r : NamedRule) (lead : String) :
    r.piecesBy? pad width (some lead) = some (r.pieces width lead) := by
  unfold piecesBy? pieces
  cases r.rights with
  | nil => rfl
  | cons first later =>
    have hlater : later.mapM (fun right => some (lead ++ unwords right)) =
        some (later.map fun right => lead ++ unwords right) := mapM_eq_some_map fun _ _ => rfl
    simp only [hpad, Option.bind_some, Option.map_some, hlater]

theorem plainLineBy?_eq (r : NamedRule) : r.plainLineBy? pad width = some (r.plainLine width) := by
  rw [plainLineBy?, piecesBy?_eq hpad, Option.map_some, plainLine]

theorem plainLinesBy?_eq (r : NamedRule) : r.plainLinesBy? pad width = some (r.plainLines width) := by
  rw [plainLinesBy?, hpad, Option.map_some, piecesBy?_eq hpad, Option.map_some, plainLines]

end NamedRule

theorem Listing.plainBy?_eq {pad : Nat → String → Option String} {l : Listing}
    (hpad : ∀ s, pad (widest (l.rules.map NamedRule.left)) s = some (padLeft (widest (l.rules.map NamedRule.left)) s)) :
    l.plainBy? pad = some l.plain := by
  have hlines := mapM_eq_some_map fun r (_ : r ∈ l.rules) => NamedRule.plainLinesBy?_eq hpad r
  simp only [plainBy?, hlines, Option.map_some, plain]

namespace Grid
variable {d : Grid} {pad : Nat → String → Option String}

theorem plainLineBy?_eq {widths : List Nat} (hpad : ∀ width ∈ widths, ∀ s, pad width s = some (padLeft width s))
    {cells : List String} (h : cells.length = widths.length) :
    plainLineBy? pad widths cells = some (" | ".intercalate (List.zipWith padLeft widths cells)) := by
  have hwidth : ∀ c ∈ cells.zipIdx, (widths[c.2]?.bind fun width => pad width c.1) =
      some (padLeft (widths.getD c.2 0) c.1) := by
    rintro ⟨text, j⟩ hc
    have hj : j < widths.length := h ▸ (List.getElem?_eq_some_iff.mp (List.mk_mem_zipIdx_iff_getElem?.mp hc)).1
    simp [hj, hpad]
  have hcells : (cells.zipIdx.map fun c => padLeft (widths.getD c.2 0) c.1) = List.zipWith padLeft widths cells := by
    apply List.ext_getElem
    · simp [h]
    · intro j hj _
      have hlt : j < widths.length := by simpa [h] using hj
      simp [hlt]
  unfold plainLineBy?
  rw [mapM_eq_some_map hwidth, hcells, Option.map_some]

/-- A label is not wider than the column of the labels. -/
theorem exists_width_of_row {r : GridRow} (hr : r ∈ d.rows) : ∃ width ∈ d.widths, r.label.utf8ByteSize ≤ width := by
  refine ⟨_, List.mem_map_of_mem (List.mem_range.mpr (Nat.succ_pos _)), utf8ByteSize_le_widest ?_⟩
  refine List.mem_map.mpr ⟨r.label :: r.rules.map fun n => n.plainLine r.label.utf8ByteSize, ?_, rfl⟩
  exact List.mem_cons_of_mem _ (List.mem_map_of_mem hr)

theorem plainCellsBy?_eq (hpad : ∀ width ∈ d.widths, ∀ n ≤ width, ∀ s, pad n s = some (padLeft n s)) :
    d.plainCellsBy? pad = some d.plainCells := by
  have hrow : ∀ r ∈ d.rows, rowCellsBy? pad r =
      some (r.label :: r.rules.map fun n => n.plainLine r.label.utf8ByteSize) := by
    intro r hr
    obtain ⟨width, hwidth, hle⟩ := exists_width_of_row hr
    have hcells := mapM_eq_some_map fun n (_ : n ∈ r.rules) => NamedRule.plainLineBy?_eq (hpad width hwidth _ hle) n
    rw [rowCellsBy?, hcells, Option.map_some]
  rw [plainCellsBy?, mapM_eq_some_map hrow, Option.map_some, plainCells]

namespace Rectangular
variable (h : d.Rectangular)
include h

theorem length_cells : ∀ cells ∈ d.plainCells, cells.length = d.columns.length + 1 := by
  intro cells hcells
  rcases List.mem_cons.mp hcells with rfl | hcells
  · rfl
  · obtain ⟨r, hr, rfl⟩ := List.mem_map.mp hcells
    simp [GridRow.rules, h r hr]

theorem widthsOf?_eq : widthsOf? (d.columns.length + 1) d.plainCells = some d.widths := by
  refine mapM_eq_some_map fun j hj => ?_
  have hcell : ∀ cells ∈ d.plainCells, cells[j]? = some (cells.getD j "") := by
    intro cells hcells
    have hlt : j < cells.length := by
      rw [h.length_cells cells hcells]
      exact List.mem_range.mp hj
    simp [hlt]
  rw [mapM_eq_some_map hcell, Option.map_some]

/-- No lookup of a cell or a width is out of range. -/
theorem plainBy?_eq (hpad : ∀ width ∈ d.widths, ∀ n ≤ width, ∀ s, pad n s = some (padLeft n s)) :
    d.plainBy? pad = some d.plain := by
  have hlength : d.widths.length = d.columns.length + 1 := by simp [widths]
  have hcells : ∀ cells ∈ d.plainCells, plainLineBy? pad d.widths cells =
      some (" | ".intercalate (List.zipWith padLeft d.widths cells)) :=
    fun cells hcells => plainLineBy?_eq (fun width hwidth => hpad width hwidth width (Nat.le_refl width))
      ((h.length_cells cells hcells).trans hlength.symm)
  unfold plainBy?
  rw [plainCellsBy?_eq hpad, Option.bind_some, h.widthsOf?_eq, Option.bind_some, mapM_eq_some_map hcells,
    Option.map_some, plain]

theorem plain?_eq : d.plain? = some d.plain := h.plainBy?_eq fun _ _ _ _ _ => rfl

end Rectangular

end Grid

theorem View.exists_text? {g : Grammar} (hg : g.InRange) {a : Analysis} (ha : a.InRange g) {t : Table}
    (ht : t.InRange g) (v : View) (f : Format) : ∃ text, v.text? f g a t = some text := by
  cases v with
  | productions => exact ⟨_, congrArg (Option.map _) (Grammar.listing?_eq hg)⟩
  | sets =>
    obtain ⟨s, hs⟩ := Grammar.exists_summary? ha
    exact ⟨_, congrArg (Option.map _) hs⟩
  | grid =>
    obtain ⟨d, hd, _⟩ := Table.exists_grid? ht hg.symbols
    exact ⟨_, congrArg (Option.map _) hd⟩
  | trace => exact Table.exists_trace? ht hg.symbols

theorem View.textBy?_padLeft? {g : Grammar} {a : Analysis} {t : Table} (ht : t.InRange g)
    (hsymbols : ∀ r ∈ g.rules, ∀ s ∈ r.right, g.Has s) {v : View} (hv : v.Fits g t) (f : Format) :
    v.textBy? padLeft? f g a t = v.text? f g a t := by
  have hpad : ∀ width ≤ widthLimit, ∀ s, padLeft? width s = some (padLeft width s) := fun _ hwidth _ => if_pos hwidth
  cases f with
  | latex => cases v <;> rfl
  | json => cases v <;> rfl
  | plain =>
    cases v with
    | sets => rfl
    | trace => rfl
    | productions =>
      have hplain : ∀ l ∈ g.listing?, l.plainBy? padLeft? = some (l.text .plain) :=
        fun l hl => Listing.plainBy?_eq (hpad _ (hv l hl))
      exact (Option.bind_congr hplain).trans Option.map_eq_bind.symm
    | grid =>
      obtain ⟨d, hd, hrectangular⟩ := Table.exists_grid? ht hsymbols
      have hplain : d.plainBy? padLeft? = some d.plain :=
        hrectangular.plainBy?_eq fun width hwidth n hn => hpad n (Nat.le_trans hn (hv d hd width hwidth))
      simp only [textBy?, text?, hd, Option.bind_some, hplain, Option.map_some, Grid.text]

/-! ## Sessions on one grammar -/

/-- Besides the steps that add, tables are filled. -/
def Step.Stays (g : Grammar) (c : Step) : Prop := c.Adds g ∨ c = .fillTable ∨ c = .fillTableStrictly

instance (g : Grammar) : DecidablePred (Step.Stays g) := fun c =>
  inferInstanceAs (Decidable (c.Adds g ∨ _))

theorem Step.Adds.kept {g : Grammar} {c : Step} (hc : c.Adds g) {s t : Session} (ht : s.step c = .ok t) :
    t.table = s.table ∧ (t.grammar = s.grammar ∨ ∃ i p, s.grammar.addProduction? i p = some t.grammar) := by
  cases c with
  | load _ => exact hc.elim
  | setStart _ => exact hc.elim
  | fillTable => exact hc.elim
  | fillTableStrictly => exact hc.elim
  | addProduction i p =>
    obtain ⟨h, hadd, rfl⟩ := Option.map_eq_some_iff.mp (eq_some_of_orOutOfRange ht)
    exact ⟨rfl, Or.inr ⟨i, p, hadd⟩⟩
  | solveFirst limit =>
    obtain ⟨_, _, rfl⟩ := Option.map_eq_some_iff.mp (eq_some_of_orOutOfRange ht)
    exact ⟨rfl, Or.inl rfl⟩
  | solveFollow limit =>
    obtain ⟨_, _, rfl⟩ := Option.map_eq_some_iff.mp (eq_some_of_orOutOfRange ht)
    exact ⟨rfl, Or.inl rfl⟩
  | clearFirst size =>
    cases ht
    exact ⟨rfl, Or.inl rfl⟩
  | clearFollow size =>
    cases ht
    exact ⟨rfl, Or.inl rfl⟩

/-- The sets and the table are in range of the grammar, which has come out of `g`. -/
structure Session.InRange (g : Grammar) (s : Session) : Prop extends Session.Sound g s where
  table : s.table.InRange s.grammar

namespace Session
variable {g : Grammar} {s : Session}

theorem Sound.sets_inRange (hs : s.Sound g) : s.sets.InRange s.grammar := by
  have hfirst := Grammar.firstClosed_has hs.inRange.symbols
  have hfollow := Grammar.followClosed_has hs.inRange.symbols fun _ _ ha => ha
  exact ⟨hs.first_size, hs.follow_size, hs.first _ hfirst, hs.follow _ _ hfirst hfollow⟩

namespace InRange
variable (hs : s.InRange g)
include hs

theorem withTable {t : Table} (ht : t.InRange s.grammar) : ({ s with table := t } : Session).InRange g :=
  { hs with table := ht }

theorem exists_fillTable : ∃ t, s.step .fillTable = .ok t ∧ t.InRange g := by
  obtain ⟨u, hu, hrange⟩ := Grammar.exists_table? hs.inRange.symbols hs.sets_inRange
  exact ⟨_, by rw [step, hu]; rfl, hs.withTable hrange⟩

theorem exists_fillTableStrictly : (∃ t, s.step .fillTableStrictly = .ok t ∧ t.InRange g) ∨
    ∃ r, s.step .fillTableStrictly = .error (.conflict r) := by
  rcases Grammar.exists_strictTable? hs.inRange.symbols hs.sets_inRange with ⟨u, hu, hrange⟩ | ⟨c, r, hc, hr⟩
  · exact Or.inl ⟨_, by rw [step, fillStrictly, hu], hs.withTable hrange⟩
  · refine Or.inr ⟨r, ?_⟩
    rw [step, fillStrictly, hc]
    simp [hr, orOutOfRange, Except.bind]

theorem exists_step {c : Step} (hc : c.Stays g) : (∃ t, s.step c = .ok t ∧ t.InRange g) ∨
    c = .fillTableStrictly ∧ ∃ r, s.step c = .error (.conflict r) := by
  rcases hc with hc | rfl | rfl
  · obtain ⟨t, ht, hsound⟩ := hs.toSound.exists_step hc
    refine Or.inl ⟨t, ht, hsound, ?_⟩
    obtain ⟨htable, e | ⟨i, p, hadd⟩⟩ := hc.kept ht
    · rw [htable, e]
      exact hs.table
    · rw [htable]
      exact fun d hd => (hs.table d hd).addProduction? hadd
  · exact Or.inl hs.exists_fillTable
  · exact hs.exists_fillTableStrictly.imp_right fun h => ⟨rfl, h⟩

end InRange

theorem inRange_run (hg : g.InRange) {steps : List Step} (hsteps : ∀ c ∈ steps, c.Stays g) :
    ((ofGrammar g).run steps).InRange g := by
  refine run_induction steps ⟨sound_ofGrammar hg, fun _ hc => absurd hc List.not_mem_nil⟩ ?_
  intro s c t hc hs ht
  rcases hs.exists_step (hsteps c hc) with ⟨t', ht', hrange⟩ | ⟨_, r, hr⟩
  · rw [ht, Except.ok.injEq] at ht'
    exact ht' ▸ hrange
  · rw [ht] at hr
    cases hr

/-- Whatever is computed or shown next has a result. Only a strict fill may fail, on a conflict that is told. Where
wide columns are refused, a view has its text as long as no column is wider than the limit. -/
structure Answers (g : Grammar) (s : Session) : Prop where
  step : ∀ c : Step, c.Stays g → (∃ t, s.step c = .ok t) ∨
    c = .fillTableStrictly ∧ ∃ r, s.step c = .error (.conflict r)
  nullable : ∃ flags, s.grammar.nullable? = some flags ∧ flags.length = s.grammar.size
  grid : ∃ d, s.table.grid? s.grammar = some d ∧ d.plain? = some d.plain
  text : ∀ (v : View) (f : Format), ∃ text, v.text? f s.grammar s.sets s.table = some text
  fitted : ∀ (v : View) (f : Format), v.Fits s.grammar s.table →
    ∃ text, v.text? f s.grammar s.sets s.table = some text ∧
      v.textBy? padLeft? f s.grammar s.sets s.table = some text

theorem InRange.answers (hs : s.InRange g) : s.Answers g where
  step _ hc := (hs.exists_step hc).imp_left fun ⟨t, ht, _⟩ => ⟨t, ht⟩
  nullable := by
    obtain ⟨flags, hflags, hlength, _⟩ := Grammar.exists_nullable? hs.inRange.bodies
    exact ⟨flags, hflags, hlength⟩
  grid := by
    obtain ⟨d, hd, hrectangular⟩ := Table.exists_grid? hs.table hs.inRange.symbols
    exact ⟨d, hd, hrectangular.plain?_eq⟩
  text := View.exists_text? hs.inRange hs.sets_inRange hs.table
  fitted v f hv := by
    obtain ⟨text, htext⟩ := View.exists_text? hs.inRange hs.sets_inRange hs.table v f
    have hsame := View.textBy?_padLeft? (a := s.sets) hs.table hs.inRange.symbols hv f
    exact ⟨text, htext, hsame.trans htext⟩

/-- However productions are added to a grammar that was read, sets solved, in part
or in full, and tables filled, no lookup meets a number that is out of range. -/
theorem answers_run {t : GrammarText} {g : Grammar} (h : t.read = .ok g) {steps : List Step}
    (hsteps : ∀ c ∈ steps, c.Stays g) : ((ofGrammar g).run steps).Answers g :=
  (inRange_run (GrammarText.wellFormed_of_read h).toInRange hsteps).answers

/-- `F` gets a second production that opens with a bracket, with the two marks in it. -/
def bracketSteps : List Step :=
  [.solveFirst (some 1), .addProduction 4 [.epsilon, .terminal 2, .endOfInput], .solveFollow none, .fillTable]

theorem answers_run_expression :
    ((ofGrammar expressionText.grammar).run bracketSteps).Answers expressionText.grammar ∧
    (∀ v : View, v.Fits ((ofGrammar expressionText.grammar).run bracketSteps).grammar
      ((ofGrammar expressionText.grammar).run bracketSteps).table) ∧
    ((ofGrammar expressionText.grammar).run bracketSteps).step .fillTableStrictly =
      .error (.conflict ⟨"F", "(", "F → ( E )", "F → ε ( $"⟩) := by
  have hsteps : ∀ c ∈ bracketSteps, c.Stays expressionText.grammar := by decide +kernel
  have hfits : ∀ v : View, v.Fits ((ofGrammar expressionText.grammar).run bracketSteps).grammar
      ((ofGrammar expressionText.grammar).run bracketSteps).table := by
    intro v
    cases v <;> decide +kernel
  exact ⟨answers_run Grammar.read_expressionText hsteps, hfits, by decide +kernel⟩

end Session

end Predictive
