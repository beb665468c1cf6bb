import Predictive.Proofs.Lookaheads
import Predictive.Proofs.Ranges

/-!
# Tables built from a grammar's own sets

The solvers of a grammar hand over sets after every pass, and FOLLOW can be
solved over any of the FIRST sets. A table filled from such sets, solved or not,
has all its cells in rows and columns of the grammar, and only vanishing cells
are of the empty production.
-/

namespace Predictive

namespace Grammar

/-- FIRST sets before or after any pass. -/
def FirstSnapshot (g : Grammar) (first : SetFamily) : Prop :=
  ∃ families, g.firstPasses? = some families ∧ first ∈ SetFamily.empty g.size :: families

/-- FOLLOW sets before or after any pass over any such FIRST sets. -/
def FollowSnapshot (g : Grammar) (follow : SetFamily) : Prop :=
  ∃ first families, g.FirstSnapshot first ∧ g.followPasses? first = some families ∧
    follow ∈ SetFamily.empty g.size :: families

structure Snapshot (g : Grammar) (a : Analysis) : Prop where
  first : g.FirstSnapshot a.first
  follow : g.FollowSnapshot a.follow

/-- The table is filled from such sets, plainly or strictly. -/
def Builds (g : Grammar) (t : Table) : Prop :=
  ∃ a, g.Snapshot a ∧ (g.table? a = some t ∨ g.strictTable? a = some (.ok t))

/-- What the solvers end with is one of the snapshots. -/
theorem snapshot_of_analysis? {g : Grammar} {a : Analysis} (h : g.analysis? = some a) : g.Snapshot a := by
  obtain ⟨first, hfirst, h⟩ := Option.bind_eq_some_iff.mp h
  obtain ⟨follow, hfollow, rfl⟩ := Option.map_eq_some_iff.mp h
  obtain ⟨families, hfamilies, rfl⟩ := Option.map_eq_some_iff.mp hfirst
  obtain ⟨families', hfamilies', rfl⟩ := Option.map_eq_some_iff.mp hfollow
  have hsnapshot : g.FirstSnapshot (families.getLastD (.empty g.size)) :=
    ⟨families, hfamilies, List.getLastD_mem_cons⟩
  exact ⟨hsnapshot, _, families', hsnapshot, hfamilies', List.getLastD_mem_cons⟩

theorem exists_builds {g : Grammar} {α : Type} {f : Table → α} {x : α}
    (h : (g.analysis?.bind g.table?).map f = some x) : ∃ table, g.Builds table ∧ f table = x := by
  obtain ⟨table, htable, hx⟩ := Option.map_eq_some_iff.mp h
  obtain ⟨a, ha, htable⟩ := Option.bind_eq_some_iff.mp htable
  exact ⟨table, ⟨a, snapshot_of_analysis? ha, Or.inl htable⟩, hx⟩

section
variable {g : Grammar} {first follow : SetFamily}

theorem FirstSnapshot.below (h : g.FirstSnapshot first) (hg : g.BodiesInRange) :
    first.size = g.size ∧ ∀ P, g.FirstClosed P → first.Holds ≤ P := by
  obtain ⟨families, hfamilies, hmem⟩ := h
  obtain ⟨families', hfamilies', hbelow⟩ := exists_firstPasses? hg
  rw [hfamilies, Option.some.injEq] at hfamilies'
  subst hfamilies'
  rcases List.mem_cons.mp hmem with rfl | hmem
  · exact ⟨SetFamily.size_empty _, fun P _ => SetFamily.holds_empty_le _ P⟩
  · exact hbelow first hmem

theorem FirstSnapshot.only (h : g.FirstSnapshot first) : first.Only fun a => a.kind ≠ .nonTerminal := by
  obtain ⟨families, hfamilies, hmem⟩ := h
  rcases List.mem_cons.mp hmem with rfl | hmem
  · exact SetFamily.only_empty _
  · exact only_firstPasses? hfamilies first hmem

theorem FollowSnapshot.below (h : g.FollowSnapshot follow) (hg : g.InRange) :
    follow.size = g.size ∧ ∀ F P, g.FirstClosed F → g.FollowClosed F P → follow.Holds ≤ P := by
  obtain ⟨first, families, hfirst, hfamilies, hmem⟩ := h
  obtain ⟨hsize, hleast⟩ := hfirst.below hg.bodies
  obtain ⟨families', hfamilies', hbelow⟩ := exists_followPasses? hg.bodies hg.start hsize
  rw [hfamilies, Option.some.injEq] at hfamilies'
  subst hfamilies'
  rcases List.mem_cons.mp hmem with rfl | hmem
  · exact ⟨SetFamily.size_empty _, fun _ P _ _ => SetFamily.holds_empty_le _ P⟩
  · obtain ⟨hsize', hfollow⟩ := hbelow follow hmem
    exact ⟨hsize', fun F P hF hP => hfollow P (hP.of_le (hleast F hF))⟩

theorem FollowSnapshot.only (h : g.FollowSnapshot follow) : follow.Only fun a => a.isLookahead = true := by
  obtain ⟨first, families, hfirst, hfamilies, hmem⟩ := h
  rcases List.mem_cons.mp hmem with rfl | hmem
  · exact SetFamily.only_empty _
  · exact only_followPasses? hfirst.only hfamilies follow hmem

theorem Snapshot.inRange {a : Analysis} (h : g.Snapshot a) (hg : g.InRange) : a.InRange g := by
  obtain ⟨hsize, hfirst⟩ := h.first.below hg.bodies
  obtain ⟨hsize', hfollow⟩ := h.follow.below hg
  have hF := firstClosed_has hg.symbols
  have hP := followClosed_has hg.symbols fun _ _ ha => ha
  exact ⟨hsize, hsize', hfirst _ hF, hfollow _ _ hF hP⟩

end

end Grammar

/-! ## Cells of built tables -/

/-- The cell is in a row and a column of the grammar, and vanishing if its
production is empty. -/
structure Cell.Fits (g : Grammar) (c : Cell) : Prop extends Cell.InRange g c where
  isLookahead : c.slot.lookahead.isLookahead = true
  vanishing : g.production? c.slot.row c.entry.production = some [] → c.entry.vanishing = true

theorem Rule.Claims.vanishing {r : Rule} {F P : Facts} {c : Cell} (h : r.Claims F P c) (hr : r.right = []) :
    c.entry.vanishing = true := by
  cases h with
  | opening ht h =>
    -- the empty sequence opens with nothing but ε
    rw [hr] at h
    exact absurd h (ne_epsilon_of_isLookahead ht)
  | following => rfl

namespace Grammar
variable {g : Grammar} {t : Table}

theorem Builds.exists_fill (h : g.Builds t) :
    ∃ a claims, g.Snapshot a ∧ g.claims? a = some claims ∧ t = (∅ : Table).fill claims := by
  obtain ⟨a, ha, ht⟩ := h
  have htable : g.table? a = some t := ht.elim id table?_of_strictTable?
  obtain ⟨claims, hclaims, rfl⟩ := Option.map_eq_some_iff.mp htable
  exact ⟨a, claims, ha, hclaims, rfl⟩

theorem Builds.fits (h : g.Builds t) (hg : g.InRange) : ∀ c ∈ t.cells, c.Fits g := by
  obtain ⟨a, claims, ha, hclaims, rfl⟩ := h.exists_fill
  have hrange := ha.inRange hg
  obtain ⟨claims', hclaims', hmem, _⟩ := exists_claims? hg.bodies hrange.first_size hrange.follow_size
  rw [hclaims, Option.some.injEq] at hclaims'
  subst hclaims'
  apply Table.forall_cells_fill
  intro c hc
  obtain ⟨r, hr, hrc⟩ := (hmem c).mp hc
  refine ⟨hrc.inRange hg.symbols hr hrange.first_has hrange.follow_has,
    isLookahead_of_claims? ha.follow.only hclaims c hc, fun hempty => hrc.vanishing ?_⟩
  rw [hrc.row, hrc.production, mem_rules.mp hr, Option.some.injEq] at hempty
  exact hempty

theorem Builds.inRange (h : g.Builds t) (hg : g.InRange) : t.InRange g := fun c hc => (h.fits hg c hc).toInRange

end Grammar

end Predictive
