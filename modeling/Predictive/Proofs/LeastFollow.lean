import Mathlib.Order.Bounds.Basic
import Predictive.Proofs.Staleness

/-!
# FOLLOW as the least solution

The equations of FOLLOW speak of the productions and of what the given FIRST sets
say of the rest after an occurrence. They can be read over any FIRST sets: these
need not be a solution themselves. The families that solve them are those whose
relation is `FollowClosed`, so the passes reach the least one, and FOLLOW grows
with the FIRST sets that it is solved over.
-/

namespace Predictive.Grammar

/-- The sets of `follow` satisfy the equations of FOLLOW over `first`. -/
structure SolvesFollow (g : Grammar) (first follow : SetFamily) : Prop where
  size : follow.size = g.size
  start : ∃ s, follow.get? g.start = some s ∧ .endOfInput ∈ s
  rest : ∀ A k α B ρ, g.production? A k = some (α ++ .nonTerminal B :: ρ) →
    ∃ ahead s t, first.firstOfSequence? ρ = some ahead ∧ follow.get? A = some s ∧ follow.get? B = some t ∧
      ahead.erase .epsilon ⊆ t ∧ (.epsilon ∈ ahead → s ⊆ t)

theorem mem_occurrences_iff {g : Grammar} {A B : Nat} {ρ : Production} :
    ⟨A, B, ρ⟩ ∈ g.occurrences ↔ ∃ k α, g.production? A k = some (α ++ .nonTerminal B :: ρ) := by
  rw [mem_occurrences]
  constructor
  · rintro ⟨r, hr, rfl, α, hright⟩
    exact ⟨r.index, α, hright ▸ mem_rules.mp hr⟩
  · rintro ⟨k, α, hp⟩
    exact ⟨⟨A, k, _⟩, mem_rules.mpr hp, rfl, α, rfl⟩

section
variable {g : Grammar} (hg : g.BodiesInRange) {first : SetFamily} (hfirst : first.size = g.size)
include hg hfirst

theorem exists_ahead {o : Occurrence} (ho : o ∈ g.occurrences) :
    ∃ ahead, first.firstOfSequence? o.rest = some ahead ∧ ∀ a, a ∈ ahead ↔ Opens first.Holds o.rest a := by
  obtain ⟨_, _, hrest⟩ := occurrence_in_range hg ho
  exact first.exists_firstOfSequence? (hfirst ▸ hrest)

theorem SolvesFollow.closed {follow : SetFamily} (h : g.SolvesFollow first follow) :
    g.FollowClosed first.Holds follow.Holds where
  start := h.start
  opening o ho a ha hne := by
    obtain ⟨k, α, hp⟩ := mem_occurrences_iff.mp ho
    obtain ⟨ahead, hahead, hmem⟩ := exists_ahead hg hfirst ho
    obtain ⟨_, _, t, e, _, ht, hopening, _⟩ := h.rest _ _ _ _ _ hp
    cases hahead.symm.trans e
    exact ⟨t, ht, hopening a (SymbolSet.mem_erase.mpr ⟨(hmem a).mpr ha, hne⟩)⟩
  inherited o ho hε a ha := by
    obtain ⟨k, α, hp⟩ := mem_occurrences_iff.mp ho
    obtain ⟨ahead, hahead, hmem⟩ := exists_ahead hg hfirst ho
    obtain ⟨_, s, t, e, hs, ht, _, hinherited⟩ := h.rest _ _ _ _ _ hp
    cases hahead.symm.trans e
    exact ⟨t, ht, hinherited ((hmem _).mpr hε) a ((SetFamily.holds_iff hs).mp ha)⟩

theorem IsFollow.solvesFollow {follow : SetFamily} (h : g.IsFollow first follow) : g.SolvesFollow first follow where
  size := h.size
  start := h.closed.start
  rest A k α B ρ hp := by
    have ho : ⟨A, B, ρ⟩ ∈ g.occurrences := mem_occurrences_iff.mpr ⟨k, α, hp⟩
    obtain ⟨hA, hB, _⟩ := occurrence_in_range hg ho
    obtain ⟨ahead, hahead, hmem⟩ := exists_ahead hg hfirst ho
    obtain ⟨s, hs⟩ := SetFamily.exists_get? (f := follow) (h.size.symm ▸ hA)
    obtain ⟨t, ht⟩ := SetFamily.exists_get? (f := follow) (h.size.symm ▸ hB)
    refine ⟨ahead, s, t, hahead, hs, ht, fun a ha => ?_, fun hε a ha => ?_⟩
    · obtain ⟨hin, hne⟩ := SymbolSet.mem_erase.mp ha
      exact (SetFamily.holds_iff ht).mp (h.closed.opening _ ho a ((hmem a).mp hin) hne)
    · exact (SetFamily.holds_iff ht).mp (h.closed.inherited _ ho ((hmem _).mp hε) a ⟨s, hs, ha⟩)

theorem IsFollow.isLeast {follow : SetFamily} (h : g.IsFollow first follow) :
    IsLeast {f | g.SolvesFollow first f} follow := by
  refine ⟨h.solvesFollow hg hfirst, fun f hf => SetFamily.le_iff_holds.mpr ⟨h.size.trans hf.size.symm, ?_⟩⟩
  exact h.least _ (SolvesFollow.closed hg hfirst hf)

end

theorem IsFollow.le {g : Grammar} {first first' follow follow' : SetFamily} (h : g.IsFollow first follow)
    (h' : g.IsFollow first' follow') (hle : first ≤ first') : follow ≤ follow' := by
  obtain ⟨_, hholds⟩ := SetFamily.le_iff_holds.mp hle
  exact SetFamily.le_iff_holds.mpr ⟨h.size.trans h'.size.symm, h.least _ (h'.closed.of_le hholds)⟩

/-- Over any FIRST sets, one for each nonterminal, FOLLOW is the least solution of
its equations, and it grows with the FIRST sets. -/
theorem follow_isLeast {g : Grammar} (hg : g.BodiesInRange) (hstart : g.start < g.size) :
    (∀ first : SetFamily, first.size = g.size →
      ∃ follow, g.follow? first = some follow ∧ IsLeast {f | g.SolvesFollow first f} follow) ∧
    ∀ first first' : SetFamily, first'.size = g.size → first ≤ first' →
      ∃ follow follow', g.follow? first = some follow ∧ g.follow? first' = some follow' ∧ follow ≤ follow' := by
  refine ⟨fun first hfirst => ?_, fun first first' hfirst' hle => ?_⟩
  · obtain ⟨follow, hfollow, hP⟩ := exists_follow? hg hfirst hstart
    exact ⟨follow, hfollow, hP.isLeast hg hfirst⟩
  · obtain ⟨follow, hfollow, hP⟩ := exists_follow? hg (hle.1.trans hfirst') hstart
    obtain ⟨follow', hfollow', hP'⟩ := exists_follow? hg hfirst' hstart
    exact ⟨follow, follow', hfollow, hfollow', hP.le hP' hle⟩

def pairGrammar : Grammar :=
  .ofLists [("S", [[.nonTerminal 1, .nonTerminal 2]]), ("A", [[.terminal 0]]), ("B", [[.terminal 1], []])]
    ["a", "b"] 0

def partialFirst : SetFamily := ⟨[∅, ∅, .insert (.singleton .epsilon) (.terminal 1)]⟩

theorem follow_isLeast_pair : pairGrammar.BodiesInRange ∧ pairGrammar.start < pairGrammar.size ∧
    ∃ follow follow', pairGrammar.follow? (.empty 3) = some follow ∧ pairGrammar.follow? partialFirst = some follow' ∧
      IsLeast {f | pairGrammar.SolvesFollow (.empty 3) f} follow ∧
      IsLeast {f | pairGrammar.SolvesFollow partialFirst f} follow' ∧ follow ≤ follow' ∧ follow ≠ follow' := by
  have hg : pairGrammar.InRange := ⟨by decide, by decide⟩
  have hne : pairGrammar.follow? (.empty 3) ≠ pairGrammar.follow? partialFirst := by decide +kernel
  obtain ⟨hleast, hmono⟩ := follow_isLeast hg.bodies hg.start
  obtain ⟨follow, follow', hfollow, hfollow', hle⟩ := hmono (.empty 3) partialFirst rfl (by decide)
  obtain ⟨_, e, hleast₁⟩ := hleast (.empty 3) rfl
  obtain ⟨_, e', hleast₂⟩ := hleast partialFirst rfl
  cases hfollow.symm.trans e
  cases hfollow'.symm.trans e'
  rw [hfollow, hfollow', Ne, Option.some.injEq] at hne
  exact ⟨hg.bodies, hg.start, follow, follow', hfollow, hfollow', hleast₁, hleast₂, hle, hne⟩

end Predictive.Grammar
