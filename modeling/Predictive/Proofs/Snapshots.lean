import Predictive.Proofs.Rounds

/-!
# Snapshots climb to the result

The families that a loop hands over ascend from the one that it starts with.
Every pass but the last gives some set a new member, and the last one changes
nothing. So what is handed over last is the result, which is closed under one
more pass and above everything before it.
-/

namespace Predictive

/-- What a loop from `f` hands over on its way to the result. -/
structure Climbs (pass : SetFamily → Option (Report SetFamily)) (f : SetFamily) (families : List SetFamily)
    (result : SetFamily) : Prop where
  ascending : (f :: families).IsChain (· ≤ ·)
  gaining : (f :: families).dropLast.IsChain SetFamily.Gains
  unchanged : (f :: families).dropLast.getLast? = some result
  last : families.getLast? = some result
  below : ∀ g ∈ families, g ≤ result
  still : pass result = some ⟨result, false⟩

theorem SetFamily.self_le (f : SetFamily) : f ≤ f := le_iff_holds.mpr ⟨rfl, fun _ _ ha => ha⟩

theorem Growth.climbs {ι : Type} {items : List ι} {step : SetFamily → ι → Option SetFamily}
    {adds : ι → Facts → Facts} {n : Nat} {symbols : List Symbol} {reported : SetFamily → Option (Report SetFamily)}
    (h : Growth items step adds n)
    (hreporting : Reporting (SetFamily.Fits n symbols) SetFamily.weight reported fun f => items.foldlM step f)
    {f result : SetFamily} {families : List SetFamily} (hloop : Loop reported f families result)
    (hf : f.Fits n symbols) : Climbs reported f families result := by
  induction hloop with
  | @stop f g hg =>
    obtain ⟨rfl, _⟩ := (hreporting.tells f hf).of_unchanged hg
    exact ⟨.cons_cons g.self_le (.singleton g), .singleton g, rfl, rfl, by simp [g.self_le], hg⟩
  | @again f g result families hg hloop ih =>
    obtain ⟨hfits, hgrown⟩ := h.grown_of_report hreporting hf hg
    obtain ⟨hne, _⟩ := (hreporting.tells f hf).of_changed hg
    have hrest := ih hfits
    have hsize : g.size = result.size := hfits.size.trans (hreporting.kept_of_loop hfits hloop).size.symm
    have hle : g ≤ result := SetFamily.le_iff_holds.mpr ⟨hsize, h.above_of_loop hreporting hloop hfits⟩
    -- the loop makes one more pass, so `g` is not the last family
    obtain ⟨later, families, rfl⟩ := List.exists_cons_of_length_pos hloop.length_pos
    exact ⟨.cons_cons hgrown.le hrest.ascending, .cons_cons (SetFamily.gains_of_le_of_ne hgrown.le hne) hrest.gaining,
      hrest.unchanged, hrest.last, List.forall_mem_cons.mpr ⟨hle, hrest.below⟩, hrest.still⟩

namespace Grammar

/-- In FIRST from empty sets, and in FOLLOW over any FIRST sets from the end of
input at the start, the families of the passes climb to the result. -/
theorem passes_climb {g : Grammar} (hg : g.BodiesInRange) (hstart : g.start < g.size) :
    (∃ families first, Loop g.reportedFirstPass? (.empty g.size) families first ∧
      g.firstPasses? = some families ∧ g.first? = some first ∧
      Climbs g.reportedFirstPass? (.empty g.size) families first) ∧
    ∀ first : SetFamily, first.size = g.size → ∃ f families follow, g.followStart? = some f ∧
      (∀ i a, f.Holds i a ↔ i = g.start ∧ a = .endOfInput) ∧
      Loop (g.reportedFollowPass? first) f families follow ∧
      g.followPasses? first = some families ∧ g.follow? first = some follow ∧
      Climbs (g.reportedFollowPass? first) f families follow := by
  constructor
  · obtain ⟨families, first, hloop, _, hpasses, hresult⟩ := exists_firstLoop hg
    have hempty : (SetFamily.empty g.size).Fits g.size g.firstSymbols :=
      ⟨SetFamily.size_empty _, SetFamily.holds_empty_le _ _⟩
    exact ⟨families, first, hloop, hpasses, hresult, (firstGrowth hg).climbs (reporting_firstPass hg) hloop hempty⟩
  · intro first hfirst
    obtain ⟨f, families, follow, hf, hfits, hholds, hloop, _, hpasses, hresult⟩ := exists_followLoop hg hfirst hstart
    exact ⟨f, families, follow, hf, hholds, hloop, hpasses, hresult,
      (followGrowth hg hfirst).climbs (reporting_followPass hg hfirst) hloop hfits⟩

/-- Empty FIRST sets are no solution for `tailGrammar`, and FOLLOW is solved over them all the same. -/
theorem passes_climb_tail : tailGrammar.BodiesInRange ∧ tailGrammar.start < tailGrammar.size ∧
    (∃ families first, tailGrammar.firstPasses? = some families ∧ families.length = 3 ∧
      Climbs tailGrammar.reportedFirstPass? (.empty 1) families first) ∧
    ∃ f families follow, tailGrammar.followPasses? (.empty 1) = some families ∧ families.length = 2 ∧
      Climbs (tailGrammar.reportedFollowPass? (.empty 1)) f families follow := by
  have hg := inRange_tailGrammar
  obtain ⟨⟨families, first, _, hpasses, _, hclimbs⟩, hfollow⟩ := passes_climb hg.bodies hg.start
  obtain ⟨f, families', follow, _, _, _, hpasses', _, hclimbs'⟩ := hfollow (.empty 1) rfl
  have hlength : tailGrammar.firstPasses?.map List.length = some 3 := by decide
  have hlength' : (tailGrammar.followPasses? (.empty 1)).map List.length = some 2 := by decide
  rw [hpasses, Option.map_some, Option.some.injEq] at hlength
  rw [hpasses', Option.map_some, Option.some.injEq] at hlength'
  exact ⟨hg.bodies, hg.start, ⟨families, first, hpasses, hlength, hclimbs⟩,
    f, families', follow, hpasses', hlength', hclimbs'⟩

end Grammar

end Predictive
