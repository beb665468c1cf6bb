import Predictive.Analysis.Follow
import Predictive.Proofs.First

/-!
# FOLLOW by passes

Over any FIRST sets, one for every nonterminal, the FOLLOW sets are the least
relation that has the end of input at the start, what can open the rest after an
occurrence, and what is inherited over a rest that can vanish.
-/

namespace Predictive

theorem Production.mem_occurrences {left : Nat} {o : Occurrence} : ∀ {p : Production},
    o ∈ Production.occurrences left p ↔ o.left = left ∧ ∃ u, p = u ++ .nonTerminal o.nonTerminal :: o.rest
  | [] => by simp [Production.occurrences]
  | .terminal _ :: p | .epsilon :: p | .endOfInput :: p => by
    simp only [Production.occurrences, mem_occurrences (p := p), List.cons_eq_append_iff]
    simp
  | .nonTerminal i :: p => by
    obtain ⟨left', i', rest⟩ := o
    simp only [Production.occurrences, List.mem_cons, mem_occurrences (p := p), List.cons_eq_append_iff]
    grind

namespace Grammar

theorem mem_occurrences {g : Grammar} {o : Occurrence} :
    o ∈ g.occurrences ↔ ∃ r ∈ g.rules, r.left = o.left ∧ ∃ u, r.right = u ++ .nonTerminal o.nonTerminal :: o.rest := by
  unfold occurrences
  rw [List.mem_flatMap]
  refine exists_congr fun r => and_congr_right fun _ => ?_
  rw [Production.mem_occurrences, eq_comm]

structure FollowClosed (g : Grammar) (F P : Facts) : Prop where
  start : P g.start .endOfInput
  opening : ∀ o ∈ g.occurrences, ∀ a, Opens F o.rest a → a ≠ .epsilon → P o.nonTerminal a
  inherited : ∀ o ∈ g.occurrences, Opens F o.rest .epsilon → P o.left ≤ P o.nonTerminal

theorem followClosed_has {g : Grammar} (hsymbols : ∀ r ∈ g.rules, ∀ s ∈ r.right, g.Has s) {F : Facts}
    (hF : ∀ i a, F i a → g.Has a) : g.FollowClosed F fun _ a => g.Has a where
  start := trivial
  opening o ho a ha _ := by
    obtain ⟨r, hr, _, u, hright⟩ := mem_occurrences.mp ho
    refine ha.has (fun s hs => hsymbols r hr s ?_) hF
    simp [hright, hs]
  inherited _ _ _ _ ha := ha

structure IsFollow (g : Grammar) (first follow : SetFamily) : Prop where
  size : follow.size = g.size
  closed : g.FollowClosed first.Holds follow.Holds
  least : ∀ P, g.FollowClosed first.Holds P → follow.Holds ≤ P

theorem IsFollow.has {g : Grammar} {first follow : SetFamily} (h : g.IsFollow first follow)
    (hsymbols : ∀ r ∈ g.rules, ∀ s ∈ r.right, g.Has s) (hfirst : ∀ i a, first.Holds i a → g.Has a) {i : Nat}
    {a : Symbol} (ha : follow.Holds i a) : g.Has a :=
  h.least _ (followClosed_has hsymbols hfirst) i a ha

def followAdds (F : Facts) (o : Occurrence) (P : Facts) : Facts := fun i a =>
  i = o.nonTerminal ∧ (Opens F o.rest a ∧ a ≠ .epsilon ∨ Opens F o.rest .epsilon ∧ P o.left a)

theorem monotone_followAdds (F : Facts) (o : Occurrence) : Monotone (followAdds F o) :=
  fun _ _ hPQ _ a => And.imp_right (Or.imp_right (And.imp_right (hPQ _ a)))

theorem followClosed_iff {g : Grammar} {F P : Facts} :
    g.FollowClosed F P ↔ P g.start .endOfInput ∧ Closed g.occurrences (followAdds F) P := by
  constructor
  · intro h
    refine ⟨h.start, fun o ho i a ha => ?_⟩
    obtain ⟨rfl, ⟨ha, hne⟩ | ⟨hε, ha⟩⟩ := ha
    · exact h.opening o ho a ha hne
    · exact h.inherited o ho hε a ha
  · intro ⟨hstart, h⟩
    exact ⟨hstart, fun o ho a ha hne => h o ho _ a ⟨rfl, Or.inl ⟨ha, hne⟩⟩,
      fun o ho hε a ha => h o ho _ a ⟨rfl, Or.inr ⟨hε, ha⟩⟩⟩

/-- FOLLOW sets have room for the members of FIRST sets, the symbols of right sides and the end of input. -/
def followSymbols (g : Grammar) (first : SetFamily) : List Symbol :=
  first.sets.flatMap SymbolSet.toList ++ g.rules.flatMap Rule.right ++ [.endOfInput]

theorem followClosed_symbols (g : Grammar) (first : SetFamily) :
    g.FollowClosed first.Holds fun _ a => a ∈ g.followSymbols first where
  start := List.mem_append_right _ List.mem_cons_self
  opening o ho a ha hne := by
    obtain ⟨r, hr, _, u, hright⟩ := mem_occurrences.mp ho
    refine List.mem_append_left _ (List.mem_append.mpr ?_)
    rcases ha.mem_or with e | ha | ⟨i, s, hs, ha⟩
    · exact absurd e hne
    · have : a ∈ r.right := hright ▸ List.mem_append_right u (List.mem_cons_of_mem _ ha)
      exact Or.inr (List.mem_flatMap.mpr ⟨r, hr, this⟩)
    · exact Or.inl (List.mem_flatMap.mpr ⟨s, List.mem_of_getElem? hs, ha⟩)
  inherited _ _ _ _ ha := ha

theorem exists_followStart? {g : Grammar} (hstart : g.start < g.size) :
    ∃ f, g.followStart? = some f ∧ f.size = g.size ∧ f.Holds g.start .endOfInput ∧
      ∀ P : Facts, P g.start .endOfInput → f.Holds ≤ P := by
  obtain ⟨f, hf, hsize, hholds⟩ := (SetFamily.empty g.size).exists_extend? (i := g.start)
    (.singleton .endOfInput) (by rw [SetFamily.size_empty]; exact hstart)
  refine ⟨f, hf, hsize.trans (SetFamily.size_empty _), ?_, fun P hP i a ha => ?_⟩
  · exact (hholds _ _).mpr (Or.inr ⟨rfl, SymbolSet.mem_singleton.mpr rfl⟩)
  · rcases (hholds i a).mp ha with hb | ⟨rfl, hb⟩
    · exact absurd hb (SetFamily.not_holds_empty _ i a)
    · rw [SymbolSet.mem_singleton.mp hb]
      exact hP

theorem holds_followStep? {first f f' : SetFamily} {o : Occurrence} (h : followStep? first f o = some f') :
    f'.size = f.size ∧ ∀ i a, f'.Holds i a ↔ f.Holds i a ∨ followAdds first.Holds o f.Holds i a := by
  obtain ⟨ahead, hahead, h⟩ := Option.bind_eq_some_iff.mp h
  obtain ⟨f₁, hf₁, h⟩ := Option.bind_eq_some_iff.mp h
  unfold followAdds
  simp only [← SetFamily.mem_firstOfSequence? hahead]
  split at h
  · obtain ⟨t, ht, h⟩ := Option.bind_eq_some_iff.mp h
    refine ⟨(SetFamily.size_of_extend? h).trans (SetFamily.size_of_extend? hf₁), fun i a => ?_⟩
    rw [SetFamily.holds_extend? h, ← SetFamily.holds_iff ht, SetFamily.holds_extend? hf₁, SetFamily.holds_extend? hf₁,
      SymbolSet.mem_erase]
    tauto
  · cases h
    refine ⟨SetFamily.size_of_extend? hf₁, fun i a => ?_⟩
    rw [SetFamily.holds_extend? hf₁, SymbolSet.mem_erase]
    tauto

section
variable {g : Grammar} (hg : g.BodiesInRange)
include hg

theorem occurrence_in_range {o : Occurrence} (ho : o ∈ g.occurrences) :
    o.left < g.size ∧ o.nonTerminal < g.size ∧ Production.Within g.size o.rest := by
  obtain ⟨r, hr, hleft, u, hright⟩ := mem_occurrences.mp ho
  have hmem : ∀ s ∈ .nonTerminal o.nonTerminal :: o.rest, s ∈ r.right := by
    intro s hs
    rw [hright]
    exact List.mem_append_right u hs
  exact ⟨hleft ▸ left_lt_size hr, hg r hr _ (hmem _ List.mem_cons_self),
    fun i hi => hg r hr i (hmem _ (List.mem_cons_of_mem _ hi))⟩

variable {first : SetFamily} (hfirst : first.size = g.size)
include hfirst

theorem followGrowth : Growth g.occurrences (followStep? first) (followAdds first.Holds) g.size where
  mono o _ := monotone_followAdds _ o
  exists_step o ho f hf := by
    obtain ⟨hleft, hnt, hrest⟩ := occurrence_in_range hg ho
    obtain ⟨ahead, hahead, _⟩ := first.exists_firstOfSequence? (hfirst ▸ hrest)
    obtain ⟨f₁, hf₁, hsize₁, _⟩ := f.exists_extend? (ahead.erase .epsilon) (hf ▸ hnt)
    have hstep : ∃ f', followStep? first f o = some f' := by
      unfold followStep?
      rw [hahead, Option.bind_some, hf₁, Option.bind_some]
      split
      · obtain ⟨t, ht⟩ := SetFamily.exists_get? (f := f₁) (i := o.left) (by omega)
        obtain ⟨f₂, hf₂, _⟩ := f₁.exists_extend? (i := o.nonTerminal) t (by omega)
        exact ⟨f₂, by rw [ht]; exact hf₂⟩
      · exact ⟨f₁, rfl⟩
    obtain ⟨f', hf'⟩ := hstep
    obtain ⟨hsize, hholds⟩ := holds_followStep? hf'
    exact ⟨f', hf', hsize.trans hf, hholds⟩

theorem exists_follow? (hstart : g.start < g.size) :
    ∃ follow, g.follow? first = some follow ∧ g.IsFollow first follow := by
  obtain ⟨f, hf, hsize, hmem, hleast⟩ := exists_followStart? hstart
  have hsymbols := followClosed_symbols g first
  obtain ⟨states, last, hstates, hlast, hsat⟩ := (followGrowth hg hfirst).exists_saturated
    (followClosed_iff.mp hsymbols).2 (g.size * (first.weight + g.bodySize + 1) + 1) f hsize
    (hleast _ hsymbols.start) (by
      rw [followSymbols, List.length_append, List.length_append]
      exact Nat.lt_of_lt_of_le (Nat.lt_succ_self _) (Nat.le_add_left _ _))
  refine ⟨last, ?_, hsat.size.trans hsize, followClosed_iff.mpr ⟨hsat.above _ _ hmem, hsat.closed⟩, ?_⟩
  · have hpasses : g.followPasses? first = some states := by
      unfold followPasses?
      rw [hf]
      exact hstates
    simp [follow?, hpasses, hlast]
  · intro P hP
    exact hsat.least P (followClosed_iff.mp hP).2 (hleast P hP.start)

end

theorem exists_analysis? {g : Grammar} (hg : g.BodiesInRange) (hstart : g.start < g.size) :
    ∃ a, g.analysis? = some a ∧ g.IsFirst a.first ∧ g.IsFollow a.first a.follow := by
  obtain ⟨first, hfirst, hF⟩ := exists_first? hg
  obtain ⟨follow, hfollow, hP⟩ := exists_follow? hg hF.size hstart
  refine ⟨⟨first, follow⟩, ?_, hF, hP⟩
  unfold analysis?
  rw [hfirst, Option.bind_some, hfollow]
  rfl

end Grammar

end Predictive
