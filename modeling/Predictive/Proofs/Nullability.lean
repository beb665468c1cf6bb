import Predictive.Proofs.First

/-!
# The nonterminals that vanish

The search for the nonterminals that vanish keeps a flag for each of them and
looks at no set. Read as families, with the set of ε for a flag that is set, its
passes grow as those for FIRST do, so it ends with the least flags closed under
the rules. These are the nonterminals with ε in FIRST, and those that derive the
empty string.
-/

namespace Predictive

/-! ## Searches that simulate each other -/

section
variable {σ τ ι : Type} {f : σ → τ} {p : σ → Prop}

theorem exists_foldlM {step : σ → ι → Option σ} {step' : τ → ι → Option τ} {items : List ι}
    (h : ∀ x ∈ items, ∀ s, p s → ∃ t, step s x = some t ∧ p t ∧ step' (f s) x = some (f t)) {s : σ} (hs : p s) :
    ∃ t, items.foldlM step s = some t ∧ p t ∧ items.foldlM step' (f s) = some (f t) := by
  induction items generalizing s with
  | nil => exact ⟨s, rfl, hs, rfl⟩
  | cons x items ih =>
    obtain ⟨t, ht, hinv, ht'⟩ := h x List.mem_cons_self s hs
    obtain ⟨u, hu, hinv', hu'⟩ := ih (fun y hy => h y (List.mem_cons_of_mem x hy)) hinv
    exact ⟨u, by simp [ht, hu], hinv', by simp [ht', hu']⟩

theorem exists_passes [DecidableEq σ] [DecidableEq τ] {pass : σ → Option σ} {pass' : τ → Option τ}
    (hf : Function.Injective f) (h : ∀ s, p s → ∃ t, pass s = some t ∧ p t ∧ pass' (f s) = some (f t)) (bound : Nat)
    {s : σ} (hs : p s) :
    ∃ states, passes pass bound s = some states ∧ passes pass' bound (f s) = some (states.map f) := by
  induction bound generalizing s with
  | zero => exact ⟨[], rfl, rfl⟩
  | succ bound ih =>
    obtain ⟨t, ht, hinv, ht'⟩ := h s hs
    rw [passes_succ ht, passes_succ ht']
    by_cases e : t = s
    · exact ⟨[t], by simp [e], by simp [e]⟩
    · obtain ⟨states, hstates, hstates'⟩ := ih hinv
      refine ⟨t :: states, by simp [e, hstates], ?_⟩
      simp [hf.ne e, hstates']

end

/-! ## Flags as families -/

def flagSets (known : List Bool) : SetFamily := ⟨known.map fun b => if b then .singleton .epsilon else ∅⟩

section
variable {known : List Bool}

theorem flagSets_injective : Function.Injective flagSets := by
  intro l m h
  simp only [flagSets, SetFamily.mk.injEq] at h
  refine List.map_injective_iff.mpr ?_ h
  intro a b
  revert a b
  decide

theorem size_flagSets : (flagSets known).size = known.length := List.length_map ..

theorem holds_flagSets {i : Nat} {a : Symbol} : (flagSets known).Holds i a ↔ known[i]? = some true ∧ a = .epsilon := by
  simp only [SetFamily.Holds, SetFamily.get?, flagSets, List.getElem?_map, Option.map_eq_some_iff]
  constructor
  · rintro ⟨_, ⟨b, hb, rfl⟩, ha⟩
    cases b with
    | false => exact absurd ha (SymbolSet.not_mem_empty a)
    | true => exact ⟨hb, SymbolSet.mem_singleton.mp ha⟩
  · rintro ⟨hi, rfl⟩
    exact ⟨_, ⟨true, hi, rfl⟩, SymbolSet.mem_singleton.mpr rfl⟩

theorem extend?_flagSets {i : Nat} (hi : i < known.length) :
    (flagSets known).extend? i (.singleton .epsilon) = some (flagSets (known.set i true)) := by
  have hunion : ∀ b : Bool, (if b then SymbolSet.singleton .epsilon else ∅) ∪ .singleton .epsilon =
      SymbolSet.singleton .epsilon := by decide
  simp [SetFamily.extend?, SetFamily.get?, flagSets, hi, hunion, List.map_set]

/-! ## What a step finds -/

theorem exists_vanishes? : ∀ {p : Production}, Production.Within known.length p →
    ∃ b, vanishes? known p = some b ∧ (b = true ↔ Opens (flagSets known).Holds p .epsilon)
  | [], _ => ⟨true, rfl, by simp [Opens]⟩
  | .terminal _ :: _, _ => ⟨false, rfl, by simp [Opens]⟩
  | .endOfInput :: _, _ => ⟨false, rfl, by simp [Opens]⟩
  | .epsilon :: p, h => exists_vanishes? (p := p) fun i hi => h i (List.mem_cons_of_mem _ hi)
  | .nonTerminal i :: p, h => by
    obtain ⟨b, hb, hvanish⟩ := exists_vanishes? (p := p) fun j hj => h j (List.mem_cons_of_mem _ hj)
    have hi : i < known.length := h i List.mem_cons_self
    simp only [vanishes?, Opens, holds_flagSets, List.getElem?_eq_getElem hi, Option.bind_some]
    by_cases e : known[i] = true
    · simp [e, hb, hvanish]
    · simp [e]

theorem exists_anyVanishes? {ps : List Production} (h : ∀ p ∈ ps, Production.Within known.length p) :
    ∃ b, anyVanishes? known ps = some b ∧ (b = true ↔ ∃ p ∈ ps, Opens (flagSets known).Holds p .epsilon) := by
  induction ps with
  | nil => exact ⟨false, rfl, by simp⟩
  | cons p ps ih =>
    obtain ⟨b, hb, hp⟩ := exists_vanishes? (h p List.mem_cons_self)
    obtain ⟨c, hc, hps⟩ := ih fun q hq => h q (List.mem_cons_of_mem p hq)
    cases b with
    | true => exact ⟨true, by simp [anyVanishes?, hb], by simp [← hp]⟩
    | false => exact ⟨c, by simp [anyVanishes?, hb, hc], by simp [hps, ← hp]⟩

end

open Classical in
noncomputable def vanishStep (f : SetFamily) (x : NonTerminal) : Option SetFamily :=
  if ∃ p ∈ x.productions, Opens f.Holds p .epsilon then f.extend? x.index (.singleton .epsilon) else some f

def vanishAdds (x : NonTerminal) (P : Facts) : Facts := fun i a =>
  i = x.index ∧ a = .epsilon ∧ ∃ p ∈ x.productions, Opens P p .epsilon

namespace Grammar
variable {g : Grammar}

theorem mem_rules_of_mem_productions {x : NonTerminal} (hx : x ∈ g.nonTerminals) {p : Production}
    (hp : p ∈ x.productions) : ∃ k, ⟨x.index, k, p⟩ ∈ g.rules := by
  obtain ⟨k, hk⟩ := List.getElem?_of_mem hp
  exact ⟨k, mem_rules.mpr (Option.bind_eq_some_iff.mpr ⟨x, nonTerminal?_index hx, hk⟩)⟩

theorem closed_vanishAdds {P : Facts} : Closed g.nonTerminals vanishAdds P ↔
    ∀ r ∈ g.rules, Opens P r.right .epsilon → P r.left .epsilon := by
  constructor
  · intro h r hr hε
    obtain ⟨b, hb, hp⟩ := Option.bind_eq_some_iff.mp (mem_rules.mp hr)
    exact h b (List.mem_of_getElem? hb) r.left .epsilon
      ⟨(index_of_nonTerminal? hb).symm, rfl, r.right, List.mem_of_getElem? hp, hε⟩
  · rintro h x hx _ _ ⟨rfl, rfl, p, hp, hε⟩
    obtain ⟨k, hr⟩ := mem_rules_of_mem_productions hx hp
    exact h _ hr hε

theorem vanishGrowth : Growth g.nonTerminals vanishStep vanishAdds g.size where
  mono x _ P Q hPQ i a := by
    rintro ⟨hi, ha, p, hp, hε⟩
    exact ⟨hi, ha, p, hp, hε.mono hPQ⟩
  exists_step x hx f hf := by
    unfold vanishStep vanishAdds
    by_cases hε : ∃ p ∈ x.productions, Opens f.Holds p .epsilon
    · obtain ⟨f', hf', hsize, hholds⟩ := f.exists_extend? (.singleton .epsilon) (hf ▸ index_lt_size hx)
      refine ⟨f', by rw [if_pos hε, hf'], hsize.trans hf, fun i a => ?_⟩
      rw [hholds, SymbolSet.mem_singleton]
      simp [hε]
    · exact ⟨f, by rw [if_neg hε], hf, fun i a => by simp [hε]⟩

section
variable (hg : g.BodiesInRange)
include hg

theorem exists_nullableStep? {x : NonTerminal} (hx : x ∈ g.nonTerminals) {known : List Bool}
    (hknown : known.length = g.size) :
    ∃ known', nullableStep? known x = some known' ∧ known'.length = g.size ∧
      vanishStep (flagSets known) x = some (flagSets known') := by
  have hi : x.index < known.length := hknown ▸ index_lt_size hx
  have hwithin : ∀ p ∈ x.productions, Production.Within known.length p := by
    intro p hp j hj
    obtain ⟨k, hr⟩ := mem_rules_of_mem_productions hx hp
    exact hknown ▸ hg _ hr j hj
  obtain ⟨b, hb, hany⟩ := exists_anyVanishes? hwithin
  unfold nullableStep? vanishStep
  simp only [hb, ← hany, extend?_flagSets hi, Option.map_some]
  by_cases e : known[x.index]? = some true
  · have hset : known.set x.index true = known := by
      obtain ⟨_, he⟩ := List.getElem?_eq_some_iff.mp e
      rw [← he, List.set_getElem_self]
    exact ⟨known, by rw [if_pos e], hknown, by simp [hset]⟩
  · refine ⟨if b then known.set x.index true else known, by rw [if_neg e], ?_, ?_⟩
    · cases b <;> simp [hknown]
    · cases b <;> simp

theorem exists_nullablePass? {known : List Bool} (hknown : known.length = g.size) :
    ∃ known', g.nullablePass? known = some known' ∧ known'.length = g.size ∧
      g.nonTerminals.foldlM vanishStep (flagSets known) = some (flagSets known') :=
  exists_foldlM (fun _ hx _ hs => exists_nullableStep? hg hx hs) hknown

theorem exists_nullable? : ∃ known, g.nullable? = some known ∧ known.length = g.size ∧
    (∀ r ∈ g.rules, Opens (flagSets known).Holds r.right .epsilon → (flagSets known).Holds r.left .epsilon) ∧
    ∀ P : Facts, (∀ r ∈ g.rules, Opens P r.right .epsilon → P r.left .epsilon) → (flagSets known).Holds ≤ P := by
  let start := List.replicate g.size false
  have hstart : start.length = g.size := List.length_replicate
  have hempty : ∀ P : Facts, (flagSets start).Holds ≤ P := by
    intro P i a ha
    obtain ⟨hi, _⟩ := holds_flagSets.mp ha
    simp [start, List.getElem?_replicate] at hi
  have hsymbols : Closed g.nonTerminals vanishAdds fun _ a => a ∈ [Symbol.epsilon] :=
    closed_vanishAdds.mpr fun _ _ _ => List.mem_cons_self
  obtain ⟨families, last, hfamilies, hlast, hsat⟩ :=
    vanishGrowth.exists_saturated hsymbols (g.size + 1) (flagSets start)
      (size_flagSets.trans hstart) (hempty _) (by simp; omega)
  obtain ⟨states, hstates, hfamilies'⟩ : ∃ states, passes g.nullablePass? (g.size + 1) start = some states ∧
      passes (g.nonTerminals.foldlM vanishStep) (g.size + 1) (flagSets start) = some (states.map flagSets) :=
    exists_passes (p := fun known => known.length = g.size) flagSets_injective
      (fun _ hs => exists_nullablePass? hg hs) (g.size + 1) hstart
  rw [hfamilies, Option.some.injEq] at hfamilies'
  subst hfamilies'
  rw [List.getLast?_map] at hlast
  obtain ⟨known, hknown, rfl⟩ := Option.map_eq_some_iff.mp hlast
  have hsize : known.length = g.size := by
    rw [← size_flagSets, hsat.size, size_flagSets, hstart]
  refine ⟨known, ?_, hsize, closed_vanishAdds.mp hsat.closed, fun P hP => ?_⟩
  · simp [nullable?, settle, start, hstates, hknown]
  · exact hsat.least P (closed_vanishAdds.mpr hP) (hempty P)

theorem exists_flags {first : SetFamily} (hF : g.IsFirst first) : ∃ known, g.nullable? = some known ∧
    known.length = g.size ∧ ∀ i, known[i]? = some true ↔ first.Holds i .epsilon := by
  obtain ⟨known, hknown, hsize, hclosed, hleast⟩ := exists_nullable? hg
  have hflag : ∀ i, known[i]? = some true ↔ (flagSets known).Holds i .epsilon := by simp [holds_flagSets]
  refine ⟨known, hknown, hsize, fun i => (hflag i).trans ⟨?_, fun hi => ?_⟩⟩
  · exact hleast _ (fun r hr => hF.closed r hr .epsilon) i .epsilon
  · -- the flags, with all other symbols everywhere, are closed as FIRST has to be
    refine hF.least (fun i a => a = .epsilon → (flagSets known).Holds i a) ?_ i _ hi rfl
    rintro r hr _ ha rfl
    exact hclosed r hr (ha.mono_epsilon fun _ h => h rfl)

end

/-- The flags, ε in the FIRST sets and derivations tell the same nonterminals. -/
theorem nullable_iff_derives (hg : g.BodiesInRange) :
    ∃ known first, g.nullable? = some known ∧ g.first? = some first ∧ known.length = g.size ∧ first.size = g.size ∧
      ∀ i < g.size, ∃ b, known[i]? = some b ∧ first.nullable? i = some b ∧
        (b = true ↔ g.Derives [.nonTerminal i] []) := by
  obtain ⟨first, hfirst, hF⟩ := exists_first? hg
  obtain ⟨known, hknown, hsize, hflags⟩ := exists_flags hg hF
  refine ⟨known, first, hknown, hfirst, hsize, hF.size, fun i hi => ?_⟩
  obtain ⟨s, hs⟩ := SetFamily.exists_get? (hF.size ▸ hi)
  have hi' : i < known.length := hsize ▸ hi
  have hb : known[i] = true ↔ first.Holds i .epsilon := by
    rw [← hflags]
    simp [hi']
  refine ⟨known[i], List.getElem?_eq_getElem hi', ?_, ?_⟩
  · rw [SetFamily.nullable?, hs, Option.map_some, Option.some.injEq, Bool.eq_iff_iff, decide_eq_true_iff, hb,
      SetFamily.holds_iff hs]
  · rw [hb]
    exact hF.holds_iff

theorem nullable_iff_derives_recursive : recursiveGrammar.BodiesInRange ∧
    recursiveGrammar.nullable? = some [false, true, false] ∧ ¬ recursiveGrammar.Derives [.nonTerminal 0] [] ∧
    recursiveGrammar.Derives [.nonTerminal 1] [] ∧ ¬ recursiveGrammar.Derives [.nonTerminal 2] [] := by
  have hsymbols : ∀ r ∈ recursiveGrammar.rules, ∀ s ∈ r.right, recursiveGrammar.Has s := by decide
  have hg : recursiveGrammar.BodiesInRange := fun r hr _ hi => hsymbols r hr _ hi
  have hflags : recursiveGrammar.nullable? = some [false, true, false] := by decide
  obtain ⟨known, first, hknown, _, _, _, hderives⟩ := nullable_iff_derives hg
  rw [hflags, Option.some.injEq] at hknown
  subst hknown
  obtain ⟨_, h₀, _, hS⟩ := hderives 0 (by decide)
  obtain ⟨_, h₁, _, hB⟩ := hderives 1 (by decide)
  obtain ⟨_, h₂, _, hC⟩ := hderives 2 (by decide)
  cases h₀
  cases h₁
  cases h₂
  exact ⟨hg, hflags, by simpa using hS, hB.mp rfl, by simpa using hC⟩

end Grammar

end Predictive
