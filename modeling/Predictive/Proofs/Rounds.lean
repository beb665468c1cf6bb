import Mathlib.Data.Finset.Card
import Mathlib.Data.Finset.Range
import Predictive.Proofs.Loops

/-!
# How many passes a loop makes

Symbols that are added without a look at other symbols have a race of their own:
once a pass adds none of them, no later pass does. So every pass but the last
adds to the sets one and the same symbol, and as a symbol has room in one set for
each nonterminal, the nonterminals bound the passes. In FOLLOW every symbol has its race. In
FIRST the race of ε comes first, and the others are free of it when it is over.
-/

namespace Predictive

/-! ## Facts about some of the symbols -/

def LeOn (K : Symbol → Prop) (P Q : Facts) : Prop := ∀ i a, K a → P i a → Q i a

open Classical in
noncomputable def Facts.count (n : Nat) (P : Facts) (a : Symbol) : Nat := ((Finset.range n).filter fun i => P i a).card

namespace Facts
variable {n : Nat} {P Q : Facts} {a : Symbol}

theorem count_le (n : Nat) (P : Facts) (a : Symbol) : P.count n a ≤ n := by
  classical
  exact (Finset.card_filter_le _ _).trans_eq (Finset.card_range n)

theorem count_mono (h : ∀ i, P i a → Q i a) : count n P a ≤ count n Q a := by
  classical
  exact Finset.card_le_card (Finset.monotone_filter_right _ fun i _ => h i)

theorem count_lt (h : ∀ i, P i a → Q i a) {i : Nat} (hi : i < n) (hQ : Q i a) (hP : ¬ P i a) :
    count n P a < count n Q a := by
  classical
  refine Finset.card_lt_card ⟨Finset.monotone_filter_right _ fun i _ => h i, fun hsub => hP ?_⟩
  exact (Finset.mem_filter.mp (hsub (Finset.mem_filter.mpr ⟨Finset.mem_range.mpr hi, hQ⟩))).2

end Facts

namespace SetFamily

/-- Some set of `g` has a member that it does not have in `f`. -/
def Gains (f g : SetFamily) : Prop := ∃ i a, g.Holds i a ∧ ¬ f.Holds i a

theorem gains_of_le_of_ne {f g : SetFamily} (h : f ≤ g) (hne : g ≠ f) : f.Gains g := by
  by_contra hno
  have hback : g ≤ f := by
    refine le_iff_holds.mpr ⟨h.1.symm, fun i a hg => ?_⟩
    by_contra hf
    exact hno ⟨i, a, hg, hf⟩
  exact Nat.lt_asymm (weight_lt h (Ne.symm hne)) (weight_lt hback hne)

end SetFamily

/-! ## Races -/

section
variable {ι : Type} {items : List ι} {step : SetFamily → ι → Option SetFamily} {adds : ι → Facts → Facts} {n : Nat}

/-- What is added of the symbols in `K` hangs on what is known of these symbols. -/
def Apart (items : List ι) (adds : ι → Facts → Facts) (K : Symbol → Prop) : Prop :=
  ∀ x ∈ items, ∀ P Q : Facts, LeOn K P Q → LeOn K (adds x P) (adds x Q)

theorem Grown.closed_on {K : Symbol → Prop} {f g : SetFamily} (h : Grown items adds f g) (hK : Apart items adds K)
    (hstill : LeOn K g.Holds f.Holds) : Closed items adds fun i a => K a → f.Holds i a := by
  intro x hx i a ha hKa
  have hadds : LeOn K (adds x fun i a => K a → f.Holds i a) (adds x f.Holds) := hK x hx _ _ fun _ _ hb hP => hP hb
  exact hstill i a hKa (h.fired x hx i a (hadds i a hKa ha))

theorem Grown.count_lt_or_still {f g : SetFamily} (h : Grown items adds f g) (hsize : g.size = n) (a : Symbol) :
    f.Holds.count n a < g.Holds.count n a ∨ ∀ i, g.Holds i a → f.Holds i a := by
  by_cases hnew : ∃ i, g.Holds i a ∧ ¬ f.Holds i a
  · obtain ⟨i, hga, hfa⟩ := hnew
    exact Or.inl (Facts.count_lt (fun j => h.above j a) (hsize ▸ hga.lt_size) hga hfa)
  · exact Or.inr fun i hga => not_not.mp fun hfa => hnew ⟨i, hga, hfa⟩

variable {symbols : List Symbol}

structure SetFamily.Fits (n : Nat) (symbols : List Symbol) (f : SetFamily) : Prop where
  size : f.size = n
  among : f.Holds ≤ fun _ a => a ∈ symbols

theorem SetFamily.Fits.weight_le {f : SetFamily} (h : f.Fits n symbols) : f.weight ≤ n * symbols.length :=
  h.size ▸ SetFamily.weight_le h.among

theorem SetFamily.Fits.of_step {f g : SetFamily} {x : ι} (hf : f.Fits n symbols) (hmono : Monotone (adds x))
    (hsymbols : adds x (fun _ a => a ∈ symbols) ≤ fun _ a => a ∈ symbols) (hsize : g.size = f.size)
    (hholds : ∀ i a, g.Holds i a ↔ f.Holds i a ∨ adds x f.Holds i a) : g.Fits n symbols := by
  refine ⟨hsize.trans hf.size, fun i a ha => ?_⟩
  rcases (hholds i a).mp ha with ha | ha
  · exact hf.among i a ha
  · exact hsymbols i a (hmono hf.among i a ha)

variable {reported : SetFamily → Option (Report SetFamily)} {f g last : SetFamily} {families : List SetFamily}

theorem Growth.grown (h : Growth items step adds n) (hf : f.size = n) (hg : items.foldlM step f = some g) :
    Grown items adds f g := by
  obtain ⟨g', hg', hgrown⟩ := h.exists_pass hf
  rw [hg, Option.some.injEq] at hg'
  exact hg' ▸ hgrown

theorem Growth.reporting {report : SetFamily → ι → Option (Report SetFamily)} (h : Growth items step adds n)
    (hsymbols : Closed items adds fun _ a => a ∈ symbols)
    (htells : ∀ f x, Tells SetFamily.weight f (report f x) (step f x)) :
    Reporting (SetFamily.Fits n symbols) SetFamily.weight (reportedPass? report items) fun f => items.foldlM step f := by
  refine reporting_pass fun x hx => ⟨fun f _ => htells f x, fun f hf => ?_⟩
  obtain ⟨g, hg, hsize, hholds⟩ := h.exists_step x hx f hf.size
  exact ⟨g, hg, hf.of_step (h.mono x hx) (hsymbols x hx) (hsize.trans hf.size.symm) hholds⟩

section
variable (h : Growth items step adds n)
  (hreporting : Reporting (SetFamily.Fits n symbols) SetFamily.weight reported fun f => items.foldlM step f)
include h hreporting

theorem Growth.grown_of_report (hf : f.Fits n symbols) {b : Bool} (hg : reported f = some ⟨g, b⟩) :
    g.Fits n symbols ∧ Grown items adds f g := by
  obtain ⟨hnext, _⟩ := (hreporting.tells f hf).next_eq hg
  exact ⟨hreporting.kept hf hnext, h.grown hf.size hnext⟩

theorem Growth.above_of_loop (hloop : Loop reported f families last) (hf : f.Fits n symbols) : f.Holds ≤ last.Holds := by
  induction hloop with
  | stop hg => exact (h.grown_of_report hreporting hf hg).2.above
  | again hg _ ih =>
    obtain ⟨hfits, hgrown⟩ := h.grown_of_report hreporting hf hg
    exact hgrown.above.trans (ih hfits)

theorem Growth.below_of_loop (hloop : Loop reported f families last) (hf : f.Fits n symbols) {P : Facts}
    (hP : Closed items adds P) (hfP : f.Holds ≤ P) : last.Holds ≤ P := by
  induction hloop with
  | stop hg => exact (h.grown_of_report hreporting hf hg).2.below P hP hfP
  | again hg _ ih =>
    obtain ⟨hfits, hgrown⟩ := h.grown_of_report hreporting hf hg
    exact ih hfits (hgrown.below P hP hfP)

/-- If a pass adds none of the symbols in `K`, no later pass does. -/
theorem Growth.still_of_still {K : Symbol → Prop} (hK : Apart items adds K) (hf : f.Fits n symbols) {b : Bool}
    (hg : reported f = some ⟨g, b⟩) (hloop : Loop reported g families last) (hstill : LeOn K g.Holds f.Holds) :
    LeOn K last.Holds f.Holds := by
  obtain ⟨hfits, hgrown⟩ := h.grown_of_report hreporting hf hg
  intro i a ha hlast
  exact h.below_of_loop hreporting hloop hfits (hgrown.closed_on hK hstill) (fun i a hg ha => hstill i a ha hg) i a hlast ha

/-- While nothing is added of the symbols in `S`, every pass but the last adds one and the same symbol. -/
theorem Growth.exists_race {S : Symbol → Prop} (hS : ∀ a, Apart items adds fun b => S b ∨ b = a)
    (hloop : Loop reported f families last) (hf : f.Fits n symbols) (hsettled : LeOn S last.Holds f.Holds) :
    families.length = 1 ∨ ∃ a, f.Holds.count n a + families.length ≤ last.Holds.count n a + 1 := by
  induction hloop with
  | stop _ => exact Or.inl rfl
  | @again f g last families hg hloop ih =>
    obtain ⟨hfits, hgrown⟩ := h.grown_of_report hreporting hf hg
    have habove := h.above_of_loop hreporting hloop hfits
    refine Or.inr ?_
    rw [List.length_cons]
    by_cases hone : families.length = 1
    · -- the next pass is the last, and adds nothing to what this one has added
      obtain ⟨hne, _⟩ := (hreporting.tells f hf).of_changed hg
      obtain ⟨i, a, hga, hfa⟩ := SetFamily.gains_of_le_of_ne hgrown.le hne
      have hlt := (hgrown.count_lt_or_still hfits.size a).resolve_right fun hstill => hfa (hstill i hga)
      have hle := Facts.count_mono (n := n) fun j => habove j a
      exact ⟨a, by omega⟩
    · have hsettled' : LeOn S last.Holds g.Holds := fun i a ha hlast => hgrown.above i a (hsettled i a ha hlast)
      obtain ⟨a, ha⟩ := (ih hfits hsettled').resolve_left hone
      refine ⟨a, ?_⟩
      rcases hgrown.count_lt_or_still hfits.size a with hlt | hstill
      · omega
      · -- `a` has lost its race already, and the next pass would be the last
        have hboth : LeOn (fun b => S b ∨ b = a) g.Holds f.Holds := by
          rintro i b (hb | rfl) hgb
          · exact hsettled i b hb (habove i b hgb)
          · exact hstill i hgb
        have hlast := h.still_of_still hreporting (hS a) hf hg hloop hboth
        have hle := Facts.count_mono (n := n) fun j hj => hgrown.above j a (hlast j a (Or.inr rfl) hj)
        have hpos := hloop.length_pos
        omega

theorem Growth.length_le_of_settled {S : Symbol → Prop} (hS : ∀ a, Apart items adds fun b => S b ∨ b = a)
    (hloop : Loop reported f families last) (hf : f.Fits n symbols) (hsettled : LeOn S last.Holds f.Holds) :
    families.length ≤ n + 1 := by
  rcases h.exists_race hreporting hS hloop hf hsettled with hone | ⟨a, ha⟩
  · omega
  · have hle := Facts.count_le n last.Holds a
    omega

/-- While the race of `e` is on, every pass adds `e`; when it is over, the other symbols are free of it. -/
theorem Growth.length_le_of_first {e : Symbol} (he : Apart items adds fun b => b = e)
    (hothers : ∀ a, Apart items adds fun b => b = e ∨ b = a) (hloop : Loop reported f families last)
    (hf : f.Fits n symbols) : families.length + f.Holds.count n e ≤ last.Holds.count n e + (n + 1) := by
  induction hloop with
  | @stop f g hg =>
    have hle := Facts.count_mono (n := n) fun j => (h.grown_of_report hreporting hf hg).2.above j e
    rw [List.length_singleton]
    omega
  | @again f g last families hg hloop ih =>
    obtain ⟨hfits, hgrown⟩ := h.grown_of_report hreporting hf hg
    rcases hgrown.count_lt_or_still hfits.size e with hlt | hstill
    · have hrest := ih hfits
      rw [List.length_cons]
      omega
    · have honly : LeOn (fun b => b = e) g.Holds f.Holds := fun i b hb hgb => hb ▸ hstill i (hb ▸ hgb)
      have hsettled := h.still_of_still hreporting he hf hg hloop honly
      have hlength := h.length_le_of_settled hreporting hothers (.again hg hloop) hf hsettled
      have hle := Facts.count_mono (n := n) fun j hj =>
        h.above_of_loop hreporting hloop hfits j e (hgrown.above j e hj)
      omega

end

/-! ## Bounds with room

A pass over numbers that are out of range may fail. While it does not, it adds
nothing but the symbols that the bound has room for. -/

theorem fits_of_pass (hmono : ∀ x, Monotone (adds x)) (hsymbols : Closed items adds fun _ a => a ∈ symbols)
    (hstep : ∀ f x g, step f x = some g → g.size = f.size ∧ ∀ i a, g.Holds i a ↔ f.Holds i a ∨ adds x f.Holds i a)
    (hf : f.Fits n symbols) (h : items.foldlM step f = some g) :
    g.Fits n symbols ∧ (g = f ∨ f.weight < g.weight) := by
  obtain ⟨hg, hle⟩ : g.Fits n symbols ∧ f.Holds ≤ g.Holds := by
    refine invariant_of_foldlM (P := fun g => g.Fits n symbols ∧ f.Holds ≤ g.Holds) ?_ ⟨hf, le_refl _⟩ h
    intro x hx g g' ⟨hg, hle⟩ hg'
    obtain ⟨hsize, hholds⟩ := hstep g x g' hg'
    exact ⟨hg.of_step (hmono x) (hsymbols x hx) hsize hholds, fun i a ha => (hholds i a).mpr (Or.inl (hle i a ha))⟩
  refine ⟨hg, ?_⟩
  by_cases e : g = f
  · exact Or.inl e
  · have hfg : f ≤ g := SetFamily.le_iff_holds.mpr ⟨hf.size.trans hg.size.symm, hle⟩
    exact Or.inr (SetFamily.weight_lt hfg (Ne.symm e))

theorem passes_eq_of_fits {pass : SetFamily → Option SetFamily}
    (hpass : ∀ f g, f.Fits n symbols → pass f = some g → g.Fits n symbols ∧ (g = f ∨ f.weight < g.weight))
    (hf : f.Fits n symbols) {bound bound' : Nat} (hroom : n * symbols.length < bound) (hle : bound ≤ bound') :
    passes pass bound f = passes pass bound' f :=
  passes_eq_of_le hpass (fun _ hf => hf.weight_le) hle hf (Nat.lt_of_lt_of_le hroom (Nat.le_add_left _ _))

end

/-! ## The loops of the analysis -/

namespace Grammar
variable {g : Grammar}

theorem apart_firstAdds {K : Symbol → Prop} (hK : K .epsilon) : Apart g.rules firstAdds K :=
  fun _ _ _ _ hPQ _ a ha => And.imp_right fun h => h.mono_of (fun i => hPQ i _ hK) fun i => hPQ i a ha

theorem apart_followAdds (F : Facts) (K : Symbol → Prop) : Apart g.occurrences (followAdds F) K :=
  fun _ _ _ _ hPQ _ a ha => And.imp_right (Or.imp_right (And.imp_right (hPQ _ a ha)))

theorem fits_empty (g : Grammar) : (SetFamily.empty g.size).Fits g.size g.firstSymbols :=
  ⟨SetFamily.size_empty _, SetFamily.holds_empty_le _ _⟩

theorem fits_followStart? {first f : SetFamily} (hf : g.followStart? = some f) :
    f.Fits g.size (g.followSymbols first) := by
  refine ⟨(SetFamily.size_of_extend? hf).trans (SetFamily.size_empty _), fun i a ha => ?_⟩
  rcases (SetFamily.holds_extend? hf).mp ha with ha | ⟨_, ha⟩
  · exact absurd ha (SetFamily.not_holds_empty _ i a)
  · exact SymbolSet.mem_singleton.mp ha ▸ (followClosed_symbols g first).start

theorem firstPasses?_eq_of_le {bound : Nat} (hle : g.size * (g.bodySize + 2) + 1 ≤ bound) :
    g.firstPasses? = passes g.firstPass? bound (.empty g.size) :=
  passes_eq_of_fits (fun _ _ hf h => fits_of_pass monotone_firstAdds g.closed_firstSymbols
    (fun _ _ _ => holds_firstStep?) hf h) g.fits_empty (Nat.lt_succ_self _) hle

theorem followPasses?_eq_of_le {first : SetFamily} {bound : Nat}
    (hle : g.size * (first.weight + g.bodySize + 1) + 1 ≤ bound) :
    g.followPasses? first = g.followStart?.bind (passes (g.followPass? first) bound) := by
  have hlength : (g.followSymbols first).length = first.weight + g.bodySize + 1 := by
    simp [followSymbols, SetFamily.weight, bodySize, Nat.add_assoc]
  have hroom : g.size * (g.followSymbols first).length < g.size * (first.weight + g.bodySize + 1) + 1 := by
    rw [hlength]
    exact Nat.lt_succ_self _
  have hclosed := (followClosed_iff.mp (followClosed_symbols g first)).2
  refine Option.bind_congr fun f hf => passes_eq_of_fits (fun f f' hf h => ?_) (fits_followStart? hf) hroom hle
  exact fits_of_pass (monotone_followAdds first.Holds) hclosed (fun _ _ _ => holds_followStep?) hf h

section
variable (hg : g.BodiesInRange)
include hg

theorem reporting_nullablePass : Reporting (fun known => known.length = g.size) (List.count true)
    g.reportedNullablePass? g.nullablePass? := by
  refine reporting_pass fun a ha => ⟨fun known hknown => ?_, fun known hknown => ?_⟩
  · exact tells_nullableReport? (hknown ▸ index_lt_size ha)
  · obtain ⟨known', hstep, hsize, _⟩ := exists_nullableStep? hg ha hknown
    exact ⟨known', hstep, hsize⟩

theorem reporting_firstPass : Reporting (SetFamily.Fits g.size g.firstSymbols) SetFamily.weight
    g.reportedFirstPass? g.firstPass? :=
  (firstGrowth hg).reporting g.closed_firstSymbols tells_firstReport?

theorem exists_nullableLoop : ∃ states known, Loop g.reportedNullablePass? (List.replicate g.size false) states known ∧
    g.nullable? = some known := by
  have hreporting := reporting_nullablePass hg
  have hstart : (List.replicate g.size false).length = g.size := List.length_replicate
  have hcount : ∀ known : List Bool, known.length = g.size → known.count true ≤ g.size := fun known h =>
    h ▸ List.count_le_length
  obtain ⟨states, known, hloop⟩ := hreporting.exists_loop hcount hstart
  have hlength := hreporting.length_add_le hstart hloop
  have hlast := hcount known (hreporting.kept_of_loop hstart hloop)
  refine ⟨states, known, hloop, ?_⟩
  unfold nullable? settle
  rw [hreporting.passes_eq hstart hloop (by omega)]
  simp [hloop.getLast?]

theorem exists_firstLoop : ∃ families first, Loop g.reportedFirstPass? (.empty g.size) families first ∧
    families.length ≤ 2 * g.size + 1 ∧ g.firstPasses? = some families ∧ g.first? = some first := by
  have hreporting := reporting_firstPass hg
  have hempty := g.fits_empty
  obtain ⟨families, first, hloop⟩ := hreporting.exists_loop (fun f hf => hf.weight_le) hempty
  have hrace := (firstGrowth hg).length_le_of_first hreporting (e := .epsilon) (apart_firstAdds rfl)
    (fun a => apart_firstAdds (Or.inl rfl)) hloop hempty
  have hcount := Facts.count_le g.size first.Holds .epsilon
  have hlength : families.length ≤ 2 * g.size + 1 := by omega
  have hroom : 2 * g.size + 1 ≤ g.size * (g.bodySize + 2) + 1 := by
    rw [Nat.mul_comm 2]
    exact Nat.succ_le_succ (Nat.mul_le_mul_left _ (Nat.le_add_left 2 _))
  have hpasses : g.firstPasses? = some families := hreporting.passes_eq hempty hloop (hlength.trans hroom)
  exact ⟨families, first, hloop, hlength, hpasses, by simp [first?, hpasses, hloop.getLast?]⟩

variable {first : SetFamily} (hfirst : first.size = g.size)
include hfirst

theorem reporting_followPass : Reporting (SetFamily.Fits g.size (g.followSymbols first)) SetFamily.weight
    (g.reportedFollowPass? first) (g.followPass? first) :=
  (followGrowth hg hfirst).reporting (followClosed_iff.mp (followClosed_symbols g first)).2
    (tells_followReport? first)

theorem exists_followLoop (hstart : g.start < g.size) : ∃ f families follow, g.followStart? = some f ∧
    f.Fits g.size (g.followSymbols first) ∧ (∀ i a, f.Holds i a ↔ i = g.start ∧ a = .endOfInput) ∧
    Loop (g.reportedFollowPass? first) f families follow ∧ families.length ≤ g.size + 1 ∧
    g.followPasses? first = some families ∧ g.follow? first = some follow := by
  have hreporting := reporting_followPass hg hfirst
  obtain ⟨f, hf, hsize, hmem, hleast⟩ := exists_followStart? hstart
  have hfits : f.Fits g.size (g.followSymbols first) := fits_followStart? hf
  obtain ⟨families, follow, hloop⟩ := hreporting.exists_loop (fun f hf => hf.weight_le) hfits
  have hlength := (followGrowth hg hfirst).length_le_of_settled hreporting (S := fun _ => False)
    (fun a => apart_followAdds _ _) hloop hfits fun _ _ hno => hno.elim
  have hroom : g.size + 1 ≤ g.size * (first.weight + g.bodySize + 1) + 1 :=
    Nat.succ_le_succ (Nat.le_mul_of_pos_right _ (Nat.succ_pos _))
  have hpasses : g.followPasses? first = some families := by
    rw [followPasses?, hf, Option.bind_some]
    exact hreporting.passes_eq hfits hloop (hlength.trans hroom)
  refine ⟨f, families, follow, hf, hfits, fun i a => ⟨fun ha => ?_, ?_⟩, hloop, hlength, hpasses, ?_⟩
  · exact hleast (fun i a => i = g.start ∧ a = .endOfInput) ⟨rfl, rfl⟩ i a ha
  · rintro ⟨rfl, rfl⟩
    exact hmem
  · simp [follow?, hpasses, hloop.getLast?]

end

/-- The loops end by themselves. The nonterminals alone bound their passes: there
are at most two for each of them in FIRST and one in FOLLOW, besides the last pass. -/
theorem loops_end {g : Grammar} (hg : g.BodiesInRange) (hstart : g.start < g.size) :
    (∃ states known, Loop g.reportedNullablePass? (List.replicate g.size false) states known ∧
      g.nullable? = some known) ∧
    (∃ families first, Loop g.reportedFirstPass? (.empty g.size) families first ∧
      g.firstPasses? = some families ∧ families.length ≤ 2 * g.size + 1) ∧
    ∀ first : SetFamily, first.size = g.size → ∃ f families follow, g.followStart? = some f ∧
      Loop (g.reportedFollowPass? first) f families follow ∧ g.followPasses? first = some families ∧
      families.length ≤ g.size + 1 := by
  refine ⟨exists_nullableLoop hg, ?_, fun first hfirst => ?_⟩
  · obtain ⟨families, first, hloop, hlength, hpasses, _⟩ := exists_firstLoop hg
    exact ⟨families, first, hloop, hpasses, hlength⟩
  · obtain ⟨f, families, follow, hf, _, _, hloop, hlength, hpasses, _⟩ := exists_followLoop hg hfirst hstart
    exact ⟨f, families, follow, hf, hloop, hpasses, hlength⟩

end Grammar

def tailGrammar : Grammar := .ofLists [("S", [[.nonTerminal 0, .terminal 0], []])] ["a"] 0

namespace Grammar

theorem inRange_tailGrammar : tailGrammar.InRange := ⟨by decide, by decide⟩

/-- The one nonterminal takes three passes for FIRST, where ε has to be found before `a`, and two for FOLLOW. -/
theorem loops_end_tail : tailGrammar.BodiesInRange ∧ tailGrammar.start < tailGrammar.size ∧
    (∃ families first, Loop tailGrammar.reportedFirstPass? (.empty 1) families first ∧
      families.length = 2 * tailGrammar.size + 1) ∧
    ∃ f families follow, Loop (tailGrammar.reportedFollowPass? (.empty 1)) f families follow ∧
      families.length = tailGrammar.size + 1 := by
  have hg := inRange_tailGrammar
  obtain ⟨_, ⟨families, first, hloop, hpasses, _⟩, hfollow⟩ := loops_end hg.bodies hg.start
  have hlength : tailGrammar.firstPasses?.map List.length = some 3 := by decide
  obtain ⟨f, families', follow, _, hloop', hpasses', _⟩ := hfollow (.empty 1) rfl
  have hlength' : (tailGrammar.followPasses? (.empty 1)).map List.length = some 2 := by decide
  rw [hpasses, Option.map_some, Option.some.injEq] at hlength
  rw [hpasses', Option.map_some, Option.some.injEq] at hlength'
  exact ⟨hg.bodies, hg.start, ⟨families, first, hloop, hlength⟩, f, families', follow, hloop', hlength'⟩

end Grammar

end Predictive
