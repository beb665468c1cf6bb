import Predictive.Proofs.Follow
import Predictive.Session

/-!
# Partial and stale sets

In a session the sets may belong to an earlier grammar or stop short of a
solution, and FOLLOW may be solved over such FIRST sets. As long as productions
are only added, they never exceed the solution. For a relation closed under the
rules of a grammar is closed under those of an earlier one, FOLLOW grows with
FIRST, and passes stay below every closed relation wherever they are stopped.
-/

namespace Predictive

/-! ## Closed relations of an earlier grammar -/

namespace Grammar
variable {g h : Grammar} {F G P : Facts}

theorem FirstClosed.of_rules_subset (hrules : g.rules ⊆ h.rules) (hP : h.FirstClosed P) : g.FirstClosed P :=
  fun r hr => hP r (hrules hr)

theorem occurrences_subset (hrules : g.rules ⊆ h.rules) : g.occurrences ⊆ h.occurrences := by
  intro o ho
  obtain ⟨r, hr, hright⟩ := mem_occurrences.mp ho
  exact mem_occurrences.mpr ⟨r, hrules hr, hright⟩

theorem FollowClosed.of_rules_subset (hrules : g.rules ⊆ h.rules) (hstart : h.start = g.start)
    (hP : h.FollowClosed F P) : g.FollowClosed F P where
  start := hstart ▸ hP.start
  opening o ho := hP.opening o (occurrences_subset hrules ho)
  inherited o ho := hP.inherited o (occurrences_subset hrules ho)

/-- Over smaller FIRST sets, less is asked of FOLLOW. -/
theorem FollowClosed.of_le (hFG : F ≤ G) (hP : g.FollowClosed G P) : g.FollowClosed F P where
  start := hP.start
  opening o ho a ha := hP.opening o ho a (ha.mono hFG)
  inherited o ho hε := hP.inherited o ho (hε.mono hFG)

/-! ## Passes that may be stopped -/

variable (hg : g.BodiesInRange)
include hg

theorem exists_firstPasses? : ∃ families, g.firstPasses? = some families ∧
    ∀ f ∈ families, f.size = g.size ∧ ∀ P, g.FirstClosed P → f.Holds ≤ P := by
  obtain ⟨families, hfamilies, hbelow⟩ :=
    (firstGrowth hg).exists_states (g.size * (g.bodySize + 2) + 1) (.empty g.size) (SetFamily.size_empty _)
  refine ⟨families, hfamilies, fun f hf => ?_⟩
  obtain ⟨hsize, hf⟩ := hbelow f hf
  exact ⟨hsize, fun P hP => hf P (closed_firstAdds.mpr hP) (SetFamily.holds_empty_le _ P)⟩

theorem exists_followPasses? (hstart : g.start < g.size) {first : SetFamily} (hfirst : first.size = g.size) :
    ∃ families, g.followPasses? first = some families ∧
      ∀ f ∈ families, f.size = g.size ∧ ∀ P, g.FollowClosed first.Holds P → f.Holds ≤ P := by
  obtain ⟨f₀, hf₀, hsize₀, _, hleast⟩ := exists_followStart? hstart
  obtain ⟨families, hfamilies, hbelow⟩ :=
    (followGrowth hg hfirst).exists_states (g.size * (first.weight + g.bodySize + 1) + 1) f₀ hsize₀
  refine ⟨families, ?_, fun f hf => ?_⟩
  · unfold followPasses?
    rw [hf₀, Option.bind_some]
    exact hfamilies
  · obtain ⟨hsize, hf⟩ := hbelow f hf
    exact ⟨hsize, fun P hP => hf P (followClosed_iff.mp hP).2 (hleast P hP.start)⟩

end Grammar

/-! ## Sessions that only add productions -/

/-- Productions in range are added, and sets solved, in part or in full, or cleared. -/
def Step.Adds (g : Grammar) : Step → Prop
  | .addProduction i p => i < g.size ∧ ∀ s ∈ p, g.Has s
  | .solveFirst _ | .solveFollow _ => True
  | .clearFirst size | .clearFollow size => size = g.size
  | .load _ | .setStart _ | .fillTable | .fillTableStrictly => False

instance (g : Grammar) : DecidablePred (Step.Adds g) := fun c => by
  cases c <;> unfold Step.Adds <;> infer_instance

/-- The sets are below all closed relations of the grammar, which has come out of `g`. -/
structure Session.Sound (g : Grammar) (s : Session) : Prop where
  inRange : s.grammar.InRange
  size : s.grammar.size = g.size
  has : ∀ a, g.Has a → s.grammar.Has a
  first_size : s.sets.first.size = s.grammar.size
  follow_size : s.sets.follow.size = s.grammar.size
  first : ∀ P, s.grammar.FirstClosed P → s.sets.first.Holds ≤ P
  follow : ∀ F P, s.grammar.FirstClosed F → s.grammar.FollowClosed F P → s.sets.follow.Holds ≤ P

namespace Session
variable {g : Grammar} {s : Session}

theorem sound_ofGrammar (hg : g.InRange) : (ofGrammar g).Sound g where
  inRange := hg
  size := rfl
  has _ ha := ha
  first_size := SetFamily.size_empty _
  follow_size := SetFamily.size_empty _
  first P _ := SetFamily.holds_empty_le _ P
  follow _ P _ _ := SetFamily.holds_empty_le _ P

namespace Sound
variable (hs : s.Sound g)
include hs

theorem withFirst {first : SetFamily} (hsize : first.size = s.grammar.size)
    (hfirst : ∀ P, s.grammar.FirstClosed P → first.Holds ≤ P) : (s.withFirst first).Sound g :=
  { hs with first_size := hsize, first := hfirst }

theorem withFollow {follow : SetFamily} (hsize : follow.size = s.grammar.size)
    (hfollow : ∀ F P, s.grammar.FirstClosed F → s.grammar.FollowClosed F P → follow.Holds ≤ P) :
    (s.withFollow follow).Sound g :=
  { hs with follow_size := hsize, follow := hfollow }

theorem addProduction {i : Nat} {p : Production} (hi : i < g.size) (hp : ∀ a ∈ p, g.Has a) :
    ∃ h, s.grammar.addProduction? i p = some h ∧ ({ s with grammar := h } : Session).Sound g := by
  obtain ⟨h, hadd⟩ : ∃ h, s.grammar.addProduction? i p = some h := by
    have hlt : i < s.grammar.nonTerminals.length := Nat.lt_of_lt_of_eq hi hs.size.symm
    unfold Grammar.addProduction? Grammar.nonTerminal?
    rw [List.getElem?_eq_getElem hlt]
    exact ⟨_, rfl⟩
  have hsize := Grammar.size_addProduction? hadd
  have hstart := Grammar.start_addProduction? hadd
  have hrules := Grammar.rules_subset_addProduction? hadd
  refine ⟨h, hadd, hs.inRange.addProduction? hadd fun a ha => hs.has a (hp a ha), hsize.trans hs.size,
    fun a ha => (Grammar.has_addProduction? hadd).mpr (hs.has a ha), hs.first_size.trans hsize.symm,
    hs.follow_size.trans hsize.symm, fun P hP => hs.first P (hP.of_rules_subset hrules), ?_⟩
  exact fun F P hF hP => hs.follow F P (hF.of_rules_subset hrules) (hP.of_rules_subset hrules hstart)

theorem solveFirst (limit : Option Nat) : ∃ t, s.solveFirst? limit = some t ∧ t.Sound g := by
  obtain ⟨families, hfamilies, hbelow⟩ := Grammar.exists_firstPasses? hs.inRange.bodies
  unfold solveFirst?
  rw [hfamilies, Option.map_some]
  have hempty := hs.withFirst (SetFamily.size_empty _) fun P _ => SetFamily.holds_empty_le _ P
  refine ⟨_, rfl, stateAfter_induction (P := fun f => (s.withFirst f).Sound g) hempty (fun f hf => ?_) limit⟩
  obtain ⟨hsize, hfirst⟩ := hbelow f hf
  exact hs.withFirst hsize hfirst

theorem solveFollow (limit : Option Nat) : ∃ t, s.solveFollow? limit = some t ∧ t.Sound g := by
  obtain ⟨families, hfamilies, hbelow⟩ :=
    Grammar.exists_followPasses? hs.inRange.bodies hs.inRange.start hs.first_size
  unfold solveFollow?
  rw [hfamilies, Option.map_some]
  have hempty := hs.withFollow (SetFamily.size_empty _) fun _ P _ _ => SetFamily.holds_empty_le _ P
  refine ⟨_, rfl, stateAfter_induction (P := fun f => (s.withFollow f).Sound g) hempty (fun f hf => ?_) limit⟩
  obtain ⟨hsize, hfollow⟩ := hbelow f hf
  exact hs.withFollow hsize fun F P hF hP => hfollow P (hP.of_le (hs.first F hF))

theorem exists_step {c : Step} (hc : c.Adds g) : ∃ t, s.step c = .ok t ∧ t.Sound g := by
  cases c with
  | load _ => exact hc.elim
  | setStart _ => exact hc.elim
  | fillTable => exact hc.elim
  | fillTableStrictly => exact hc.elim
  | addProduction i p =>
    obtain ⟨h, hadd, ht⟩ := hs.addProduction hc.1 hc.2
    exact ⟨_, by rw [step, hadd]; rfl, ht⟩
  | solveFirst limit =>
    obtain ⟨t, ht, hsound⟩ := hs.solveFirst limit
    exact ⟨t, by rw [step, ht]; rfl, hsound⟩
  | solveFollow limit =>
    obtain ⟨t, ht, hsound⟩ := hs.solveFollow limit
    exact ⟨t, by rw [step, ht]; rfl, hsound⟩
  | clearFirst size =>
    have hsize : size = s.grammar.size := hc.trans hs.size.symm
    exact ⟨_, rfl, hs.withFirst ((SetFamily.size_empty _).trans hsize) fun P _ => SetFamily.holds_empty_le _ P⟩
  | clearFollow size =>
    have hsize : size = s.grammar.size := hc.trans hs.size.symm
    exact ⟨_, rfl, hs.withFollow ((SetFamily.size_empty _).trans hsize) fun _ P _ _ => SetFamily.holds_empty_le _ P⟩

theorem exists_analysis? : ∃ full, s.grammar.analysis? = some full ∧ s.sets.first ≤ full.first ∧
    s.sets.follow ≤ full.follow := by
  obtain ⟨full, hfull, hF, hP⟩ := Grammar.exists_analysis? hs.inRange.bodies hs.inRange.start
  refine ⟨full, hfull, SetFamily.le_iff_holds.mpr ⟨?_, ?_⟩, SetFamily.le_iff_holds.mpr ⟨?_, ?_⟩⟩
  · rw [hs.first_size, hF.size]
  · exact hs.first _ hF.closed
  · rw [hs.follow_size, hP.size]
  · exact hs.follow _ _ hF.closed hP.closed

end Sound

theorem sound_run (hg : g.InRange) {steps : List Step} (hsteps : ∀ c ∈ steps, c.Adds g) :
    ((ofGrammar g).run steps).Sound g := by
  apply run_induction steps (sound_ofGrammar hg)
  intro s c t hc hs ht
  obtain ⟨t', ht', hsound⟩ := hs.exists_step (hsteps c hc)
  rw [ht, Except.ok.injEq] at ht'
  exact ht' ▸ hsound

/-- However productions are added and sets solved, in part or in full, no step
fails and the sets are below those of the grammar as it is. -/
theorem sets_le_analysis {t : GrammarText} {g : Grammar} (h : t.read = .ok g) {steps : List Step}
    (hsteps : ∀ c ∈ steps, c.Adds g) :
    (∃ full, ((ofGrammar g).run steps).grammar.analysis? = some full ∧
      ((ofGrammar g).run steps).sets.first ≤ full.first ∧ ((ofGrammar g).run steps).sets.follow ≤ full.follow) ∧
    ∀ c : Step, c.Adds g → ∃ s, ((ofGrammar g).run steps).step c = .ok s := by
  have hs := sound_run (GrammarText.wellFormed_of_read h).toInRange hsteps
  refine ⟨hs.exists_analysis?, fun c hc => ?_⟩
  obtain ⟨s, hstep, _⟩ := hs.exists_step hc
  exact ⟨s, hstep⟩

/-- FIRST is solved before `F` may be a `Y` with an end mark, and FOLLOW is stopped after one pass. -/
def staleSteps : List Step :=
  [.solveFirst none, .addProduction 4 [.epsilon, .nonTerminal 3, .endOfInput], .solveFollow (some 1)]

theorem sets_le_analysis_expression : ∃ full,
    ((ofGrammar expressionText.grammar).run staleSteps).grammar.analysis? = some full ∧
    ((ofGrammar expressionText.grammar).run staleSteps).sets.first ≤ full.first ∧
    ((ofGrammar expressionText.grammar).run staleSteps).sets.follow ≤ full.follow ∧
    ((ofGrammar expressionText.grammar).run staleSteps).sets.first ≠ full.first ∧
    ((ofGrammar expressionText.grammar).run staleSteps).sets.follow ≠ full.follow := by
  have hsteps : ∀ c ∈ staleSteps, c.Adds expressionText.grammar := by decide +kernel
  have hstale : ((ofGrammar expressionText.grammar).run staleSteps).grammar.analysis?.map (fun full =>
      decide (((ofGrammar expressionText.grammar).run staleSteps).sets.first ≠ full.first ∧
        ((ofGrammar expressionText.grammar).run staleSteps).sets.follow ≠ full.follow)) = some true := by
    decide +kernel
  obtain ⟨⟨full, hfull, hfirst, hfollow⟩, _⟩ := sets_le_analysis Grammar.read_expressionText hsteps
  rw [hfull, Option.map_some, Option.some.injEq, decide_eq_true_eq] at hstale
  exact ⟨full, hfull, hfirst, hfollow, hstale⟩

end Session

end Predictive
