import Predictive.Grammar.Derivation
import Predictive.Grammar.InRange
import Predictive.Proofs.Opening
import Predictive.Proofs.Saturation

/-!
# FIRST by passes is FIRST by derivations

The FIRST sets are the least relation closed under the rules. What derivations
give is closed, so the sets are sound; and along a derivation a closed relation
can only lose what a sentential form opens with, so they are complete.
-/

namespace Predictive

namespace Grammar

/-! ## The least closed relation -/

def FirstClosed (g : Grammar) (P : Facts) : Prop := ∀ r ∈ g.rules, ∀ a, Opens P r.right a → P r.left a

theorem firstClosed_has {g : Grammar} (hsymbols : ∀ r ∈ g.rules, ∀ s ∈ r.right, g.Has s) :
    g.FirstClosed fun _ a => g.Has a :=
  fun r hr _ hopens => hopens.has (hsymbols r hr) fun _ _ hb => hb

structure IsFirst (g : Grammar) (first : SetFamily) : Prop where
  size : first.size = g.size
  closed : g.FirstClosed first.Holds
  least : ∀ P, g.FirstClosed P → first.Holds ≤ P

def firstAdds (r : Rule) (P : Facts) : Facts := fun i a => i = r.left ∧ Opens P r.right a

theorem monotone_firstAdds (r : Rule) : Monotone (firstAdds r) :=
  fun _ _ hPQ _ _ => And.imp_right (Opens.mono hPQ)

theorem closed_firstAdds {g : Grammar} {P : Facts} : Closed g.rules firstAdds P ↔ g.FirstClosed P := by
  constructor
  · intro h r hr a ha
    exact h r hr r.left a ⟨rfl, ha⟩
  · intro h r hr i a ha
    obtain ⟨rfl, ha⟩ := ha
    exact h r hr a ha

/-- FIRST sets have room for the symbols of right sides and the two marks. -/
def firstSymbols (g : Grammar) : List Symbol := .epsilon :: .endOfInput :: g.rules.flatMap Rule.right

theorem closed_firstSymbols (g : Grammar) : Closed g.rules firstAdds fun _ a => a ∈ g.firstSymbols := by
  rw [closed_firstAdds]
  intro r hr a ha
  rcases ha.mem_or with rfl | ha | ⟨_, ha⟩
  · exact List.mem_cons_self
  · exact List.mem_cons_of_mem _ (List.mem_cons_of_mem _ (List.mem_flatMap.mpr ⟨r, hr, ha⟩))
  · exact ha

theorem holds_firstStep? {f f' : SetFamily} {r : Rule}
    (h : (f.firstOfSequence? r.right).bind (f.extend? r.left) = some f') :
    f'.size = f.size ∧ ∀ i a, f'.Holds i a ↔ f.Holds i a ∨ firstAdds r f.Holds i a := by
  obtain ⟨s, hs, h⟩ := Option.bind_eq_some_iff.mp h
  refine ⟨SetFamily.size_of_extend? h, fun i a => ?_⟩
  rw [SetFamily.holds_extend? h, SetFamily.mem_firstOfSequence? hs]
  rfl

section
variable {g : Grammar} (hg : g.BodiesInRange)
include hg

theorem firstGrowth :
    Growth g.rules (fun f r => (f.firstOfSequence? r.right).bind (f.extend? r.left)) firstAdds g.size where
  mono r _ := monotone_firstAdds r
  exists_step r hr f hf := by
    have hwithin : Production.Within f.size r.right := fun i hi => hf ▸ hg r hr i hi
    have hleft : r.left < f.size := hf ▸ left_lt_size hr
    obtain ⟨s, hs, _⟩ := f.exists_firstOfSequence? hwithin
    obtain ⟨f', hf', _⟩ := f.exists_extend? s hleft
    have hstep : (f.firstOfSequence? r.right).bind (f.extend? r.left) = some f' := by
      rw [hs]
      exact hf'
    obtain ⟨hsize, hholds⟩ := holds_firstStep? hstep
    exact ⟨f', hstep, hsize.trans hf, hholds⟩

theorem exists_first? : ∃ first, g.first? = some first ∧ g.IsFirst first := by
  have hlength : g.firstSymbols.length = g.bodySize + 2 := rfl
  obtain ⟨states, last, hstates, hlast, hsat⟩ :=
    (firstGrowth hg).exists_saturated g.closed_firstSymbols (g.size * (g.bodySize + 2) + 1) (.empty g.size)
      (SetFamily.size_empty _) (SetFamily.holds_empty_le _ _) (by rw [hlength]; omega)
  refine ⟨last, ?_, hsat.size.trans (SetFamily.size_empty _), closed_firstAdds.mp hsat.closed, ?_⟩
  · have : g.firstPasses? = some states := hstates
    simp [first?, this, hlast]
  · exact fun P hP => hsat.least P (closed_firstAdds.mpr hP) (SetFamily.holds_empty_le _ P)

end

namespace IsFirst
variable {g : Grammar} {first : SetFamily} (h : g.IsFirst first)
include h

theorem has (hsymbols : ∀ r ∈ g.rules, ∀ s ∈ r.right, g.Has s) {i : Nat} {a : Symbol} (ha : first.Holds i a) :
    g.Has a :=
  h.least _ (firstClosed_has hsymbols) i a ha

theorem exists_rule {i : Nat} {a : Symbol} (ha : first.Holds i a) :
    ∃ r ∈ g.rules, r.left = i ∧ Opens first.Holds r.right a := by
  refine h.least (fun i a => ∃ r ∈ g.rules, r.left = i ∧ Opens first.Holds r.right a) ?_ i a ha
  intro r hr a ha
  refine ⟨r, hr, rfl, ha.mono ?_⟩
  rintro i b ⟨s, hs, rfl, hb⟩
  exact h.closed s hs b hb

/-- Induction along the passes: a rule may be assumed to open with members only. -/
theorem induction {P : Facts}
    (hP : ∀ r ∈ g.rules, ∀ a, Opens first.Holds r.right a → Opens P r.right a → P r.left a) :
    first.Holds ≤ P := by
  have hclosed : g.FirstClosed fun i a => first.Holds i a ∧ P i a := by
    intro r hr a ha
    have hfirst := ha.mono (Q := first.Holds) fun _ _ => And.left
    exact ⟨h.closed r hr a hfirst, hP r hr a hfirst (ha.mono fun _ _ => And.right)⟩
  exact fun i a ha => (h.least _ hclosed i a ha).2

end IsFirst

/-! ## FIRST by derivations -/

/-- FIRST of a sentential form, told by what it derives. -/
def FirstOf (g : Grammar) (α : List Symbol) : Symbol → Prop
  | .epsilon => g.Derives α []
  | .nonTerminal _ => False
  | s => ∃ β, g.Derives α (s :: β)

section
variable {g : Grammar}

theorem firstOf_token {α : List Symbol} {s : Symbol} (hs : s.isLookahead = true) :
    g.FirstOf α s ↔ ∃ β, g.Derives α (s :: β) := by
  cases s with
  | terminal _ => exact Iff.rfl
  | endOfInput => exact Iff.rfl
  | nonTerminal _ => cases hs
  | epsilon => cases hs

theorem FirstOf.of_derives {α α' : List Symbol} (h : g.Derives α α') :
    ∀ {a : Symbol}, g.FirstOf α' a → g.FirstOf α a
  | .epsilon, ha => h.trans ha
  | .nonTerminal _, ha => ha
  | .terminal _, ⟨β, hβ⟩ => ⟨β, h.trans hβ⟩
  | .endOfInput, ⟨β, hβ⟩ => ⟨β, h.trans hβ⟩

theorem FirstOf.append_right {α : List Symbol} (v : List Symbol) :
    ∀ {a : Symbol}, g.FirstOf α a → a ≠ .epsilon → g.FirstOf (α ++ v) a
  | .epsilon, _, hne => absurd rfl hne
  | .nonTerminal _, ha, _ => ha
  | .terminal _, ⟨β, hβ⟩, _ => ⟨β ++ v, hβ.append [] v⟩
  | .endOfInput, ⟨β, hβ⟩, _ => ⟨β ++ v, hβ.append [] v⟩

theorem derives_rule {r : Rule} (hr : r ∈ g.rules) : g.Derives [.nonTerminal r.left] r.right := by
  have := Produces.expand [] [] (mem_rules.mp hr)
  rw [List.append_nil] at this
  exact .single this

theorem firstOf_of_opens : ∀ {α : List Symbol} {a : Symbol},
    Opens (fun i => g.FirstOf [.nonTerminal i]) α a → g.FirstOf α a
  | [], _, h => h ▸ .refl
  | .epsilon :: α, _, h => FirstOf.of_derives (.single (.vanish [] α)) (firstOf_of_opens (α := α) h)
  | .terminal j :: α, a, h => by
    rw [show a = .terminal j from h]
    exact ⟨α, .refl⟩
  | .endOfInput :: α, a, h => by
    rw [show a = .endOfInput from h]
    exact ⟨α, .refl⟩
  | .nonTerminal i :: α, _, h => by
    rcases h with ⟨hi, hne⟩ | ⟨hi, h⟩
    · exact hi.append_right α hne
    · have hα : g.Derives ([] ++ [.nonTerminal i] ++ α) ([] ++ [] ++ α) := Derives.append hi [] α
      exact FirstOf.of_derives hα (firstOf_of_opens h)

theorem firstClosed_firstOf : g.FirstClosed fun i => g.FirstOf [.nonTerminal i] :=
  fun _ hr _ ha => FirstOf.of_derives (derives_rule hr) (firstOf_of_opens ha)

section
variable {P : Facts} (hP : g.FirstClosed P)
include hP

theorem opens_of_produces {α α' : List Symbol} (h : g.Produces α α') {a : Symbol} (ha : Opens P α' a) :
    Opens P α a := by
  cases h with
  | vanish u v =>
    rw [opens_append] at ha ⊢
    exact ha
  | @expand i k p u v hk =>
    have hrule : (⟨i, k, p⟩ : Rule) ∈ g.rules := mem_rules.mpr hk
    have hp : ∀ b, Opens P p b → P i b := hP _ hrule
    rw [List.append_assoc, opens_append, opens_append] at ha
    rw [opens_append]
    simp only [Opens]
    rcases ha with ha | ⟨hu, ⟨hpa, hne⟩ | ⟨hε, hv⟩⟩
    · exact Or.inl ha
    · exact Or.inr ⟨hu, Or.inl ⟨hp a hpa, hne⟩⟩
    · exact Or.inr ⟨hu, Or.inr ⟨hp _ hε, hv⟩⟩

theorem opens_of_derives {α α' : List Symbol} (h : g.Derives α α') {a : Symbol} (ha : Opens P α' a) :
    Opens P α a := by
  induction h using Relation.ReflTransGen.head_induction_on with
  | refl => exact ha
  | head hs _ ih => exact opens_of_produces hP hs ih

theorem opens_of_firstOf {α : List Symbol} : ∀ {a : Symbol}, g.FirstOf α a → Opens P α a
  | .epsilon, ha => opens_of_derives hP ha rfl
  | .nonTerminal _, ha => ha.elim
  | .terminal _, ⟨_, hβ⟩ => opens_of_derives hP hβ rfl
  | .endOfInput, ⟨_, hβ⟩ => opens_of_derives hP hβ rfl

end

theorem IsFirst.opens_iff {first : SetFamily} (h : g.IsFirst first) {α : List Symbol} {a : Symbol} :
    Opens first.Holds α a ↔ g.FirstOf α a :=
  ⟨fun ha => firstOf_of_opens (ha.mono (h.least _ firstClosed_firstOf)), opens_of_firstOf h.closed⟩

theorem IsFirst.opens_epsilon_iff {first : SetFamily} (h : g.IsFirst first) {α : List Symbol} :
    Opens first.Holds α .epsilon ↔ g.Derives α [] :=
  h.opens_iff

theorem IsFirst.holds_iff {first : SetFamily} (h : g.IsFirst first) {i : Nat} {a : Symbol} :
    first.Holds i a ↔ g.FirstOf [.nonTerminal i] a := by
  rw [← h.opens_iff]
  by_cases e : a = .epsilon
  · subst e
    simp [Opens]
  · simp [Opens, e]

end

/-! ## The sets and the derivations -/

theorem firstOfSequence?_singleton {first : SetFamily} {i : Nat} (hi : i < first.size) :
    first.firstOfSequence? [.nonTerminal i] = first.get? i := by
  obtain ⟨s, hs⟩ := SetFamily.exists_get? hi
  have hwithin : Production.Within first.size [.nonTerminal i] := by
    intro j hj
    cases List.mem_singleton.mp hj
    exact hi
  obtain ⟨t, ht, hmem⟩ := first.exists_firstOfSequence? hwithin
  rw [ht, hs, Option.some.injEq]
  refine SymbolSet.ext fun a => ?_
  rw [hmem, ← SetFamily.holds_iff hs]
  by_cases e : a = .epsilon
  · subst e
    simp [Opens]
  · simp [Opens, e]

/-- FIRST of a sequence holds the lookaheads that begin something the sequence
derives, and ε if it derives the empty string. -/
theorem first_iff_derives {g : Grammar} (hg : g.BodiesInRange) :
    ∃ first, g.first? = some first ∧
      (∀ α, Production.Within g.size α → ∃ s, first.firstOfSequence? α = some s ∧
        (∀ t, t.isLookahead = true → (t ∈ s ↔ ∃ β, g.Derives α (t :: β))) ∧
        (.epsilon ∈ s ↔ g.Derives α []) ∧ ∀ i, ¬ .nonTerminal i ∈ s) ∧
      ∀ i < g.size, first.firstOfSequence? [.nonTerminal i] = first.get? i := by
  obtain ⟨first, hfirst, h⟩ := exists_first? hg
  refine ⟨first, hfirst, fun α hα => ?_, fun i hi => firstOfSequence?_singleton (h.size ▸ hi)⟩
  obtain ⟨s, hs, hmem⟩ := first.exists_firstOfSequence? (h.size ▸ hα)
  have hs' : ∀ a, a ∈ s ↔ g.FirstOf α a := fun a => (hmem a).trans h.opens_iff
  exact ⟨s, hs, fun t ht => (hs' t).trans (firstOf_token ht), hs' .epsilon, fun i => (hs' (.nonTerminal i)).mp⟩

end Grammar

/-- Left recursion, an ε and an end mark on a right side, and a nonterminal without productions. -/
def recursiveGrammar : Grammar :=
  .ofLists [
    ("S", [[.nonTerminal 0, .terminal 0], [.epsilon, .nonTerminal 1, .endOfInput]]),
    ("B", [[], [.terminal 1, .nonTerminal 2]]),
    ("C", [])] ["a", "b"] 0

namespace Grammar

theorem first_iff_derives_recursive : recursiveGrammar.BodiesInRange ∧
    (∃ β, recursiveGrammar.Derives [.nonTerminal 0] (.endOfInput :: β)) ∧
    ¬ recursiveGrammar.Derives [.nonTerminal 0] [] := by
  have hsymbols : ∀ r ∈ recursiveGrammar.rules, ∀ s ∈ r.right, recursiveGrammar.Has s := by decide
  have hg : recursiveGrammar.BodiesInRange := fun r hr _ hi => hsymbols r hr _ hi
  have hsize : 0 < recursiveGrammar.size := by decide
  have hset : (recursiveGrammar.first?.bind (·.get? 0)).map SymbolSet.toList =
      some [.terminal 1, .endOfInput] := by decide
  obtain ⟨first, hfirst, hseq, hget⟩ := first_iff_derives hg
  have hwithin : Production.Within recursiveGrammar.size [.nonTerminal 0] := by
    intro i hi
    cases List.mem_singleton.mp hi
    exact hsize
  obtain ⟨s, hs, hlook, hε, _⟩ := hseq [.nonTerminal 0] hwithin
  rw [hget 0 hsize] at hs
  rw [hfirst, Option.bind_some, hs, Option.map_some, Option.some.injEq] at hset
  refine ⟨hg, (hlook .endOfInput rfl).mp ?_, fun h => ?_⟩
  · show _ ∈ s.toList
    rw [hset]
    decide
  · have hmem : Symbol.epsilon ∈ s.toList := hε.mpr h
    rw [hset] at hmem
    exact absurd hmem (by decide)

end Grammar

end Predictive
