import Predictive.Analysis.First
import Predictive.Grammar.InRange
import Predictive.Proofs.Facts

/-!
# What a sequence opens with

`Opens P α a` reads FIRST of a sequence off a relation `P` that stands for the
FIRST sets. It grows with `P`, is read off a concatenation part by part, and for
the relation of a family it is membership in FIRST of the sequence.
-/

namespace Predictive

/-- Sequence `α` opens with `a`, or vanishes if `a` is ε, as `P` tells. -/
def Opens (P : Facts) : Production → Symbol → Prop
  | [], a => a = .epsilon
  | .epsilon :: rest, a => Opens P rest a
  | .nonTerminal i :: rest, a => P i a ∧ a ≠ .epsilon ∨ P i .epsilon ∧ Opens P rest a
  | s :: _, a => a = s

theorem ne_epsilon_of_isLookahead {s : Symbol} (h : s.isLookahead = true) : s ≠ .epsilon := by
  intro e
  subst e
  cases h

section
variable {P Q : Facts} {a : Symbol}

theorem opens_token {s : Symbol} (hs : s.isLookahead = true) (rest : Production) :
    Opens P (s :: rest) a ↔ a = s := by
  cases s with
  | terminal _ => exact Iff.rfl
  | endOfInput => exact Iff.rfl
  | nonTerminal _ => cases hs
  | epsilon => cases hs

/-- What a sequence opens with hangs on what is known of this symbol and of vanishing. -/
theorem Opens.mono_of (hε : ∀ i, P i .epsilon → Q i .epsilon) (h : ∀ i, P i a → Q i a) :
    ∀ {α : Production}, Opens P α a → Opens Q α a
  | [], ha => ha
  | .epsilon :: α, ha => Opens.mono_of (α := α) hε h ha
  | .terminal _ :: _, ha => ha
  | .endOfInput :: _, ha => ha
  | .nonTerminal i :: _, ha => ha.imp (And.imp_left (h i)) (And.imp (hε i) (Opens.mono_of hε h))

theorem Opens.mono (h : P ≤ Q) {α : Production} (ha : Opens P α a) : Opens Q α a :=
  ha.mono_of (fun i => h i .epsilon) fun i => h i a

theorem Opens.mono_epsilon (h : ∀ i, P i .epsilon → Q i .epsilon) {α : Production} (hα : Opens P α .epsilon) :
    Opens Q α .epsilon :=
  hα.mono_of h h

theorem opens_token_append {s : Symbol} (hs : s.isLookahead = true) (α β : Production) :
    Opens P (s :: α ++ β) a ↔ Opens P (s :: α) a ∧ a ≠ .epsilon ∨ Opens P (s :: α) .epsilon ∧ Opens P β a := by
  have hne : Symbol.epsilon ≠ s := (ne_epsilon_of_isLookahead hs).symm
  simp only [List.cons_append, opens_token hs, hne, false_and, or_false]
  exact ⟨fun e => ⟨e, fun e' => hne (e' ▸ e)⟩, fun h => h.1⟩

theorem opens_append : ∀ (α β : Production),
    Opens P (α ++ β) a ↔ Opens P α a ∧ a ≠ .epsilon ∨ Opens P α .epsilon ∧ Opens P β a
  | [], β => by simp [Opens]
  | .epsilon :: α, β => opens_append α β
  | .terminal _ :: α, β => opens_token_append rfl α β
  | .endOfInput :: α, β => opens_token_append rfl α β
  | .nonTerminal i :: α, β => by
    simp only [List.cons_append, Opens]
    rw [opens_append α β]
    tauto

/-- A sequence that opens with a symbol has it, or a nonterminal that opens with
it, after a part that vanishes. -/
theorem Opens.split : ∀ {α : Production}, Opens P α a → a ≠ .epsilon →
    ∃ u s v, α = u ++ s :: v ∧ Opens P u .epsilon ∧ (s = a ∨ ∃ i, s = .nonTerminal i ∧ P i a)
  | [], h, ha => absurd h ha
  | .terminal i :: v, h, _ => ⟨[], .terminal i, v, rfl, rfl, Or.inl h.symm⟩
  | .endOfInput :: v, h, _ => ⟨[], .endOfInput, v, rfl, rfl, Or.inl h.symm⟩
  | .epsilon :: α, h, ha => by
    obtain ⟨u, s, v, rfl, hu, hs⟩ := Opens.split (α := α) h ha
    exact ⟨.epsilon :: u, s, v, rfl, hu, hs⟩
  | .nonTerminal i :: α, h, ha => by
    rcases h with ⟨hi, _⟩ | ⟨hi, h⟩
    · exact ⟨[], .nonTerminal i, α, rfl, rfl, Or.inr ⟨i, rfl, hi⟩⟩
    · obtain ⟨u, s, v, rfl, hu, hs⟩ := Opens.split h ha
      exact ⟨.nonTerminal i :: u, s, v, rfl, Or.inr ⟨hi, hu⟩, hs⟩

theorem Opens.mem_or : ∀ {α : Production}, Opens P α a → a = .epsilon ∨ a ∈ α ∨ ∃ i, P i a := by
  intro α h
  by_cases ha : a = .epsilon
  · exact Or.inl ha
  · obtain ⟨u, s, v, rfl, _, hs⟩ := h.split ha
    rcases hs with rfl | ⟨i, _, hi⟩
    · exact Or.inr (Or.inl (by simp))
    · exact Or.inr (Or.inr ⟨i, hi⟩)

theorem Opens.has {g : Grammar} {α : Production} (hα : ∀ s ∈ α, g.Has s) (hP : ∀ i b, P i b → g.Has b)
    (h : Opens P α a) : g.Has a := by
  rcases h.mem_or with rfl | ha | ⟨i, ha⟩
  · trivial
  · exact hα a ha
  · exact hP i a ha

end

/-! ## FIRST of a sequence over a family -/

/-- Every nonterminal of the sequence has a set among `n`. -/
def Production.Within (n : Nat) (α : Production) : Prop := ∀ i, Symbol.nonTerminal i ∈ α → i < n

namespace SetFamily

/-- A nonterminal that the walk does not reach may be out of range. -/
theorem mem_firstOfSequence? {f : SetFamily} {a : Symbol} : ∀ {α : Production} {s : SymbolSet},
    f.firstOfSequence? α = some s → (a ∈ s ↔ Opens f.Holds α a)
  | [], s, h | .terminal _ :: _, s, h | .endOfInput :: _, s, h => by
    cases h
    exact SymbolSet.mem_singleton
  | .epsilon :: α, s, h => mem_firstOfSequence? (α := α) h
  | .nonTerminal i :: α, s, h => by
    obtain ⟨t, ht, h⟩ := Option.bind_eq_some_iff.mp h
    simp only [Opens, holds_iff ht]
    split at h
    · obtain ⟨u, hu, rfl⟩ := Option.map_eq_some_iff.mp h
      simp [*, mem_firstOfSequence? hu]
    · rename_i hε
      cases h
      have hne : a ∈ s → a ≠ .epsilon := fun ha e => hε (e ▸ ha)
      simpa [hε] using hne

theorem exists_firstOfSequence? (f : SetFamily) {α : Production} (hα : Production.Within f.size α) :
    ∃ s, f.firstOfSequence? α = some s ∧ ∀ a, a ∈ s ↔ Opens f.Holds α a := by
  have htotal : ∃ s, f.firstOfSequence? α = some s := by
    induction α with
    | nil => exact ⟨_, rfl⟩
    | cons b α ih =>
      obtain ⟨u, hu⟩ := ih fun i hi => hα i (List.mem_cons_of_mem _ hi)
      cases b with
      | terminal _ => exact ⟨_, rfl⟩
      | endOfInput => exact ⟨_, rfl⟩
      | epsilon => exact ⟨u, hu⟩
      | nonTerminal i =>
        obtain ⟨t, ht⟩ := exists_get? (hα i List.mem_cons_self)
        unfold firstOfSequence?
        rw [ht, hu, Option.bind_some]
        split
        · exact ⟨_, rfl⟩
        · exact ⟨_, rfl⟩
  obtain ⟨s, hs⟩ := htotal
  exact ⟨s, hs, fun _ => mem_firstOfSequence? hs⟩

end SetFamily

end Predictive
