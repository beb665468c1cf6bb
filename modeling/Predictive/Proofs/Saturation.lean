import Mathlib.Order.Monotone.Defs
import Predictive.Analysis.Passes
import Predictive.Proofs.Facts

/-!
# Families grown by passes

A pass goes through a list of items and lets each of them add, in place, what it
calls for. A family that a pass leaves as it is is closed under the items, and
no pass leads out of a closed relation. The families of all passes stay below a
bound on their weight, so the last of them is the least closed one.
-/

namespace Predictive

section
variable {ι : Type} (items : List ι) (step : SetFamily → ι → Option SetFamily) (adds : ι → Facts → Facts)

def Closed (P : Facts) : Prop := ∀ x ∈ items, adds x P ≤ P

/-- On families of `n` sets every item can be carried out and adds what it calls for. -/
structure Growth (n : Nat) : Prop where
  mono : ∀ x ∈ items, Monotone (adds x)
  exists_step : ∀ x ∈ items, ∀ f : SetFamily, f.size = n →
    ∃ g, step f x = some g ∧ g.size = n ∧ ∀ i a, g.Holds i a ↔ f.Holds i a ∨ adds x f.Holds i a

/-- What one pass makes of a family. -/
structure Grown (f g : SetFamily) : Prop where
  size : g.size = f.size
  above : f.Holds ≤ g.Holds
  fired : ∀ x ∈ items, adds x f.Holds ≤ g.Holds
  below : ∀ P, Closed items adds P → f.Holds ≤ P → g.Holds ≤ P

/-- What all passes together make of a family. -/
structure Saturated (f g : SetFamily) : Prop where
  size : g.size = f.size
  above : f.Holds ≤ g.Holds
  closed : Closed items adds g.Holds
  least : ∀ P, Closed items adds P → f.Holds ≤ P → g.Holds ≤ P

variable {items step adds} {n : Nat}

theorem Growth.tail {x : ι} (h : Growth (x :: items) step adds n) : Growth items step adds n where
  mono y hy := h.mono y (List.mem_cons_of_mem x hy)
  exists_step y hy := h.exists_step y (List.mem_cons_of_mem x hy)

theorem Closed.tail {x : ι} {P : Facts} (h : Closed (x :: items) adds P) : Closed items adds P :=
  fun y hy => h y (List.mem_cons_of_mem x hy)

theorem Growth.exists_pass (h : Growth items step adds n) {f : SetFamily} (hf : f.size = n) :
    ∃ g, items.foldlM step f = some g ∧ Grown items adds f g := by
  induction items generalizing f with
  | nil => exact ⟨f, rfl, rfl, le_refl _, fun _ hx => absurd hx List.not_mem_nil, fun _ _ hP => hP⟩
  | cons x items ih =>
    obtain ⟨m, hm, hsize, hmem⟩ := h.exists_step x List.mem_cons_self f hf
    obtain ⟨g, hg, hgrown⟩ := ih h.tail hsize
    have hfm : f.Holds ≤ m.Holds := fun i a ha => (hmem i a).mpr (Or.inl ha)
    refine ⟨g, ?_, hgrown.size.trans (hsize.trans hf.symm), hfm.trans hgrown.above, ?_, ?_⟩
    · rw [List.foldlM_cons, hm]
      exact hg
    · intro y hy
      rcases List.mem_cons.mp hy with rfl | hy
      · intro i a ha
        exact hgrown.above i a ((hmem i a).mpr (Or.inr ha))
      · exact (h.tail.mono y hy hfm).trans (hgrown.fired y hy)
    · intro P hP hfP
      refine hgrown.below P hP.tail fun i a ha => ?_
      rcases (hmem i a).mp ha with ha | ha
      · exact hfP i a ha
      · exact hP x List.mem_cons_self i a (h.mono x List.mem_cons_self hfP i a ha)

theorem Grown.le {f g : SetFamily} (h : Grown items adds f g) : f ≤ g :=
  SetFamily.le_iff_holds.mpr ⟨h.size.symm, h.above⟩

theorem Grown.closed {f : SetFamily} (h : Grown items adds f f) : Closed items adds f.Holds := h.fired

/-- No pass leads out of a closed relation, wherever the passes are stopped. -/
theorem Growth.exists_states (h : Growth items step adds n) : ∀ (bound : Nat) (f : SetFamily), f.size = n →
    ∃ states, passes (items.foldlM step) bound f = some states ∧
      ∀ g ∈ states, g.size = n ∧ ∀ P, Closed items adds P → f.Holds ≤ P → g.Holds ≤ P
  | 0, _, _ => ⟨[], rfl, fun _ hg => absurd hg List.not_mem_nil⟩
  | bound + 1, f, hf => by
    obtain ⟨g, hg, hgrown⟩ := h.exists_pass hf
    have hsize := hgrown.size.trans hf
    rw [passes_succ hg]
    by_cases e : g = f
    · refine ⟨[g], if_pos e, fun g' hg' => ?_⟩
      rw [List.mem_singleton.mp hg']
      exact ⟨hsize, hgrown.below⟩
    · obtain ⟨states, hstates, hbelow⟩ := h.exists_states bound g hsize
      refine ⟨g :: states, by rw [if_neg e, hstates, Option.map_some], fun g' hg' => ?_⟩
      rcases List.mem_cons.mp hg' with rfl | hg'
      · exact ⟨hsize, hgrown.below⟩
      · obtain ⟨hsize', hbelow'⟩ := hbelow g' hg'
        exact ⟨hsize', fun P hP hfP => hbelow' P hP (hgrown.below P hP hfP)⟩

/-- The passes end within `bound` if the weight cannot grow so often. -/
theorem Growth.exists_saturated (h : Growth items step adds n) {symbols : List Symbol}
    (hsymbols : Closed items adds fun _ a => a ∈ symbols) :
    ∀ (bound : Nat) (f : SetFamily), f.size = n → (f.Holds ≤ fun _ a => a ∈ symbols) →
      n * symbols.length < f.weight + bound →
      ∃ states last, passes (items.foldlM step) bound f = some states ∧ states.getLast? = some last ∧
        Saturated items adds f last
  | 0, f, hf, hin, hbound => by
    have := SetFamily.weight_le hin
    rw [hf] at this
    omega
  | bound + 1, f, hf, hin, hbound => by
    obtain ⟨g, hg, hgrown⟩ := h.exists_pass hf
    rw [passes_succ hg]
    by_cases e : g = f
    · subst e
      exact ⟨[g], g, if_pos rfl, rfl, rfl, le_refl _, hgrown.closed, fun _ _ hP => hP⟩
    · have hlt := SetFamily.weight_lt hgrown.le (Ne.symm e)
      obtain ⟨states, last, hstates, hlast, hsat⟩ := h.exists_saturated hsymbols bound g
        (hgrown.size.trans hf) (hgrown.below _ hsymbols hin) (by omega)
      refine ⟨g :: states, last, ?_, ?_, ?_⟩
      · rw [if_neg e, hstates]
        rfl
      · rw [List.getLast?_cons, hlast]
        rfl
      · exact ⟨hsat.size.trans hgrown.size, hgrown.above.trans hsat.above, hsat.closed, fun P hP hfP =>
          hsat.least P hP (hgrown.below P hP hfP)⟩

end

end Predictive
