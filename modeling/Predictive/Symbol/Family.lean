import Predictive.Symbol.Set

/-!
# Families of symbol sets

One set per nonterminal, by number. A number outside the family has no set, and
an operation that needs it answers `none`.
-/

namespace Predictive

structure SetFamily where
  sets : List SymbolSet
deriving DecidableEq

namespace SetFamily

def size (f : SetFamily) : Nat := f.sets.length

def empty (n : Nat) : SetFamily := ⟨List.replicate n ∅⟩

def get? (f : SetFamily) (i : Nat) : Option SymbolSet := f.sets[i]?

/-- Adds the members of `s` to set number `i`. -/
def extend? (f : SetFamily) (i : Nat) (s : SymbolSet) : Option SetFamily :=
  (f.get? i).map fun t => ⟨f.sets.set i (t ∪ s)⟩

/-- Whether nonterminal `i` vanishes, as its FIRST set tells. -/
def nullable? (f : SetFamily) (i : Nat) : Option Bool :=
  (f.get? i).map fun s => decide (Symbol.epsilon ∈ s)

def weight (f : SetFamily) : Nat := (f.sets.flatMap SymbolSet.toList).length

/-! ## Inclusion

Only families of the same size are comparable. -/

instance : LE SetFamily :=
  ⟨fun f g => f.size = g.size ∧ ∀ p ∈ f.sets.zip g.sets, p.1 ⊆ p.2⟩

instance (f g : SetFamily) : Decidable (f ≤ g) :=
  inferInstanceAs (Decidable (f.size = g.size ∧ ∀ p ∈ f.sets.zip g.sets, p.1 ⊆ p.2))

theorem le_def {f g : SetFamily} :
    f ≤ g ↔ f.size = g.size ∧ ∀ i s t, f.get? i = some s → g.get? i = some t → s ⊆ t := by
  refine and_congr_right fun _ => ?_
  constructor
  · intro h i s t hs ht
    have hi : (f.sets.zip g.sets)[i]? = some (s, t) := List.getElem?_zip_eq_some.2 ⟨hs, ht⟩
    exact h (s, t) (List.mem_of_getElem? hi)
  · intro h p hp
    obtain ⟨i, hi⟩ := List.getElem?_of_mem hp
    rw [List.getElem?_zip_eq_some] at hi
    exact h i _ _ hi.1 hi.2

/-! ## Lookups after an operation -/

@[simp] theorem size_empty (n : Nat) : (empty n).size = n := List.length_replicate

theorem get?_empty (n i : Nat) : (empty n).get? i = if i < n then some ∅ else none :=
  List.getElem?_replicate

theorem size_of_extend? {f g : SetFamily} {i : Nat} {s : SymbolSet} (h : f.extend? i s = some g) :
    g.size = f.size := by
  obtain ⟨t, _, rfl⟩ := Option.map_eq_some_iff.1 h
  exact List.length_set

theorem extend?_isSome {f : SetFamily} {i : Nat} {s : SymbolSet} :
    (f.extend? i s).isSome = true ↔ i < f.size := by
  simp [extend?, get?, size]

theorem get?_of_extend? {f g : SetFamily} {i j : Nat} {s : SymbolSet} (h : f.extend? i s = some g) :
    g.get? j = if i = j then (f.get? j).map (· ∪ s) else f.get? j := by
  obtain ⟨t, ht, rfl⟩ := Option.map_eq_some_iff.1 h
  unfold get? at *
  by_cases e : i = j
  · subst e
    obtain ⟨hi, rfl⟩ := List.getElem?_eq_some_iff.1 ht
    simp [hi]
  · simp [e]

end SetFamily

end Predictive
