import Mathlib.Data.List.Forall2
import Mathlib.Order.Basic
import Predictive.Symbol.Family

/-!
# Families as relations

A family says of every nonterminal and symbol whether the symbol is in the set
of that nonterminal. Families of one size are equal when they say the same, and
a family that says more than another has a greater weight.
-/

namespace Predictive

/-- What a family can say: symbol `a` belongs to nonterminal `i`. -/
abbrev Facts := Nat → Symbol → Prop

namespace SymbolSet

theorem nodup (s : SymbolSet) : s.toList.Nodup := by
  have h := s.ascending.nodup_map
  rw [List.map_id] at h
  exact h

theorem size_le_of_subset {s t : SymbolSet} (h : s ⊆ t) : s.size ≤ t.size :=
  s.nodup.length_le_of_subset h

theorem size_lt_of_subset {s t : SymbolSet} (h : s ⊆ t) (hne : s ≠ t) : s.size < t.size := by
  have hex : ∃ a, a ∈ t ∧ ¬ a ∈ s := by
    refine Classical.byContradiction fun hno => hne (SymbolSet.ext fun a => ⟨h a, fun ha => ?_⟩)
    exact Classical.byContradiction fun hs => hno ⟨a, ha, hs⟩
  obtain ⟨a, hat, has⟩ := hex
  have hn : (a :: s.toList).Nodup := List.nodup_cons.mpr ⟨has, s.nodup⟩
  have hs : a :: s.toList ⊆ t.toList := by
    intro b hb
    rcases List.mem_cons.mp hb with rfl | hb
    · exact hat
    · exact h b hb
  exact hn.length_le_of_subset hs

theorem flatMap_length_le {l m : List SymbolSet} (h : List.Forall₂ (· ⊆ ·) l m) :
    (l.flatMap toList).length ≤ (m.flatMap toList).length := by
  induction h with
  | nil => exact Nat.le_refl _
  | cons hst _ ih =>
    rw [List.flatMap_cons, List.flatMap_cons, List.length_append, List.length_append]
    exact Nat.add_le_add (size_le_of_subset hst) ih

theorem flatMap_length_lt {l m : List SymbolSet} (h : List.Forall₂ (· ⊆ ·) l m) (hne : l ≠ m) :
    (l.flatMap toList).length < (m.flatMap toList).length := by
  induction h with
  | nil => exact absurd rfl hne
  | @cons s t l m hst hlm ih =>
    rw [List.flatMap_cons, List.flatMap_cons, List.length_append, List.length_append]
    by_cases e : s = t
    · subst e
      have hlm' : l ≠ m := fun e => hne (e ▸ rfl)
      exact Nat.add_lt_add_left (ih hlm') _
    · exact Nat.add_lt_add_of_lt_of_le (size_lt_of_subset hst e) (flatMap_length_le hlm)

theorem flatMap_length_le_mul {l : List SymbolSet} {c : Nat} (h : ∀ s ∈ l, s.size ≤ c) :
    (l.flatMap toList).length ≤ l.length * c := by
  induction l with
  | nil => simp
  | cons s l ih =>
    have hs := h s List.mem_cons_self
    have hl := ih fun t ht => h t (List.mem_cons_of_mem _ ht)
    unfold size at hs
    rw [List.flatMap_cons, List.length_append, List.length_cons, Nat.succ_mul]
    omega

end SymbolSet

namespace SetFamily

def Holds (f : SetFamily) : Facts := fun i a => ∃ s, f.get? i = some s ∧ a ∈ s

variable {f g : SetFamily} {i j : Nat} {a : Symbol} {s : SymbolSet}

theorem holds_iff (h : f.get? i = some s) : f.Holds i a ↔ a ∈ s := by
  unfold Holds
  rw [h]
  simp

theorem Holds.lt_size (h : f.Holds i a) : i < f.size := by
  obtain ⟨s, hs, _⟩ := h
  exact (List.getElem?_eq_some_iff.mp hs).1

theorem exists_get? (h : i < f.size) : ∃ s, f.get? i = some s :=
  ⟨f.sets[i], List.getElem?_eq_getElem h⟩

theorem not_holds_empty (n i : Nat) (a : Symbol) : ¬ (empty n).Holds i a := by
  rintro ⟨s, hs, ha⟩
  rw [get?_empty] at hs
  split at hs
  · cases hs
    exact SymbolSet.not_mem_empty a ha
  · cases hs

theorem holds_empty_le (n : Nat) (P : Facts) : (empty n).Holds ≤ P := fun i a ha => absurd ha (not_holds_empty n i a)

theorem holds_extend? (h : f.extend? i s = some g) : g.Holds j a ↔ f.Holds j a ∨ j = i ∧ a ∈ s := by
  unfold Holds
  rw [get?_of_extend? h]
  by_cases e : i = j
  · subst e
    obtain ⟨t, ht, _⟩ := Option.map_eq_some_iff.mp h
    simp [ht]
  · simp [e, Ne.symm e]

theorem exists_extend? (f : SetFamily) (s : SymbolSet) (hi : i < f.size) :
    ∃ g, f.extend? i s = some g ∧ g.size = f.size ∧ ∀ j a, g.Holds j a ↔ f.Holds j a ∨ j = i ∧ a ∈ s := by
  obtain ⟨g, hg⟩ := Option.isSome_iff_exists.mp (extend?_isSome (s := s).mpr hi)
  exact ⟨g, hg, size_of_extend? hg, fun _ _ => holds_extend? hg⟩

theorem le_iff_forall₂ : f ≤ g ↔ List.Forall₂ (· ⊆ ·) f.sets g.sets := by
  rw [List.forall₂_iff_zip]
  exact and_congr_right fun _ => ⟨fun h _ _ hp => h _ hp, fun h p hp => h hp⟩

theorem le_iff_holds : f ≤ g ↔ f.size = g.size ∧ f.Holds ≤ g.Holds := by
  rw [le_def]
  refine and_congr_right fun hsize => ⟨fun h i a => ?_, fun h i s t hs ht a ha => ?_⟩
  · rintro ⟨s, hs, ha⟩
    obtain ⟨t, ht⟩ := exists_get? (f := g) (hsize ▸ Holds.lt_size ⟨s, hs, ha⟩)
    exact ⟨t, ht, h i s t hs ht a ha⟩
  · exact (holds_iff ht).mp (h i a ⟨s, hs, ha⟩)

theorem weight_lt (h : f ≤ g) (hne : f ≠ g) : f.weight < g.weight := by
  obtain ⟨l⟩ := f
  obtain ⟨m⟩ := g
  exact SymbolSet.flatMap_length_lt (le_iff_forall₂.mp h) fun e => hne (congrArg SetFamily.mk e)

theorem weight_le {symbols : List Symbol} (h : f.Holds ≤ fun _ a => a ∈ symbols) :
    f.weight ≤ f.size * symbols.length := by
  refine SymbolSet.flatMap_length_le_mul fun s hs => ?_
  obtain ⟨i, hi⟩ := List.getElem?_of_mem hs
  exact s.nodup.length_le_of_subset fun a ha => h i a ⟨s, hi, ha⟩

end SetFamily

end Predictive
